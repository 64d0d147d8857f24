/-
# Quoted texts

Two ways of putting a text between double quotes.

* `Text.quote` is the form that a program text uses for a string literal, with a backslash before
  six characters;
* `Text.inspect` is the form used to show a text to a developer, in which the other control
  characters are written by their code point as well.
-/
namespace Recast.Text

/-! ## 1. String literals -/

/-- A character of a string literal as it is written. -/
def escapeChar (c : Char) : List Char :=
  if c = '\n' then ['\\', 'n']
  else if c = '\t' then ['\\', 't']
  else if c = '\r' then ['\\', 'r']
  else if c = '\x00' then ['\\', '0']
  else if c = '\\' then ['\\', '\\']
  else if c = '"' then ['\\', '"']
  else [c]

/-- A text as a string literal. -/
def quote (cs : List Char) : List Char := '"' :: (cs.flatMap escapeChar ++ ['"'])

/-- The character that a backslash and a letter stand for. -/
def escaped? (c : Char) : Option Char :=
  if c = 'n' then some '\n'
  else if c = 't' then some '\t'
  else if c = 'r' then some '\r'
  else if c = '0' then some '\x00'
  else if c = '\\' then some '\\'
  else if c = '"' then some '"'
  else none

/-- Read the characters between the quotes of a string literal.  A backslash before any other
character is refused, and that character is reported; a backslash at the end counts as one before
a blank. -/
def unescape : List Char → Except Char (List Char)
  | [] => .ok []
  | ['\\'] => .error ' '
  | '\\' :: c :: cs =>
    match escaped? c with
    | some d => (unescape cs).map (d :: ·)
    | none => .error c
  | c :: cs => (unescape cs).map (c :: ·)

/-! ## 2. Inspection -/

/-- A character as it is shown to a developer: a control character by a backslash and a letter or
by its code point in hexadecimal digits. -/
def inspectChar (c : Char) : List Char :=
  if c = '"' then ['\\', '"']
  else if c = '\\' then ['\\', '\\']
  else if c = '\n' then ['\\', 'n']
  else if c = '\r' then ['\\', 'r']
  else if c = '\t' then ['\\', 't']
  else if c = '\x00' then ['\\', '0']
  else if c.toNat < 0x20 || c.toNat = 0x7f then
    "\\u\x7b".toList ++ Nat.toDigits 16 c.toNat ++ ['\x7d']
  else [c]

/-- A text as it is shown to a developer. -/
def inspect (s : String) : String :=
  String.ofList ('"' :: (s.toList.flatMap inspectChar ++ ['"']))

end Recast.Text
