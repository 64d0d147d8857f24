/-
# Scanning characters

The rules by which characters group into tokens, as functions on lists of characters that return
what they read and what follows it.

* `Scan.trivia` skips what stands between tokens: blanks, comments, and a byte-order mark where
  blanks may start;
* `Scan.token` reads one token from a text that does not start with trivia: a string, a number, a
  word, or the longest operator.

The two parts of every result make up the text that was read, in order.
-/
import Recast.Error
import Recast.Text.Blank
import Recast.Token.Basic

namespace Recast.Scan

/-! ## 1. Character classes -/

/-- A digit, or the underscore that may group digits. -/
def isDigitChar (c : Char) : Bool := c.isDigit || c = '_'

/-- The characters that start a word: ASCII letters and the underscore. -/
def isWordStart (c : Char) : Bool := c = '_' || c.isAlpha

/-- The characters that continue a word. -/
def isWordChar (c : Char) : Bool := c = '_' || c.isAlphanum

/-- The byte-order mark. -/
def byteOrderMark : Char := '\uFEFF'

/-! ## 2. Between tokens -/

/-- The rest of a block comment after its opening, up to and with its closing; nothing if it is
never closed. -/
def blockComment? : List Char → Option (List Char × List Char)
  | [] => none
  | '*' :: '/' :: cs => some (['*', '/'], cs)
  | c :: cs => (blockComment? cs).map fun (body, rest) => (c :: body, rest)

/-- A comment and what follows it make up the text. -/
theorem eq_append_of_blockComment? : ∀ {cs body rest : List Char},
    blockComment? cs = some (body, rest) → body ++ rest = cs
  | [], _, _, h => by simp [blockComment?] at h
  | c :: cs, body, rest, h => by
    unfold blockComment? at h
    split at h
    · simp at *
    · rename_i heq
      cases heq
      simp only [Option.some.injEq, Prod.mk.injEq] at h
      obtain ⟨rfl, rfl⟩ := h
      rfl
    · rename_i heq
      cases heq
      obtain ⟨⟨b, r⟩, hb, he⟩ := Option.map_eq_some_iff.mp h
      simp only [Prod.mk.injEq] at he
      obtain ⟨rfl, rfl⟩ := he
      simp [eq_append_of_blockComment? hb]

/-- Blanks, with a byte-order mark before them if there is one. -/
def blanks : List Char → List Char × List Char
  | [] => ([], [])
  | c :: cs =>
    if c = byteOrderMark then
      (c :: cs.takeWhile Text.isAsciiBlank, cs.dropWhile Text.isAsciiBlank)
    else ((c :: cs).takeWhile Text.isAsciiBlank, (c :: cs).dropWhile Text.isAsciiBlank)

/-- Blanks and what follows them make up the text. -/
theorem blanks_append (cs : List Char) : (blanks cs).1 ++ (blanks cs).2 = cs := by
  unfold blanks
  split
  · rfl
  · split <;> simp

/-- Skip at most `limit` stretches of blanks, each of them but the last with a comment after it. -/
def skipTrivia : Nat → List Char → List Char × List Char
  | 0, cs => ([], cs)
  | limit + 1, cs =>
    let (blank, rest) := blanks cs
    match rest with
    | '/' :: '/' :: _ =>
      let (more, after) := skipTrivia limit (rest.dropWhile (· ≠ '\n'))
      (blank ++ rest.takeWhile (· ≠ '\n') ++ more, after)
    | '/' :: '*' :: body =>
      match blockComment? body with
      | some (comment, after) =>
        let (more, after) := skipTrivia limit after
        (blank ++ '/' :: '*' :: comment ++ more, after)
      | none => (blank, rest)
    | _ => (blank, rest)

/-- What is skipped and what follows make up the text, whatever the limit. -/
theorem skipTrivia_append : ∀ (limit : Nat) (cs : List Char),
    (skipTrivia limit cs).1 ++ (skipTrivia limit cs).2 = cs
  | 0, cs => rfl
  | limit + 1, cs => by
    have hb := blanks_append cs
    unfold skipTrivia
    generalize blanks cs = split₁ at hb ⊢
    obtain ⟨blank, rest⟩ := split₁
    simp only at hb ⊢
    split
    · rename_i tail
      have ih := skipTrivia_append limit (('/' :: '/' :: tail).dropWhile (· ≠ '\n'))
      rw [← hb]
      simp only [List.append_assoc, ih, List.takeWhile_append_dropWhile]
    · rename_i body
      split
      · rename_i comment after hc
        have ih := skipTrivia_append limit after
        rw [← hb, ← eq_append_of_blockComment? hc]
        simp [List.append_assoc, ih]
      · exact hb
    · exact hb

/-- Skip everything before the next token.  A comment takes two characters at least, so the
length of the text bounds the number of stretches. -/
def trivia (cs : List Char) : List Char × List Char := skipTrivia cs.length cs

/-- **Trivia and what follows them make up the text.** -/
theorem trivia_append (cs : List Char) : (trivia cs).1 ++ (trivia cs).2 = cs :=
  skipTrivia_append cs.length cs

/-! ## 3. Tokens -/

/-- What was read: the kind of a token or why there is none, its characters, and what follows. -/
structure Scanned where
  result : Except LexCause TokenKind
  lexeme : List Char
  rest : List Char

/-- The rest of a string literal after its opening quote, up to and with its closing quote, and
whether there is one.  A string ends at the end of its line, but a backslash always takes the next
character with it. -/
def stringBody : List Char → Bool × List Char × List Char
  | [] => (false, [], [])
  | '\n' :: cs => (false, [], '\n' :: cs)
  | '"' :: cs => (true, ['"'], cs)
  | ['\\'] => (false, ['\\'], [])
  | '\\' :: c :: cs =>
    let (closed, body, rest) := stringBody cs
    (closed, '\\' :: c :: body, rest)
  | c :: cs =>
    let (closed, body, rest) := stringBody cs
    (closed, c :: body, rest)

theorem stringBody_append (cs : List Char) :
    (stringBody cs).2.1 ++ (stringBody cs).2.2 = cs := by
  fun_induction stringBody cs <;> simp_all

/-- A string literal, from after its opening quote. -/
def string (cs : List Char) : Scanned :=
  let (closed, body, rest) := stringBody cs
  ⟨if closed then .ok .stringLiteral else .error .unterminatedString, '"' :: body, rest⟩

/-- The fraction of a number: a point and digits, if a digit follows the point. -/
def fraction : List Char → List Char × List Char
  | '.' :: d :: cs =>
    if d.isDigit then
      ('.' :: (d :: cs).takeWhile isDigitChar, (d :: cs).dropWhile isDigitChar)
    else ([], '.' :: d :: cs)
  | cs => ([], cs)

theorem fraction_append (cs : List Char) : (fraction cs).1 ++ (fraction cs).2 = cs := by
  unfold fraction
  split
  · split <;> simp
  · rfl

/-- A sign at the front of a text. -/
def sign : List Char → List Char × List Char
  | '+' :: cs => (['+'], cs)
  | '-' :: cs => (['-'], cs)
  | cs => ([], cs)

theorem sign_append (cs : List Char) : (sign cs).1 ++ (sign cs).2 = cs := by
  unfold sign
  split <;> rfl

/-- The exponent of a number, and whether it is well formed: after the letter and the sign there
has to be a digit. -/
def exponent : List Char → Bool × List Char × List Char
  | [] => (true, [], [])
  | e :: cs =>
    if e = 'e' || e = 'E' then
      let (mark, rest) := sign cs
      match rest with
      | d :: _ =>
        if d.isDigit then
          (true, e :: mark ++ rest.takeWhile isDigitChar, rest.dropWhile isDigitChar)
        else (false, e :: mark, rest)
      | [] => (false, e :: mark, [])
    else (true, [], e :: cs)

theorem exponent_append (cs : List Char) : (exponent cs).2.1 ++ (exponent cs).2.2 = cs := by
  unfold exponent
  split
  · rfl
  · rename_i e cs
    have hs := sign_append cs
    generalize sign cs = signed at hs ⊢
    obtain ⟨mark, rest⟩ := signed
    simp only at hs ⊢
    rw [← hs]
    split
    · split
      · split <;> simp
      · simp
    · simp

/-- The kind of a number by the letter after it, and that letter. -/
def suffix (isFloat : Bool) : List Char → TokenKind × List Char × List Char
  | [] => (if isFloat then .doubleLiteral else .intLiteral, [], [])
  | c :: cs =>
    if c = 'f' || c = 'F' then (.floatLiteral, [c], cs)
    else if (c = 'L' || c = 'l') && !isFloat then (.longLiteral, [c], cs)
    else (if isFloat then .doubleLiteral else .intLiteral, [], c :: cs)

theorem suffix_append (isFloat : Bool) (cs : List Char) :
    (suffix isFloat cs).2.1 ++ (suffix isFloat cs).2.2 = cs := by
  unfold suffix
  split
  · rfl
  · split
    · rfl
    · split <;> rfl

/-- A number: digits, a fraction, an exponent and a suffix.  No further word character may follow
directly. -/
def number (cs : List Char) : Scanned :=
  let whole := cs.takeWhile isDigitChar
  let (point, rest) := fraction (cs.dropWhile isDigitChar)
  let (wellFormed, power, rest) := exponent rest
  if !wellFormed then
    ⟨.error (.invalidNumber "expected digits in exponent"), whole ++ point ++ power, rest⟩
  else
    let (kind, letter, rest) := suffix (!point.isEmpty || !power.isEmpty) rest
    let read := whole ++ point ++ power ++ letter
    let extra := rest.takeWhile isWordChar
    if extra.isEmpty then ⟨.ok kind, read, rest⟩
    else ⟨.error (.invalidNumber "invalid suffix"), read ++ extra, rest.dropWhile isWordChar⟩

theorem number_append (cs : List Char) : (number cs).lexeme ++ (number cs).rest = cs := by
  have hf := fraction_append (cs.dropWhile isDigitChar)
  have hcs := List.takeWhile_append_dropWhile (p := isDigitChar) (l := cs)
  unfold number
  generalize fraction (cs.dropWhile isDigitChar) = fr at hf ⊢
  obtain ⟨point, rest⟩ := fr
  have he := exponent_append rest
  simp only at hf ⊢
  generalize exponent rest = ex at he ⊢
  obtain ⟨wellFormed, power, rest'⟩ := ex
  simp only at he ⊢
  split
  · simp only [List.append_assoc, he, hf, hcs]
  · have hs := suffix_append (!point.isEmpty || !power.isEmpty) rest'
    generalize suffix (!point.isEmpty || !power.isEmpty) rest' = su at hs ⊢
    obtain ⟨kind, letter, rest''⟩ := su
    simp only at hs ⊢
    split
    · simp only [List.append_assoc, hs, he, hf, hcs]
    · simp only [List.append_assoc, List.takeWhile_append_dropWhile, hs, he, hf, hcs]

/-- A word: a keyword or an identifier. -/
def word (cs : List Char) : Scanned :=
  let lexeme := cs.takeWhile isWordChar
  ⟨.ok ((TokenKind.keyword? (String.ofList lexeme)).getD .identifier), lexeme,
    cs.dropWhile isWordChar⟩

theorem word_append (cs : List Char) : (word cs).lexeme ++ (word cs).rest = cs := by
  simp [word]

/-- The operators of two characters. -/
def pair? (a b : Char) : Option TokenKind :=
  if b = '=' then
    if a = '+' then some .plusEqual
    else if a = '-' then some .minusEqual
    else if a = '*' then some .starEqual
    else if a = '/' then some .slashEqual
    else if a = '=' then some .equalEqual
    else if a = '!' then some .bangEqual
    else if a = '<' then some .lessEqual
    else if a = '>' then some .greaterEqual
    else none
  else if a = '&' && b = '&' then some .ampAmp
  else if a = '|' && b = '|' then some .pipePipe
  else none

/-- The operators and delimiters of one character. -/
def single? (a : Char) : Option TokenKind :=
  if a = '(' then some .leftParen
  else if a = ')' then some .rightParen
  else if a = '[' then some .leftBracket
  else if a = ']' then some .rightBracket
  else if a = '\x7b' then some .leftBrace
  else if a = '\x7d' then some .rightBrace
  else if a = ';' then some .semicolon
  else if a = ',' then some .comma
  else if a = '.' then some .dot
  else if a = '+' then some .plus
  else if a = '-' then some .minus
  else if a = '*' then some .star
  else if a = '/' then some .slash
  else if a = '%' then some .percent
  else if a = '=' then some .equal
  else if a = '!' then some .bang
  else if a = '<' then some .less
  else if a = '>' then some .greater
  else none

/-- An operator or delimiter of one character. -/
def single (c : Char) (cs : List Char) : Scanned :=
  match single? c with
  | some kind => ⟨.ok kind, [c], cs⟩
  | none => ⟨.error (.unexpectedChar c), [c], cs⟩

theorem single_append (c : Char) (cs : List Char) :
    (single c cs).lexeme ++ (single c cs).rest = c :: cs := by
  unfold single
  split <;> rfl

/-- The longest operator or delimiter that starts with the character `c`. -/
def operator (c : Char) : List Char → Scanned
  | [] => single c []
  | d :: cs =>
    match pair? c d with
    | some kind => ⟨.ok kind, [c, d], cs⟩
    | none => single c (d :: cs)

theorem operator_append (c : Char) (cs : List Char) :
    (operator c cs).lexeme ++ (operator c cs).rest = c :: cs := by
  unfold operator
  split
  · exact single_append c []
  · split
    · rfl
    · exact single_append c _

/-- Whether a number can start here: a digit, or a point before a digit. -/
def startsNumber (c : Char) (cs : List Char) : Bool :=
  c.isDigit || (c = '.' && match cs with
    | d :: _ => d.isDigit
    | [] => false)

/-- Read the token that starts with the character `c`.  A block comment can only stand here if it
is never closed, and then takes all that is left. -/
def token (c : Char) (cs : List Char) : Scanned :=
  if c = '/' && cs.head? = some '*' then ⟨.error .unterminatedComment, c :: cs, []⟩
  else if c = '"' then string cs
  else if startsNumber c cs then number (c :: cs)
  else if isWordStart c then word (c :: cs)
  else operator c cs

/-- **A token and what follows it make up the text.** -/
theorem token_append (c : Char) (cs : List Char) :
    (token c cs).lexeme ++ (token c cs).rest = c :: cs := by
  unfold token
  split
  · simp
  · split
    · rename_i h
      subst h
      simp only [string]
      have := stringBody_append cs
      generalize stringBody cs = body at this ⊢
      simpa using this
    · split
      · exact number_append (c :: cs)
      · split
        · exact word_append (c :: cs)
        · exact operator_append c cs

end Recast.Scan
