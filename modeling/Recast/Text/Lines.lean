/-
# Lines of a text

A line ends at a line feed, or at a carriage return directly followed by one; neither belongs to
the line.  A text that ends with a line break has no further empty line after it.
-/
namespace Recast.Text

/-- The lines of a text, from the first to the last. -/
def lines : List Char → List (List Char)
  | [] => []
  | '\n' :: cs => [] :: lines cs
  | '\r' :: '\n' :: cs => [] :: lines cs
  | c :: cs =>
    match lines cs with
    | [] => [[c]]
    | l :: ls => (c :: l) :: ls

/-- The characters after the last line feed, or the whole text if it has none. -/
def lastLine (cs : List Char) : List Char :=
  (cs.reverse.takeWhile (· ≠ '\n')).reverse

/-- Put blanks before a text until it is `width` characters long. -/
def padLeft (width : Nat) (s : String) : String :=
  String.ofList (List.replicate (width - s.length) ' ') ++ s

end Recast.Text
