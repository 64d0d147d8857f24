/-
# Literals

The values that can be written in a program: integers of two widths, floating-point numbers of two
kinds (both held as 64-bit numbers), strings, truth values and `null`.  `Literal.text` writes a
value as a program does.
-/
import Recast.Decimal.Shortest
import Recast.Text.Quoted

namespace Recast

/-- A value written in a program. -/
inductive Literal where
  | int (value : Int)
  | long (value : Int)
  | float (value : Binary64)
  | double (value : Binary64)
  | string (value : String)
  | bool (value : Bool)
  | null
  deriving DecidableEq

namespace Literal

/-- The value as it is written in a program. -/
def text : Literal → String
  | int v => toString v
  | long v => toString v ++ "L"
  | float v => v.text ++ "f"
  | double v => v.text
  | string s => String.ofList (Text.quote s.toList)
  | bool true => "true"
  | bool false => "false"
  | null => "null"

/-- Whether two literals stand for the same value; floating-point numbers are compared as
numbers. -/
def same : Literal → Literal → Bool
  | float a, float b => a.same b
  | double a, double b => a.same b
  | a, b => a = b

end Literal

end Recast
