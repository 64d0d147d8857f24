/-
# Resolved types

A `DataType` is a name applied to argument types, with an array rank, such as `List<int[]>[]`.
It carries its `TypeHash`, and two types are taken for the same exactly when their hashes agree
(`DataType.same`).

The types of the language that have a meaning of their own are the numeric ones, in the order of
implicit promotion `int`, `long`, `float`, `double`; `bool`, `string` and `void`; the type of the
`null` literal; and the lazily produced sequences `IEnumerable<T>` and `IEnumerator<T>`.
-/
import Recast.Types.Hash

namespace Recast

/-- A resolved type: a name, its arguments, an array rank, and the hash of all three. -/
structure DataType where
  name : String
  args : List DataType
  rank : Nat
  hash : TypeHash

namespace DataType

/-! ## 1. Construction -/

/-- The hash of a name applied to arguments. -/
def baseHash (name : String) (args : List DataType) : TypeHash :=
  .generic (.ofName name) (args.map DataType.hash)

/-- A name applied to arguments. -/
def generic (name : String) (args : List DataType) : DataType := ⟨name, args, 0, baseHash name args⟩

/-- A name alone. -/
def named (name : String) : DataType := generic name []

instance : Inhabited DataType := ⟨named ""⟩

/-- The type with another array rank. -/
def withRank (t : DataType) (rank : Nat) : DataType :=
  let base := baseHash t.name t.args
  { t with rank := rank, hash := if rank = 0 then base else .array base rank }

/-- An array of a type: one rank more. -/
def arrayOf (t : DataType) : DataType := t.withRank (t.rank + 1)

def void : DataType := named "void"

def bool : DataType := named "bool"

def int : DataType := named "int"

def long : DataType := named "long"

def float : DataType := named "float"

def double : DataType := named "double"

def string : DataType := named "string"

/-- The type of the `null` literal. -/
def null : DataType := named "null"

/-! ## 2. Questions -/

/-- Whether two types are taken for the same one. -/
def same (a b : DataType) : Bool := a.hash == b.hash

def isArray (t : DataType) : Bool := 0 < t.rank

def isVoid (t : DataType) : Bool := !t.isArray && t.name == "void"

def isNull (t : DataType) : Bool := !t.isArray && t.name == "null"

def isBool (t : DataType) : Bool := !t.isArray && t.name == "bool"

/-- The place of a type in the order of numeric promotion. -/
def numericRank? (t : DataType) : Option Nat :=
  if t.isArray then none
  else if t.name = "int" then some 0
  else if t.name = "long" then some 1
  else if t.name = "float" then some 2
  else if t.name = "double" then some 3
  else none

def isNumeric (t : DataType) : Bool := t.numericRank?.isSome

/-- The wider of two numeric types, the first of two equally wide ones. -/
def promote? (a b : DataType) : Option DataType := do
  let i ← a.numericRank?
  let j ← b.numericRank?
  pure (if j ≤ i then a else b)

/-- Whether the type is that of a lazily produced sequence. -/
def isLazySequence (t : DataType) : Bool :=
  !t.isArray && t.args.length == 1 && (t.name == "IEnumerable" || t.name == "IEnumerator")

/-- The type of the elements: one rank less for an array, else the only argument. -/
def element? (t : DataType) : Option DataType :=
  if t.isArray then some (t.withRank (t.rank - 1))
  else match t.args with
    | [element] => some element
    | _ => none

/-! ## 3. Text -/

/-- The brackets of an array rank. -/
def rankText : Nat → String
  | 0 => ""
  | n + 1 => "[]" ++ rankText n

mutual

/-- The type as it is written: `Name<A, B>[][]`. -/
def text : DataType → String
  | ⟨name, args, rank, _⟩ => name ++ argsText args ++ rankText rank

/-- The argument list of a type, empty if there are no arguments. -/
def argsText : List DataType → String
  | [] => ""
  | a :: as => "<" ++ a.text ++ moreText as ++ ">"

/-- The arguments after the first. -/
def moreText : List DataType → String
  | [] => ""
  | a :: as => ", " ++ a.text ++ moreText as

end

end DataType

end Recast
