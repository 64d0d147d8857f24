/-
# Types as written

A `WrittenType` is a type as it stands in a program, with its place: `int`, `List<Order>`,
`string[]`.  The name `var` alone stands for the type of an initializer.

Reading a written type as a `DataType` (`toDataType`) and writing a `DataType`
(`WrittenType.ofDataType`) change nothing but the spans and do not ask whether the name is
declared.
-/
import Recast.Span
import Recast.Types.DataType

namespace Recast

/-- A type as written in a program. -/
structure WrittenType where
  name : String
  args : List WrittenType
  rank : Nat
  span : Span

namespace WrittenType

mutual

/-- Equality of written types, places included, can be decided. -/
def decEq : (a b : WrittenType) → Decidable (a = b)
  | ⟨n, as, r, s⟩, ⟨m, bs, q, t⟩ =>
    if hn : n = m then
      match decEqList as bs with
      | isTrue ha =>
        if hr : r = q ∧ s = t then isTrue (by rw [hn, ha, hr.1, hr.2])
        else isFalse (by intro h; injection h with _ _ h₁ h₂; exact hr ⟨h₁, h₂⟩)
      | isFalse ha => isFalse (by intro h; injection h with _ h; exact ha h)
    else isFalse (by intro h; injection h with h; exact hn h)

/-- Equality of lists of written types can be decided. -/
def decEqList : (as bs : List WrittenType) → Decidable (as = bs)
  | [], [] => isTrue rfl
  | [], _ :: _ => isFalse (by simp)
  | _ :: _, [] => isFalse (by simp)
  | a :: as, b :: bs =>
    match decEq a b, decEqList as bs with
    | isTrue h, isTrue hs => isTrue (by rw [h, hs])
    | isFalse h, _ => isFalse (by intro e; injection e with e; exact h e)
    | _, isFalse hs => isFalse (by intro e; injection e with _ e; exact hs e)

end

instance : DecidableEq WrittenType := decEq

/-- A name alone. -/
def named (name : String) (span : Span) : WrittenType := ⟨name, [], 0, span⟩

/-- Whether this is the word `var`, which leaves the type to the initializer. -/
def isVar (t : WrittenType) : Bool := t.name == "var" && t.args.isEmpty && t.rank == 0

mutual

/-- The type that is meant. -/
def toDataType : WrittenType → DataType
  | ⟨name, args, rank, _⟩ => rank.repeat DataType.arrayOf (.generic name (toDataTypes args))

/-- The types that are meant, in order. -/
def toDataTypes : List WrittenType → List DataType
  | [] => []
  | t :: ts => t.toDataType :: toDataTypes ts

end

mutual

/-- How a type is written, without a place. -/
def ofDataType : DataType → WrittenType
  | ⟨name, args, rank, _⟩ => ⟨name, ofDataTypes args, rank, default⟩

/-- How types are written, in order. -/
def ofDataTypes : List DataType → List WrittenType
  | [] => []
  | t :: ts => ofDataType t :: ofDataTypes ts

end

mutual

/-- The text of a written type: `Name<A, B>[][]`. -/
def text : WrittenType → String
  | ⟨name, args, rank, _⟩ => name ++ argsText args ++ DataType.rankText rank

/-- The argument list of a written type, empty if there are no arguments. -/
def argsText : List WrittenType → String
  | [] => ""
  | a :: as => "<" ++ a.text ++ moreText as ++ ">"

/-- The arguments after the first. -/
def moreText : List WrittenType → String
  | [] => ""
  | a :: as => ", " ++ a.text ++ moreText as

end

end WrittenType

end Recast
