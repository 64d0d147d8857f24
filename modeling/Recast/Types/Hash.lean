/-
# Type hashes

A `TypeHash` is a 64-bit number that identifies a type.  It is built from the hash of the name,
of the arguments in order, and of the array rank:

* `TypeHash.ofName` marks the digest of a name;
* `TypeHash.generic` mixes in the arguments one after another, each under the marker of its
  place, so that their order matters;
* `TypeHash.array` mixes in the rank of an array.

All arithmetic is modulo `2 ^ 64`.
-/
import Recast.Types.Digest

namespace Recast

/-- A number that identifies a type. -/
structure TypeHash where
  bits : UInt64
  deriving DecidableEq

namespace TypeHash

/-- The multiplier between two mixed-in numbers. -/
def separator : UInt64 := 0x4bc94d6bd06053ad

/-- The mark of a type name. -/
def nameMark : UInt64 := 0x2fac10b63a6cc57c

/-- The mark of an array. -/
def arrayMark : UInt64 := 0x7d3c8b4a92e15f6d

/-- The marks of the first eight argument places. -/
def placeMarks : List UInt64 :=
  [0x9e3779b97f4a7c15, 0xbf58476d1ce4e5b9, 0x94d049bb133111eb, 0xd6e8feb86659fd93,
    0xe7037ed1a0b428db, 0xc6a4a7935bd1e995, 0x8648dbbc94d49b8d, 0xa2b48b2c69e0d657]

/-- The mark of the argument place `i`, counted from zero.  After the eighth place it is the first
mark plus the place. -/
def placeMark (i : Nat) : UInt64 :=
  placeMarks[i]?.getD (0x9e3779b97f4a7c15 + i.toUInt64)

/-- The hash of no type. -/
def empty : TypeHash := ⟨0⟩

/-- Whether this is the hash of no type. -/
def isEmpty (h : TypeHash) : Bool := h.bits == 0

/-- The hash of a name. -/
def ofName (name : String) : TypeHash := ⟨nameMark ^^^ Digest.ofText name⟩

/-- Mix the arguments from the place `i` on into a hash. -/
def mixFrom (i : Nat) (h : UInt64) : List TypeHash → UInt64
  | [] => h
  | a :: as => mixFrom (i + 1) (h * separator + (placeMark i ^^^ a.bits)) as

/-- The hash of a definition applied to arguments. -/
def generic (definition : TypeHash) (args : List TypeHash) : TypeHash :=
  ⟨mixFrom 0 definition.bits args⟩

/-- The hash of an array of the given rank. -/
def array (element : TypeHash) (rank : Nat) : TypeHash :=
  ⟨(element.bits ^^^ arrayMark) * separator + rank.toUInt64⟩

/-- The hash as a hexadecimal number of sixteen digits. -/
def hex (h : TypeHash) : String :=
  let digits := Nat.toDigits 16 h.bits.toNat
  "0x" ++ String.ofList (List.replicate (16 - digits.length) '0' ++ digits)

/-- The hash with its type, for inspection. -/
def detail (h : TypeHash) : String := "TypeHash(" ++ h.hex ++ ")"

end TypeHash

end Recast
