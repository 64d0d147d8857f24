/-
# Double precision numbers

A `Binary64` is a number of the IEEE 754 format of 64 bits.  A finite one is
`± significand · 2 ^ (exponent - 1074)`, where the exponent is counted from the least one, so
that it is zero exactly for the numbers below `2 ^ -1021`.

* `Binary64.nearest` rounds a quotient of natural numbers to the nearest such number, a tie to
  the even significand, and everything from half a step past the greatest finite number on to
  infinity;
* `Binary64.ofDecimal` is the number nearest to `digits · 10 ^ power`;
* `Binary64.same` is equality of numbers: the two zeros are the same number, and not-a-number is
  not even the same as itself.
-/
namespace Recast

/-- A number of the 64-bit binary format. -/
inductive Binary64 where
  /-- Not a number. -/
  | nan
  /-- Infinity, with its sign. -/
  | infinite (negative : Bool)
  /-- `± significand · 2 ^ (exponent - 1074)`. -/
  | finite (negative : Bool) (significand exponent : Nat)
  deriving DecidableEq

namespace Binary64

/-! ## 1. Rounding -/

/-- The quotient rounded to the nearest natural number, a tie to the even one. -/
def roundDiv (num den : Nat) : Nat :=
  let q := num / den
  let r := num % den
  if 2 * r < den then q
  else if den < 2 * r then q + 1
  else if q % 2 = 0 then q
  else q + 1

/-- The greatest `k` with `2 ^ k * den ≤ 2 ^ 1074 * num`, for positive numbers whose quotient is
at least `2 ^ -1074`: the binary order of magnitude of `num / den`, counted from the least one. -/
def magnitude (num den : Nat) : Nat :=
  let k := (num * Nat.pow 2 1074).log2 - den.log2
  if den * Nat.pow 2 k ≤ num * Nat.pow 2 1074 then k else k - 1

/-- The number with a rounded significand.  One that has grown to the next power of two is halved,
and beyond the greatest exponent there is only infinity. -/
def ofRounded (negative : Bool) (significand exponent : Nat) : Binary64 :=
  let (significand, exponent) :=
    if significand = Nat.pow 2 53 then (Nat.pow 2 52, exponent + 1) else (significand, exponent)
  if 2045 < exponent then .infinite negative else .finite negative significand exponent

/-- The number with a sign that is nearest to `num / den`. -/
def nearest (negative : Bool) (num den : Nat) : Binary64 :=
  let exponent := magnitude num den - 52
  ofRounded negative (roundDiv (num * Nat.pow 2 1074) (den * Nat.pow 2 exponent)) exponent

/-- The number of decimal digits of a natural number. -/
def digitCount (n : Nat) : Nat := (Nat.toDigits 10 n).length

/-- The number with a sign that is nearest to `digits · 10 ^ power`.  Beyond the greatest and
below the least magnitude the answer is known without computing the power. -/
def ofDecimal (negative : Bool) (digits : Nat) (power : Int) : Binary64 :=
  let top := (digitCount digits : Int) + power
  if digits = 0 then .finite negative 0 0
  else if 310 < top then .infinite negative
  else if top < -330 then .finite negative 0 0
  else match power with
    | .ofNat p => nearest negative (digits * Nat.pow 10 p) 1
    | .negSucc p => nearest negative digits (Nat.pow 10 (p + 1))

/-! ## 2. Reading -/

/-- The natural number that a list of decimal digits spells. -/
def digitsValue (ds : List Char) : Nat :=
  ds.foldl (fun n d => 10 * n + (d.toNat - '0'.toNat)) 0

/-- The digits at the front of a text, and what follows them. -/
def splitDigits (cs : List Char) : List Char × List Char := cs.span Char.isDigit

/-- Read a decimal exponent: nothing, or `e` with a sign and at least one digit. -/
def readExponent? : List Char → Option Int
  | [] => some 0
  | e :: cs =>
    if e ≠ 'e' ∧ e ≠ 'E' then none
    else
      let (negative, cs) := match cs with
        | '-' :: r => (true, r)
        | '+' :: r => (false, r)
        | r => (false, r)
      if cs.isEmpty ∨ ¬ cs.all Char.isDigit then none
      else some (if negative then -(digitsValue cs : Int) else (digitsValue cs : Int))

/-- Read a number without a sign: digits with an optional point among them and an optional
exponent, or one of the words for infinity and not-a-number. -/
def readUnsigned? (negative : Bool) (cs : List Char) : Option Binary64 :=
  let word := cs.map Char.toLower
  if word = "inf".toList ∨ word = "infinity".toList then some (.infinite negative)
  else if word = "nan".toList then some .nan
  else
    let (whole, r) := splitDigits cs
    let (fraction, r) := match r with
      | '.' :: r => splitDigits r
      | r => ([], r)
    if whole.isEmpty ∧ fraction.isEmpty then none
    else (readExponent? r).map fun power =>
      ofDecimal negative (digitsValue (whole ++ fraction)) (power - fraction.length)

/-- Read a number with an optional sign. -/
def read? : List Char → Option Binary64
  | '-' :: cs => readUnsigned? true cs
  | '+' :: cs => readUnsigned? false cs
  | cs => readUnsigned? false cs

/-! ## 3. Equality of numbers -/

/-- Whether two values are the same number. -/
def same : Binary64 → Binary64 → Bool
  | .nan, _ | _, .nan => false
  | .infinite a, .infinite b => a == b
  | .finite a m e, .finite b n f => m == n && e == f && (a == b || m == 0)
  | _, _ => false

end Binary64

end Recast
