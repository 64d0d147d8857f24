/-
# The shortest decimal text of a number

The text of a finite number has the fewest digits that read back as the number; of the decimals
with that many digits it is the nearest one, and of two that are equally near the greater.

* `Binary64.shortest` finds those digits by exact arithmetic: on the decimal grid of 1, 2, ... 17
  digits it tests the two neighbours of the number against the interval of reals that round to
  it, and the first grid with a hit wins;
* `Binary64.text` lays them out: positional from `1e-4` up to `1e16`, with at least one digit
  after the point, and in exponent form outside.
-/
import Recast.Decimal.Binary64

namespace Recast.Binary64

/-! ## 1. The digits -/

/-- The interval of reals that round to a positive finite number, as numerators over a common
denominator `den`: the number itself is `mid / den`. -/
structure Neighbourhood where
  low : Nat
  mid : Nat
  high : Nat
  den : Nat
  /-- Whether the two ends round to the number as well. -/
  closed : Bool

/-- The neighbourhood of `significand · 2 ^ (exponent - 1074)`.  Below a power of two the next
number is only half as far away, except at the least exponent. -/
def neighbourhood (significand exponent : Nat) : Neighbourhood :=
  let below := if significand = Nat.pow 2 52 ∧ 0 < exponent then 1 else 2
  { low := (4 * significand - below) * Nat.pow 2 exponent
    mid := 4 * significand * Nat.pow 2 exponent
    high := (4 * significand + 2) * Nat.pow 2 exponent
    den := Nat.pow 2 1076
    closed := significand % 2 = 0 }

/-- The decimal `coefficient · 10 ^ power`. -/
structure Decimal where
  coefficient : Nat
  power : Int

/-- The decimal order of magnitude: the `p` with `10 ^ (p - 1) ≤ num / den < 10 ^ p`. -/
def decimalPoint (num den : Nat) : Int :=
  if den ≤ num then (digitCount (num / den) : Int)
  else 1 - (digitCount ((den - 1) / num) : Int)

/-- The nearest decimal with `count` digits that lies in the neighbourhood, if there is one. -/
def onGrid? (n : Neighbourhood) (count : Nat) : Option Decimal :=
  let power := decimalPoint n.mid n.den - count
  let up := Nat.pow 10 (-power).toNat
  let unit := n.den * Nat.pow 10 power.toNat
  let low := n.low * up
  let mid := n.mid * up
  let high := n.high * up
  let inside (d : Nat) : Bool :=
    if n.closed then low ≤ d * unit && d * unit ≤ high else low < d * unit && d * unit < high
  let d := mid / unit
  let nearer := if mid - d * unit < (d + 1) * unit - mid then d else d + 1
  let farther := if nearer = d then d + 1 else d
  if inside nearer then some ⟨nearer, power⟩
  else if inside farther then some ⟨farther, power⟩
  else none

/-- The shortest digits of a positive finite number.  Seventeen digits always suffice. -/
def shortest (significand exponent : Nat) : Decimal :=
  let n := neighbourhood significand exponent
  ((List.range 17).findSome? fun i => onGrid? n (i + 1)).getD ⟨0, 0⟩

/-! ## 2. The text -/

/-- The digits of a natural number without the zeros at their end. -/
def significantDigits (n : Nat) : List Char :=
  ((Nat.toDigits 10 n).reverse.dropWhile (· = '0')).reverse

/-- Lay out digits with the point after the first `point` of them. -/
def positional (digits : List Char) (point : Int) : List Char :=
  match point with
  | .negSucc z => ['0', '.'] ++ List.replicate (z + 1) '0' ++ digits
  | .ofNat 0 => ['0', '.'] ++ digits
  | .ofNat p =>
    if p < digits.length then digits.take p ++ ['.'] ++ digits.drop p
    else digits ++ List.replicate (p - digits.length) '0' ++ ['.', '0']

/-- Lay out digits as one digit, the others after a point, and a power of ten. -/
def scientific (digits : List Char) (point : Int) : List Char :=
  let mantissa := match digits with
    | [] => []
    | [d] => [d]
    | d :: ds => d :: '.' :: ds
  mantissa ++ ['e'] ++ (toString (point - 1)).toList

/-- The text of a number without its sign. -/
def magnitudeText (significand exponent : Nat) : List Char :=
  if significand = 0 then ['0', '.', '0']
  else
    let d := shortest significand exponent
    let digits := significantDigits d.coefficient
    let point := (digitCount d.coefficient : Int) + d.power
    if point < -3 ∨ 16 < point then scientific digits point else positional digits point

/-- The text of a number. -/
def text : Binary64 → String
  | .nan => "NaN"
  | .infinite false => "inf"
  | .infinite true => "-inf"
  | .finite negative m e =>
    String.ofList ((if negative then ['-'] else []) ++ magnitudeText m e)

end Recast.Binary64
