/-
# What type hashes tell apart

The hash of a type mixes in the hashes of its arguments one after another, and then its rank.  Each of
these steps multiplies by an odd number and adds or exchanges bits, modulo `2 ^ 64`, so each can be
undone.  A difference in one place is therefore never lost on the way up, whatever names hash to.

* `TypeHash.mul_separator_inj`: the multiplier can be undone;
* `TypeHash.generic_inj_argument`, `TypeHash.array_inj_element`, `TypeHash.array_inj_rank`: so can the
  mixing of one argument, of an element and of a rank;
* `OpenType`: a type with one argument left open, at any depth;
* `OpenType.hash_fill_inj`: **what fills the open place decides the hash of the whole**;
* `DataType.hash_separates`: types that differ in one argument, and arrays of different ranks.
-/
import Recast.Proofs.Semantics.Written

namespace Recast

/-! ## 1. Steps that can be undone -/

namespace TypeHash

/-- The inverse of the multiplier, modulo `2 ^ 64`. -/
def separatorInverse : UInt64 := 0xd3f20f0a40208825

theorem separator_mul_inverse : separator * separatorInverse = 1 := by decide

/-- **The multiplier is odd, so that multiplying by it loses nothing.** -/
theorem mul_separator_inj {v w : UInt64} : v * separator = w * separator ↔ v = w := by
  constructor
  · intro h
    calc v = v * separator * separatorInverse := by
          rw [UInt64.mul_assoc, separator_mul_inverse, UInt64.mul_one]
      _ = w * separator * separatorInverse := by rw [h]
      _ = w := by rw [UInt64.mul_assoc, separator_mul_inverse, UInt64.mul_one]
  · rintro rfl
    rfl

theorem bits_inj {h k : TypeHash} : h.bits = k.bits ↔ h = k := by
  cases h
  cases k
  simp

/-- Mixing in arguments keeps apart what was there before them. -/
theorem mixFrom_inj {as : List TypeHash} : ∀ {i : Nat} {v w : UInt64},
    mixFrom i v as = mixFrom i w as ↔ v = w := by
  induction as with
  | nil => exact Iff.rfl
  | cons a as ih =>
    intro i v w
    rw [mixFrom, mixFrom, ih, UInt64.add_left_inj, mul_separator_inj]

theorem mixFrom_append {as bs : List TypeHash} : ∀ {i : Nat} {v : UInt64},
    mixFrom i v (as ++ bs) = mixFrom (i + as.length) (mixFrom i v as) bs := by
  induction as with
  | nil => exact rfl
  | cons a as ih =>
    intro i v
    rw [List.cons_append, mixFrom, mixFrom, ih, List.length_cons, Nat.add_assoc, Nat.add_comm 1]

/-- **Each argument decides the hash**, in whatever place it stands: the mark of the place is the same
for both. -/
theorem generic_inj_argument {definition a b : TypeHash} {before after : List TypeHash} :
    generic definition (before ++ a :: after) = generic definition (before ++ b :: after) ↔ a = b := by
  rw [← bits_inj]
  simp only [generic]
  rw [mixFrom_append, mixFrom_append, mixFrom, mixFrom, mixFrom_inj, UInt64.add_right_inj,
    UInt64.xor_right_inj, bits_inj]

/-- Every rank that a type can have is a word. -/
theorem rank_lt_size {rank : Nat} (h : rank ≤ 255) : rank < UInt64.size :=
  Nat.lt_of_le_of_lt h (by decide)

/-- The element of an array decides its hash. -/
theorem array_inj_element {h k : TypeHash} {rank : Nat} : array h rank = array k rank ↔ h = k := by
  rw [← bits_inj]
  simp only [array]
  rw [UInt64.add_left_inj, mul_separator_inj, UInt64.xor_left_inj, bits_inj]

/-- So does its rank, as far as ranks are words. -/
theorem array_inj_rank {h : TypeHash} {m n : Nat} (hm : m < UInt64.size) (hn : n < UInt64.size) :
    array h m = array h n ↔ m = n := by
  rw [← bits_inj]
  simp only [array]
  rw [UInt64.add_right_inj]
  constructor
  · intro he
    have hnat := congrArg UInt64.toNat he
    simp only [Nat.toUInt64, UInt64.toNat_ofNat'] at hnat
    rwa [Nat.mod_eq_of_lt hm, Nat.mod_eq_of_lt hn] at hnat
  · rintro rfl
    rfl

end TypeHash

/-! ## 2. Types with an open place -/

/-- A type with one argument left open: the open place itself, or a name applied to arguments of which
one has the open place, with an array rank. -/
inductive OpenType where
  | here
  | inArgument (name : String) (before : List DataType) (inner : OpenType) (after : List DataType)
      (rank : Nat)

/-- The type with the open place filled. -/
def OpenType.fill : OpenType → DataType → DataType
  | here, t => t
  | inArgument name before inner after rank, t =>
    rank.repeat DataType.arrayOf (.generic name (before ++ inner.fill t :: after))

namespace DataType

variable {t : DataType} {a b : DataType}

theorem hash_withRank_of_ne_zero {rank : Nat} (h : rank ≠ 0) :
    (t.withRank rank).hash = .array (baseHash t.name t.args) rank := if_neg h

theorem hash_withRank_zero : (t.withRank 0).hash = baseHash t.name t.args := rfl

/-- A rank keeps apart what names and arguments tell apart. -/
theorem hash_withRank_inj {rank : Nat} : (a.withRank rank).hash = (b.withRank rank).hash ↔
    baseHash a.name a.args = baseHash b.name b.args := by
  by_cases hrank : rank = 0
  · rw [hrank, hash_withRank_zero, hash_withRank_zero]
  · rw [hash_withRank_of_ne_zero hrank, hash_withRank_of_ne_zero hrank, TypeHash.array_inj_element]

/-- An array of an array of a type is that type with a greater rank. -/
theorem repeat_succ_arrayOf (t : DataType) : ∀ n : Nat,
    (n + 1).repeat arrayOf t = t.withRank (t.rank + (n + 1))
  | 0 => rfl
  | n + 1 => by
    change arrayOf ((n + 1).repeat arrayOf t) = _
    rw [repeat_succ_arrayOf t n]
    rfl

theorem baseHash_inj_argument {name : String} {before after : List DataType} :
    baseHash name (before ++ a :: after) = baseHash name (before ++ b :: after) ↔
      a.hash = b.hash := by
  simp only [baseHash, List.map_append, List.map_cons]
  exact TypeHash.generic_inj_argument

end DataType

/-- **What fills the open place decides the hash of the whole.** -/
theorem OpenType.hash_fill_inj (c : OpenType) {a b : DataType} :
    (c.fill a).hash = (c.fill b).hash ↔ a.hash = b.hash := by
  induction c with
  | here => exact Iff.rfl
  | inArgument name before inner after rank ih =>
    rw [fill, fill, DataType.repeat_arrayOf, DataType.repeat_arrayOf, DataType.hash_withRank_inj, ← ih]
    exact DataType.baseHash_inj_argument

/-! ## 3. Different hashes -/

/-- **Hashes tell apart types that differ in one place.**  Two types that are built alike, but for one
argument at any depth and in any place, have different hashes if the arguments have.  Arrays of one
element have different hashes if their ranks, of which there are 255, differ: so it is for the hash of
the element, and so for the types that are built from it. -/
theorem DataType.hash_separates :
    (∀ (c : OpenType) (a b : DataType), a.hash ≠ b.hash → (c.fill a).hash ≠ (c.fill b).hash) ∧
    (∀ (element : TypeHash) (m n : Nat), 1 ≤ m → m ≤ 255 → 1 ≤ n → n ≤ 255 → m ≠ n →
      element.array m ≠ element.array n) ∧
    ∀ (t : DataType) (m n : Nat), 1 ≤ m → t.rank + m ≤ 255 → 1 ≤ n → t.rank + n ≤ 255 → m ≠ n →
      (m.repeat arrayOf t).hash ≠ (n.repeat arrayOf t).hash := by
  refine ⟨?_, ?_, ?_⟩
  · intro c a b hne heq
    exact hne (c.hash_fill_inj.mp heq)
  · intro element m n _ hm _ hn hne heq
    have hm := TypeHash.rank_lt_size hm
    have hn := TypeHash.rank_lt_size hn
    exact hne ((TypeHash.array_inj_rank hm hn).mp heq)
  · intro t m n hm hm' hn hn' hne heq
    obtain ⟨m, rfl⟩ := Nat.exists_eq_add_of_le' hm
    obtain ⟨n, rfl⟩ := Nat.exists_eq_add_of_le' hn
    rw [repeat_succ_arrayOf, repeat_succ_arrayOf, hash_withRank_of_ne_zero (by omega),
      hash_withRank_of_ne_zero (by omega)] at heq
    have hm := TypeHash.rank_lt_size hm'
    have hn := TypeHash.rank_lt_size hn'
    exact hne (Nat.add_left_cancel ((TypeHash.array_inj_rank hm hn).mp heq))

/-- `int` and `long` as the tenth argument inside the only argument of a type, under arrays, and the two
greatest ranks side by side. -/
theorem DataType.hash_separates_tenth_argument :
    let tuple : OpenType := .inArgument "Tuple" (List.replicate 9 .bool) .here [.string] 1
    let list : OpenType := .inArgument "List" [] tuple [] 2
    (DataType.int.hash ≠ DataType.long.hash ∧ (list.fill .int).hash ≠ (list.fill .long).hash) ∧
    DataType.int.hash.array 254 ≠ DataType.int.hash.array 255 ∧
    (DataType.int.rank + 255 ≤ 255 ∧
      (Nat.repeat arrayOf 254 DataType.int).hash ≠ (Nat.repeat arrayOf 255 DataType.int).hash) := by
  have hne : DataType.int.hash ≠ DataType.long.hash := by decide +kernel
  have hrank : DataType.int.rank = 0 := rfl
  refine ⟨⟨hne, hash_separates.1 _ _ _ hne⟩, ?_, by omega, ?_⟩
  · exact hash_separates.2.1 _ _ _ (by omega) (by omega) (by omega) (by omega) (by omega)
  · exact hash_separates.2.2 _ _ _ (by omega) (by omega) (by omega) (by omega) (by omega)

end Recast
