/-
# Types that can be written

Writing a type and reading what was written gives the type again, and reading a type and writing what
was meant gives the same text in another place.

* `WrittenType.ofDataType_toDataType`, `WrittenType.toDataType_unplaced`: the two ways round;
* `WrittenType.element?_toDataType`: the type of the elements is written inside the type.
-/
import Recast.Proofs.Tree.Shape

namespace Recast

namespace DataType

/-- Arrays of arrays of a type are that type with a rank. -/
theorem repeat_arrayOf (name : String) (args : List DataType) : ∀ n : Nat,
    n.repeat arrayOf (generic name args) = (generic name args).withRank n
  | 0 => rfl
  | n + 1 => by
    change arrayOf (n.repeat arrayOf (generic name args)) = _
    rw [repeat_arrayOf name args n]
    rfl

end DataType

namespace WrittenType

theorem toDataType_eq (name : String) (args : List WrittenType) (rank : Nat) (span : Span) :
    toDataType ⟨name, args, rank, span⟩ = (DataType.generic name (toDataTypes args)).withRank rank := by
  rw [toDataType, DataType.repeat_arrayOf]

mutual

/-- **What was meant is written as before**, in no place. -/
theorem ofDataType_toDataType : ∀ w : WrittenType, ofDataType w.toDataType = w.unplaced
  | ⟨name, args, rank, span⟩ => by
    have hargs := ofDataTypes_toDataTypes args
    rw [toDataType_eq, unplaced, ← hargs]
    simp only [DataType.withRank, DataType.generic, ofDataType]

theorem ofDataTypes_toDataTypes : ∀ ws : List WrittenType,
    ofDataTypes (toDataTypes ws) = unplacedAll ws
  | [] => rfl
  | w :: ws => by
    rw [toDataTypes, ofDataTypes, unplacedAll, ofDataType_toDataType w, ofDataTypes_toDataTypes ws]

end

mutual

/-- The place of a type does not show in what is meant. -/
theorem toDataType_unplaced : ∀ w : WrittenType, w.unplaced.toDataType = w.toDataType
  | ⟨name, args, rank, span⟩ => by
    rw [unplaced, toDataType_eq, toDataType_eq, toDataTypes_unplacedAll args]

theorem toDataTypes_unplacedAll : ∀ ws : List WrittenType,
    toDataTypes (unplacedAll ws) = toDataTypes ws
  | [] => rfl
  | w :: ws => by
    rw [unplacedAll, toDataTypes, toDataTypes, toDataType_unplaced w, toDataTypes_unplacedAll ws]

end

/-- **The type of the elements is written inside the type**: with one rank less, or as its only
argument. -/
theorem element?_toDataType {w : WrittenType} {E : DataType} (h : w.toDataType.element? = some E) :
    (w.rank ≠ 0 ∧ E = toDataType { w with rank := w.rank - 1 }) ∨
      ∃ a, w.args = [a] ∧ E = a.toDataType := by
  obtain ⟨name, args, rank, span⟩ := w
  rw [toDataType_eq] at h
  unfold DataType.element? at h
  split at h
  · rename_i hr
    have hrank : 0 < rank := of_decide_eq_true hr
    cases h
    refine .inl ⟨Nat.ne_of_gt hrank, ?_⟩
    rw [toDataType_eq]
    rfl
  · split at h
    · rename_i element hargs
      cases h
      have hargs : toDataTypes args = [E] := hargs
      match args, hargs with
      | [a], hargs =>
        rw [toDataTypes, toDataTypes] at hargs
        exact .inr ⟨a, rfl, (List.cons.inj hargs).1.symm⟩
    · cases h

end WrittenType

end Recast
