/-
# Types that a program can name

A type is nameable in a program if it can be written with the names that the program knows.  Every
type that an analysis finds is nameable, the type of `null` apart: so a cast to it can be written, and
is read as a cast to this type.

* `Nameable`, and `Nameable.writable`, `Nameable.resolveType`: what is written is read as itself;
* `parseLenient_typesIn`: **all types of a program that was read are nameable.**
-/
import Recast.Proofs.Document.RoundTrip
import Recast.Proofs.Semantics.Types
import Recast.Proofs.Semantics.Written

namespace Recast

/-! ## 1. Names that are known -/

namespace Analysis

theorem resolveType_eq_ok {a : Analysis} {w : WrittenType} {T : DataType} :
    a.resolveType w = .ok T ↔ a.unknown? w = none ∧ w.toDataType = T := by
  unfold resolveType
  split
  · rename_i h
    simp [h]
  · rename_i h
    simp [h]

theorem unknown?_eq_none {a : Analysis} {w : WrittenType} :
    a.unknown? w = none ↔ a.isKnown w.name (!w.args.isEmpty) = true ∧ a.unknownAmong? w.args = none := by
  obtain ⟨name, args, rank, span⟩ := w
  rw [unknown?]
  split
  · rename_i h
    simp [h]
  · rename_i h
    simp [h]

theorem isEmpty_unplacedAll (ws : List WrittenType) :
    (WrittenType.unplacedAll ws).isEmpty = ws.isEmpty := by
  cases ws <;> rfl

mutual

/-- Whether the names of a type are known does not depend on its place. -/
theorem unknown?_unplaced {a : Analysis} : ∀ {w : WrittenType}, a.unknown? w = none →
    a.unknown? w.unplaced = none
  | ⟨name, args, rank, span⟩, h => by
    obtain ⟨hk, hargs⟩ := unknown?_eq_none.mp h
    refine unknown?_eq_none.mpr ⟨?_, unknownAmong?_unplaced hargs⟩
    rw [WrittenType.unplaced, isEmpty_unplacedAll]
    exact hk

theorem unknownAmong?_unplaced {a : Analysis} : ∀ {ws : List WrittenType},
    a.unknownAmong? ws = none → a.unknownAmong? (WrittenType.unplacedAll ws) = none
  | [], _ => rfl
  | w :: ws, h => by
    rw [unknownAmong?, Option.or_eq_none_iff] at h
    rw [WrittenType.unplacedAll, unknownAmong?, Option.or_eq_none_iff]
    exact ⟨unknown?_unplaced h.1, unknownAmong?_unplaced h.2⟩

end

/-- **What a written type resolves to, written again, resolves to itself.** -/
theorem resolveType_ofDataType {a : Analysis} {w : WrittenType} {T : DataType}
    (h : a.resolveType w = .ok T) : a.resolveType (.ofDataType T) = .ok T := by
  obtain ⟨hk, rfl⟩ := resolveType_eq_ok.mp h
  rw [WrittenType.ofDataType_toDataType]
  exact resolveType_eq_ok.mpr ⟨unknown?_unplaced hk, w.toDataType_unplaced⟩

end Analysis

mutual

theorem WrittenType.Writable.unplaced : ∀ {w : WrittenType}, w.Writable → w.unplaced.Writable
  | ⟨_, _, _, _⟩, h => ⟨h.1, h.2.1, WrittenType.WritableAll.unplaced h.2.2⟩

theorem WrittenType.WritableAll.unplaced : ∀ {ws : List WrittenType}, WrittenType.WritableAll ws →
    WrittenType.WritableAll (WrittenType.unplacedAll ws)
  | [], _ => trivial
  | _ :: _, h => ⟨WrittenType.Writable.unplaced h.1, WrittenType.WritableAll.unplaced h.2⟩

end

/-- The elements of a type that resolves have a type that resolves, as it is written inside. -/
theorem Analysis.resolveType_element {a : Analysis} {w : WrittenType} {T E : DataType}
    (h : a.resolveType w = .ok T) (he : T.element? = some E) :
    ∃ v, a.resolveType v = .ok E ∧ (w.Writable → v.Writable) := by
  obtain ⟨name, args, rank, span⟩ := w
  obtain ⟨hk, rfl⟩ := resolveType_eq_ok.mp h
  obtain ⟨hname, hargs⟩ := unknown?_eq_none.mp hk
  rcases WrittenType.element?_toDataType he with ⟨-, rfl⟩ | ⟨v, hv, rfl⟩
  · exact ⟨⟨name, args, rank - 1, span⟩,
      resolveType_eq_ok.mpr ⟨unknown?_eq_none.mpr ⟨hname, hargs⟩, rfl⟩,
      fun hw => ⟨hw.1, Nat.le_trans (Nat.sub_le ..) hw.2.1, hw.2.2⟩⟩
  · have hv : args = [v] := hv
    subst hv
    rw [unknownAmong?, Option.or_eq_none_iff] at hargs
    exact ⟨v, resolveType_eq_ok.mpr ⟨hargs.1, rfl⟩, fun hw => hw.2.2.1⟩

/-! ## 2. Nameable types -/

/-- The type can be written with names that the program knows. -/
def Nameable (t : SyntaxTree) (T : DataType) : Prop :=
  ∃ w : WrittenType, w.Writable ∧ (Analysis.ofTree t).resolveType w = .ok T

namespace Nameable

variable {t : SyntaxTree} {T E : DataType}

theorem writable (h : Nameable t T) : (WrittenType.ofDataType T).Writable := by
  obtain ⟨w, hw, hr⟩ := h
  rw [← (Analysis.resolveType_eq_ok.mp hr).2, WrittenType.ofDataType_toDataType]
  exact hw.unplaced

/-- **A type that is written by its names is read as itself.** -/
theorem resolveType (h : Nameable t T) :
    (Analysis.ofTree t).resolveType (.ofDataType T) = .ok T := by
  obtain ⟨w, -, hr⟩ := h
  exact Analysis.resolveType_ofDataType hr

/-- A known name is nameable. -/
theorem named {name : String} (hn : IsName name) (hk : (Analysis.ofTree t).isKnown name false = true) :
    Nameable t (.named name) :=
  ⟨.named name default, ⟨hn, Nat.zero_le _, trivial⟩,
    Analysis.resolveType_eq_ok.mpr ⟨Analysis.unknown?_eq_none.mpr ⟨hk, rfl⟩, rfl⟩⟩

theorem element (h : Nameable t T) (he : T.element? = some E) : Nameable t E := by
  obtain ⟨w, hw, hr⟩ := h
  obtain ⟨v, hv, hwritable⟩ := Analysis.resolveType_element hr he
  exact ⟨v, hwritable hw, hv⟩

end Nameable

/-- All types of a program are nameable if all names and types in it can be written. -/
theorem TypesIn.nameable {t : SyntaxTree} (hw : ∀ {i c p}, t.InTree i → t.construct? i = some c →
    p ∈ c.pieces → (∀ v, p ≠ .literal v) → p.Writable) : TypesIn t (Nameable t) := by
  refine ⟨fun T hT => ?_, fun {i c w T} hi hc hmem hr => ?_, fun name hclass => ?_,
    fun h he => h.element he⟩
  · have hbasic : ∀ name ∈ Analysis.builtinTypes, IsName name → Nameable t (.named name) := by
      intro name hmem hn
      refine .named hn ?_
      simp [Analysis.isKnown, hmem]
    simp only [List.mem_cons, List.not_mem_nil, or_false] at hT
    rcases hT with rfl | rfl | rfl | rfl | rfl | rfl
    all_goals exact hbasic _ (by decide) (by decide)
  · exact ⟨w, hw hi hc hmem (by simp), hr⟩
  · obtain ⟨i, ident, members, hi, hc, rfl⟩ := Declarations.exists_of_hasClass hclass
    have hn : IsName ident.name :=
      hw (p := .name ident.name) hi hc (by simp [Construct.pieces]) (by simp)
    refine .named hn ?_
    simp only [Analysis.isKnown, Bool.false_eq_true, if_false, Bool.or_eq_true]
    exact .inr hclass

/-- **All types of a program that was read are nameable.** -/
theorem parseLenient_typesIn (text : String) :
    TypesIn (parseLenient text).1 (Nameable (parseLenient text).1) := by
  refine .nameable fun {i c p} hi hc hp hlit => ?_
  by_cases hv : ∃ v, c = .literal v
  · obtain ⟨v, rfl⟩ := hv
    exact absurd (List.mem_singleton.mp hp) (hlit v)
  · exact parseLenient_writable text hi hc (fun v hc => absurd ⟨v, hc⟩ hv) p hp

end Recast
