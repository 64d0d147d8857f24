/-
# Types that resolve to themselves

What an analysis finds as the type of an expression can be written back into the program, where it is
resolved to the same type, its hash included.  This holds of every node of the table, also of those
that are left from broken statements and are not part of the program.  The type of `null` alone has no
written form: its name is a reserved word, so neither the language nor any class has it.

* `Analysis.resolveType_null`: no program knows the type of `null` by its name;
* `parseLenient_typesAmong`: the types that any node of the table can name resolve to themselves;
* `parseLenient_types_resolve`: **the types that are found, and those that are expected, resolve to
  themselves exactly if they are not the type of `null`.**
-/
import Recast.Proofs.Semantics.Nameable

namespace Recast

open Analysis (ofTree)

/-! ## 1. The type of `null` -/

/-- No class is named by a reserved word. -/
theorem Declarations.hasClass_of_keyword (text : String) {name : String} (hn : ¬ IsName name) :
    (Declarations.ofTree (parseLenient text).1).hasClass name = false := by
  refine Bool.eq_false_iff.mpr fun hclass => ?_
  obtain ⟨i, ident, members, hi, hc, rfl⟩ := Declarations.exists_of_hasClass hclass
  exact hn (parseLenient_writable text hi hc (by simp) (.name ident.name) (by simp [Construct.pieces]))

/-- **No program knows the type of `null` by its name.** -/
theorem Analysis.resolveType_null (text : String) :
    (Analysis.ofTree (parseLenient text).1).resolveType (.ofDataType .null) =
      .error (.unknownType "null" default) := by
  have hclass : (Declarations.ofTree (parseLenient text).1).hasClass "null" = false :=
    Declarations.hasClass_of_keyword text (by decide)
  generalize (parseLenient text).1 = t at hclass ⊢
  have hknown : (Analysis.ofTree t).isKnown "null" false = false := by
    simp only [isKnown, Bool.false_eq_true, if_false, Bool.or_eq_false_iff]
    exact ⟨by decide, hclass⟩
  have hunknown : (Analysis.ofTree t).unknown? (.ofDataType .null) = some (.ofDataType .null) := by
    simp [DataType.null, DataType.named, DataType.generic, WrittenType.ofDataType,
      WrittenType.ofDataTypes, unknown?, hknown]
  rw [resolveType, hunknown]
  rfl

/-! ## 2. All nodes of the table -/

/-- The type is resolved to itself where it is written. -/
def Analysis.Resolves (a : Analysis) (T : DataType) : Prop :=
  a.resolveType (.ofDataType T) = .ok T

/-- **The types that the nodes of a table can name resolve to themselves.**  Whether a node is part of
the program makes no difference, since names are looked up in the same declarations. -/
theorem parseLenient_typesAmong (text : String) :
    TypesAmong (parseLenient text).1 (fun _ => True) (ofTree (parseLenient text).1).Resolves where
  basic T hT := ((parseLenient_typesIn text).basic T hT).resolveType
  written _ _ _ h := Analysis.resolveType_ofDataType h
  named name h := ((parseLenient_typesIn text).named name h).resolveType
  element hT he := by
    obtain ⟨v, hv, -⟩ := Analysis.resolveType_element hT he
    exact Analysis.resolveType_ofDataType hv
  program _ := trivial
  part _ _ _ := trivial
  around _ _ := trivial
  writtenAt _ _ _ h := Analysis.resolveType_ofDataType h

/-- A type that is that of `null` or resolves to itself does one of the two only. -/
theorem Analysis.resolves_iff_ne_null (text : String) {T : DataType}
    (h : T = .null ∨ (ofTree (parseLenient text).1).Resolves T) :
    (ofTree (parseLenient text).1).resolveType (.ofDataType T) = .ok T ↔ T ≠ .null := by
  refine ⟨fun hresolves hnull => ?_, h.resolve_left⟩
  rw [hnull, Analysis.resolveType_null] at hresolves
  cases hresolves

/-- **The types of expressions are closed under resolution.**  For every node of the table, its type and
the type that its context expects are resolved to themselves where they are written, exactly if they are
not the type of `null`. -/
theorem parseLenient_types_resolve (text : String) (e : NodeId) :
    (∀ T, (ofTree (parseLenient text).1).typeOf e = .ok T →
      ((ofTree (parseLenient text).1).resolveType (.ofDataType T) = .ok T ↔ T ≠ .null)) ∧
    ∀ info, (ofTree (parseLenient text).1).typeInfo e = .ok info →
      ((ofTree (parseLenient text).1).resolveType (.ofDataType info.converted) = .ok info.converted ↔
        info.converted ≠ .null) := by
  have hP := parseLenient_typesAmong text
  have ht := parseLenient_rooted text
  refine ⟨fun T hT => ?_, fun info hinfo => ?_⟩
  · exact Analysis.resolves_iff_ne_null text (hP.typeOfTo ht trivial hT)
  · exact Analysis.resolves_iff_ne_null text (hP.typeInfo ht trivial hinfo).2

/-- The type of a field is found through two variables that are declared with `var`. -/
theorem parseLenient_types_resolve_of_field :
    ∃ text T, text = "class A \x7b List<int[]> xs; \x7d var a = new A(); var b = a; b.xs;" ∧
      (ofTree (parseLenient text).1).typeOf 7 = .ok T ∧ T.text = "List<int[]>" ∧
      (ofTree (parseLenient text).1).resolveType (.ofDataType T) = .ok T := by
  obtain ⟨text, htext⟩ : ∃ text,
      text = "class A \x7b List<int[]> xs; \x7d var a = new A(); var b = a; b.xs;" := ⟨_, rfl⟩
  have hfound : ((ofTree (parseLenient text).1).typeOf 7).toOption.any
      (fun T => T.text = "List<int[]>") = true := by
    rw [htext]
    decide +kernel
  cases hT : (ofTree (parseLenient text).1).typeOf 7 with
  | error e =>
    rw [hT] at hfound
    cases hfound
  | ok T =>
    rw [hT] at hfound
    have hname : T.text = "List<int[]>" := of_decide_eq_true hfound
    refine ⟨text, T, htext, hT, hname, ((parseLenient_types_resolve text 7).1 T hT).mpr ?_⟩
    rintro rfl
    exact absurd hname (by decide)

end Recast
