/-
# The type that a fix casts to

A fix writes the type of the context as the type of a cast.  This type comes from a written type, a
class, an element, an operator or the initializer of a `var`, and each of them can be written with
the names of the program.  The type of `null` alone cannot.

* `fix_resolves_destination`: **the type of the cast resolves in the document to itself, exactly if it
  is not the type of `null`**;
* `fix_casts_null_to_null`: a `var` that is initialized by `null` is declared with a type that does
  not exist.
-/
import Recast.Proofs.Fix.Reparse
import Recast.Proofs.Semantics.Resolution

namespace Recast

/-- Only `null` is cast to the type of `null`. -/
theorem isNull_of_canCast_null {source : DataType} (h : canCast source .null = true) :
    source.isNull = true := by
  have hnumeric : DataType.null.isNumeric = false := by decide
  simpa [canCast, hnumeric] using h

/-- **The type of the cast resolves in the document to itself, exactly if it is not the type of
`null`.**  The type of `null` is cast to only where the value has it already. -/
theorem fix_resolves_destination {name text : String} {d : Document}
    (hd : Document.parse name text = .ok d) {diagnostic : Diagnostic} {point : CancelPoint}
    {a a' : Activity} {f : Fix}
    (h : FixProvider.casting.fix d diagnostic point a = (.ok (some f), a')) :
    ((Analysis.ofTree d.tree).resolveType (.ofDataType f.request.destinationType) =
        .ok f.request.destinationType ↔ f.request.destinationType ≠ .null) ∧
      (f.request.destinationType = .null → f.request.sourceType.isNull = true) := by
  obtain ⟨c, produced, working, hfound⟩ := fix_eq_ok h
  obtain ⟨n, s, hc⟩ := hfound.converts (.parse hd)
  refine ⟨⟨fun hresolves hnull => ?_, fun hnull => (hc.nameable hnull).resolveType⟩, fun hnull => ?_⟩
  · rw [hnull, hc.tree_eq, Analysis.resolveType_null] at hresolves
    cases hresolves
  · have hcast := hc.castable
    rw [hnull] at hcast
    exact isNull_of_canCast_null hcast

/-- A class is a type that can be named. -/
theorem fix_resolves_destination_of_class :
    ∃ d f, Document.parse "p" "class A \x7b \x7d A a = null;" = .ok d ∧
      (FixProvider.casting.fix d (.invalidConversion ⟨18, 4, 1, 19⟩ "null" "A") .never .start).1 =
        .ok (some f) ∧ f.request.destinationType.name = "A" ∧
      (Analysis.ofTree d.tree).resolveType (.ofDataType f.request.destinationType) =
        .ok f.request.destinationType := by
  obtain ⟨d, hd⟩ : ∃ d, Document.parse "p" "class A \x7b \x7d A a = null;" = .ok d :=
    ⟨_, Document.parse_eq_ok_iff.mpr ⟨by decide +kernel, rfl⟩⟩
  obtain ⟨-, he⟩ := Document.parse_eq_ok_iff.mp hd
  have hfound : (FixProvider.casting.fix d (.invalidConversion ⟨18, 4, 1, 19⟩ "null" "A") .never
      .start).1.toOption.join.any (fun f => f.request.destinationType.name = "A") = true := by
    rw [he]
    decide +kernel
  obtain ⟨f, a', h⟩ := exists_fix_of_isSome (Option.isSome_of_any hfound)
  rw [h] at hfound
  have hname : f.request.destinationType.name = "A" := of_decide_eq_true hfound
  have hnull : f.request.destinationType ≠ .null := by
    intro hn
    rw [hn] at hname
    exact absurd hname (by decide)
  exact ⟨d, f, hd, congrArg Prod.fst h, hname, (fix_resolves_destination hd h).1.mpr hnull⟩

/-- **A `var` that is initialized by `null` is declared with a type that does not exist.** -/
theorem fix_casts_null_to_null :
    ∃ d f, Document.parse "p" "var x = null;" = .ok d ∧
      (FixProvider.casting.fix d (.invalidConversion ⟨8, 4, 1, 9⟩ "null" "?") .never .start).1 =
        .ok (some f) ∧ f.document.text = "null x = cast<null>(null);" ∧
      (Analysis.ofTree d.tree).resolveType (.ofDataType f.request.destinationType) ≠
        .ok f.request.destinationType := by
  obtain ⟨d, hd⟩ : ∃ d, Document.parse "p" "var x = null;" = .ok d :=
    ⟨_, Document.parse_eq_ok_iff.mpr ⟨by decide +kernel, rfl⟩⟩
  obtain ⟨-, he⟩ := Document.parse_eq_ok_iff.mp hd
  have hfound : (FixProvider.casting.fix d (.invalidConversion ⟨8, 4, 1, 9⟩ "null" "?") .never
      .start).1.toOption.join.any (fun f => f.document.text = "null x = cast<null>(null);" &&
        !((Analysis.ofTree d.tree).resolveType
          (.ofDataType f.request.destinationType)).toOption.isSome) = true := by
    rw [he]
    decide +kernel
  obtain ⟨f, a', h⟩ := exists_fix_of_isSome (Option.isSome_of_any hfound)
  rw [h] at hfound
  have hboth : (f.document.text = "null x = cast<null>(null);" &&
      !((Analysis.ofTree d.tree).resolveType
        (.ofDataType f.request.destinationType)).toOption.isSome) = true := hfound
  simp only [Bool.and_eq_true, decide_eq_true_eq, Bool.not_eq_true'] at hboth
  refine ⟨d, f, hd, congrArg Prod.fst h, hboth.1, fun hok => ?_⟩
  rw [hok] at hboth
  exact absurd hboth.2 (by simp [Except.toOption])

end Recast
