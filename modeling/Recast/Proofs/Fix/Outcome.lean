/-
# How a search for a cast ends

A search that nobody stops ends in one of six ways: with the wrong code, with no convertible statement,
for the lack of a type, with a conversion to `void`, with types that no cast converts, and with a fix.
The last three are told apart by the types of the request.  What is built always has a place, so that
neither the engine nor the tree fails otherwise.

* `FixM.FailsSemantically`: the failures of the questions; `gather_failsSemantically`: a request fails
  for the lack of a type only;
* `Document.Parsed`: documents that were read from their text;
* `Document.Gathers`: the request that a search gathers; it is unique;
* `Document.Parsed.exists_placement`: what the engine builds can be put in place;
* `Ends`: **the six ways**; `Document.Parsed.ends`: a search ends in one of them;
* `fix_outcome`: **which failures there are, and exactly when there is a fix.**
-/
import Recast.Proofs.Fix.Cast

namespace Recast

open Analysis (ofTree)

/-! ## 1. Failures -/

namespace FixM

variable {α β : Type}

/-- The search ends with the lack of a type, if it fails. -/
def FailsSemantically (x : FixM α) : Prop :=
  ∀ a e a', x a = (.error e, a') → ∃ cause, e = .semantic cause

theorem FailsSemantically.bind {x : FixM α} {f : α → FixM β} (hx : FailsSemantically x)
    (hf : ∀ y, FailsSemantically (f y)) : FailsSemantically (x >>= f) := by
  intro a e a' h
  rcases he : x a with ⟨e₁ | y, a₁⟩
  · rw [bind_of_error he] at h
    cases h
    exact hx a e a' he
  · rw [bind_of_ok he] at h
    exact hf y a₁ e a' h

theorem failsSemantically_pure (y : α) : FailsSemantically (pure y) := by
  intro a e a' h
  cases h

theorem failsSemantically_ask (answer : α) : FailsSemantically (ask answer) := by
  intro a e a' h
  cases h

theorem failsSemantically_check : FailsSemantically (check .never) := by
  intro a e a' h
  rw [check_never] at h
  cases h

theorem failsSemantically_typeInfo (model : SemanticModel) (id : NodeId) :
    FailsSemantically (typeInfo model .never id) := by
  refine failsSemantically_check.bind fun _ => (failsSemantically_ask _).bind fun answer => ?_
  cases answer with
  | ok info => exact failsSemantically_pure info
  | error cause =>
    intro a e a' h
    cases h
    exact ⟨cause, rfl⟩

end FixM

/-- **A request fails for the lack of a type only.** -/
theorem gather_failsSemantically (t : SyntaxTree) (model : SemanticModel) (c : Convertible) :
    FixM.FailsSemantically (MappingRequest.gather t model .never c) := by
  cases c with
  | assignment stmt target value =>
    refine (FixM.failsSemantically_typeInfo model value).bind fun _ =>
      (FixM.failsSemantically_typeInfo model target).bind fun _ =>
        FixM.failsSemantically_check.bind fun _ => ?_
    split
    · exact (FixM.failsSemantically_ask _).bind fun _ => FixM.failsSemantically_pure _
    · exact (FixM.failsSemantically_pure _).bind fun _ => FixM.failsSemantically_pure _
  | returned stmt value | yielded stmt value | declaration stmt value =>
    exact (FixM.failsSemantically_typeInfo model value).bind fun _ => FixM.failsSemantically_pure _

/-! ## 2. Documents and requests -/

/-- The document was read from its text: at first, with its errors, or again. -/
inductive Document.Parsed : Document → Prop
  | parse {name text : String} {d : Document} : Document.parse name text = .ok d → Parsed d
  | parseLenient (name text : String) : Parsed (Document.parseLenient name text).1
  | reparse {d d' : Document} : d.reparse = .ok d' → Parsed d'

theorem Document.Parsed.current {d : Document} (h : d.Parsed) :
    d.spansCurrent = true ∧ d.tree = (Recast.parseLenient d.text).1 := by
  cases h with
  | parse hp =>
    obtain ⟨-, rfl⟩ := Document.parse_eq_ok_iff.mp hp
    simp only [and_self]
  | parseLenient name text => simp only [Document.parseLenient, and_self]
  | reparse hr =>
    obtain ⟨-, rfl⟩ := Document.reparse_eq_ok_iff.mp hr
    simp only [and_self]

/-- The diagnostic can be fixed, a convertible statement is located, and a request for it is
gathered. -/
def Document.Gathers (d : Document) (diagnostic : Diagnostic) (a : Activity) (r : MappingRequest) :
    Prop :=
  diagnostic.code ∈ FixProvider.fixableCodes ∧ ∃ c a',
    d.tree.convertibleAt? diagnostic.start = some c ∧
    MappingRequest.gather d.tree (ofTree d.tree).model .never c a = (.ok r, a')

theorem Document.Gathers.unique {d : Document} {diagnostic : Diagnostic} {a : Activity}
    {r r' : MappingRequest} (h : d.Gathers diagnostic a r) (h' : d.Gathers diagnostic a r') : r = r' := by
  obtain ⟨-, c, a₁, hc, hr⟩ := h
  obtain ⟨-, c', a₂, hc', hr'⟩ := h'
  cases hc.symm.trans hc'
  cases hr.symm.trans hr'
  rfl

/-! ## 3. Ends -/

section

variable {d : Document} {diagnostic : Diagnostic} {a : Activity}

/-- How a search for a cast ends that nobody stops. -/
inductive Ends (d : Document) (diagnostic : Diagnostic) (a : Activity) :
    Except FixError (Option Fix) → Prop
  | otherCode : diagnostic.code ∉ FixProvider.fixableCodes → Ends d diagnostic a (.ok none)
  | nowhere : d.tree.convertibleAt? diagnostic.start = none → Ends d diagnostic a (.ok none)
  | untyped {c : Convertible} {cause : SemanticError} {a' : Activity} :
      d.tree.convertibleAt? diagnostic.start = some c →
      MappingRequest.gather d.tree (ofTree d.tree).model .never c a = (.error (.semantic cause), a') →
      Ends d diagnostic a (.error (.semantic cause))
  | refused {r : MappingRequest} : d.Gathers diagnostic a r → r.destinationType.isVoid = true →
      Ends d diagnostic a
        (.error (.mapping (.unsupported r.sourceType.text r.destinationType.text)))
  | unconvertible {r : MappingRequest} : d.Gathers diagnostic a r →
      r.destinationType.isVoid = false → canCast r.sourceType r.destinationType = false →
      Ends d diagnostic a (.ok none)
  | converted {f : Fix} : d.Gathers diagnostic a f.request →
      f.request.destinationType.isVoid = false →
      canCast f.request.sourceType f.request.destinationType = true →
      Ends d diagnostic a (.ok (some f))

theorem runEngine_of_error {p : FixProvider} {tree working : SyntaxTree} {r : MappingRequest}
    {e : MappingError} (h : p.engine r tree = (.error e, working)) (a : Activity) :
    ∃ a', p.runEngine tree r a = (.error (.mapping e), a') := by
  unfold FixProvider.runEngine
  rw [h]
  exact ⟨_, rfl⟩

/-- **Where a cast converts, a statement is built, and it has a place**: in the tree that the engine leaves
the located statement still stands where it stood. -/
theorem Document.Parsed.exists_placement (hd : d.Parsed) {c : Convertible} {r : MappingRequest}
    {offset : Nat} (hc : d.tree.convertibleAt? offset = some c) (hr : Requests (ofTree d.tree).model c r)
    (hvoid : r.destinationType.isVoid = false)
    (hcast : canCast r.sourceType r.destinationType = true) :
    ∃ s working placement tree, castEngine r d.tree = (.ok [s], working) ∧
      [s].filter working.isStatement = [s] ∧
      working.replaceStatement r.stmt [s] = (.ok placement, tree) := by
  obtain ⟨-, htree⟩ := hd.current
  have hrooted : d.tree.Rooted := htree ▸ parseLenient_rooted d.text
  obtain ⟨hin, hconv⟩ := convertibleAt?_inTree hrooted hc
  have hconvertible := isConvertible_of_convertible? hconv
  obtain ⟨s, working, hbuilt, hs, hrecasts⟩ := castEngine_succeeds
    (htree ▸ parseLenient_wellFormed d.text) (hrooted.lt_size (SyntaxTree.inTree_root _))
    hconvertible hr hvoid hcast
  have hstmt := hrecasts.isStatement
  obtain ⟨p, hp⟩ : ∃ p, d.tree.parent? c.stmt = some p := by
    rw [htree] at hin hconv ⊢
    exact parseLenient_convertible_parent hin hconv
  have hfilter : [s].filter working.isStatement = [s] := by simp [hstmt]
  rw [hr.stmt]
  rcases replaceStatement_of_sprouts hs hstmt hin hconvertible.isStatement hp with
    ⟨-, u, -, hplaced⟩ | ⟨-, u, -, hplaced⟩
  · exact ⟨s, working, _, u, hbuilt, hfilter, hplaced⟩
  · exact ⟨s, working, _, u, hbuilt, hfilter, hplaced⟩

/-- **A search for a cast ends in one of six ways.** -/
theorem Document.Parsed.ends (hd : d.Parsed) (diagnostic : Diagnostic) (a : Activity) :
    Ends d diagnostic a (FixProvider.casting.fix d diagnostic .never a).1 := by
  obtain ⟨hcurrent, -⟩ := hd.current
  rw [FixProvider.fix, bind_of_ok (FixM.check_never a), FixProvider.fixWith]
  by_cases hcode : diagnostic.code ∈ FixProvider.fixableCodes
  case neg =>
    rw [if_pos (by simpa using hcode)]
    exact .otherCode hcode
  rw [if_neg (by simpa using hcode), if_neg (by simp [hcurrent])]
  cases hc : d.tree.convertibleAt? diagnostic.start with
  | none => exact .nowhere hc
  | some c =>
    rcases hr : MappingRequest.gather d.tree (ofTree d.tree).model .never c a with ⟨e | r, a₁⟩
    · obtain ⟨cause, rfl⟩ := gather_failsSemantically _ _ _ _ _ _ hr
      simp only [bind_of_error hr]
      exact .untyped hc hr
    simp only [bind_of_ok hr, bind_of_ok (FixM.check_never a₁)]
    have hgathers : d.Gathers diagnostic a r := ⟨hcode, c, a₁, hc, hr⟩
    -- from here on the types of the request decide
    cases hvoid : r.destinationType.isVoid with
    | true =>
      obtain ⟨a₂, hrun⟩ :=
        runEngine_of_error (p := .casting) (castEngine_of_isVoid hvoid d.tree) a₁
      rw [bind_of_error hrun]
      exact .refused hgathers hvoid
    | false =>
      cases hcast : canCast r.sourceType r.destinationType with
      | false =>
        obtain ⟨a₂, hrun⟩ :=
          runEngine_of_ok (p := .casting) (castEngine_of_not_canCast hvoid hcast d.tree) a₁
        rw [bind_of_ok hrun]
        exact .unconvertible hgathers hvoid hcast
      | true =>
        obtain ⟨s, working, placement, tree, hbuilt, hfilter, hplaced⟩ :=
          hd.exists_placement hc (gather_eq_ok hr) hvoid hcast
        obtain ⟨a₂, hrun⟩ := runEngine_of_ok (p := .casting) hbuilt a₁
        rw [bind_of_ok hrun]
        simp only [hfilter, hplaced]
        exact .converted hgathers hvoid hcast

/-! ## 4. Outcomes -/

theorem canCast_eq_true {source target : DataType} :
    canCast source target = true ↔ source.isNumeric = true ∧ target.isNumeric = true ∨
      source.isNull = true ∧ target.isNumeric = false := by
  simp [canCast]

namespace Ends

variable {result : Except FixError (Option Fix)} (h : Ends d diagnostic a result)
include h

/-- A search fails for the lack of a type or with a conversion to `void`. -/
theorem error_cases {e : FixError} (he : result = .error e) :
    (∃ cause, e = .semantic cause) ∨ ∃ source target, e = .mapping (.unsupported source target) := by
  cases h with
  | otherCode _ | nowhere _ | unconvertible _ _ _ | converted _ _ _ => cases he
  | untyped _ _ =>
    cases he
    exact .inl ⟨_, rfl⟩
  | refused _ _ =>
    cases he
    exact .inr ⟨_, _, rfl⟩

/-- The types of the request decide how the search goes on. -/
theorem of_gathers {r : MappingRequest} (hr : d.Gathers diagnostic a r) :
    (r.destinationType.isVoid = true ∧
      result = .error (.mapping (.unsupported r.sourceType.text r.destinationType.text))) ∨
    (r.destinationType.isVoid = false ∧ canCast r.sourceType r.destinationType = false ∧
      result = .ok none) ∨
    (r.destinationType.isVoid = false ∧ canCast r.sourceType r.destinationType = true ∧
      ∃ f, result = .ok (some f)) := by
  cases h with
  | otherCode hcode => exact absurd hr.1 hcode
  | nowhere hnone =>
    obtain ⟨-, c, -, hc, -⟩ := hr
    rw [hnone] at hc
    cases hc
  | untyped hsome herror =>
    obtain ⟨-, c, a', hc, hgather⟩ := hr
    cases hsome.symm.trans hc
    cases herror.symm.trans hgather
  | refused hr' hvoid =>
    cases hr.unique hr'
    exact .inl ⟨hvoid, rfl⟩
  | unconvertible hr' hvoid hcast =>
    cases hr.unique hr'
    exact .inr (.inl ⟨hvoid, hcast, rfl⟩)
  | converted hr' hvoid hcast =>
    cases hr.unique hr'
    exact .inr (.inr ⟨hvoid, hcast, _, rfl⟩)

/-- A conversion is refused exactly where its destination is `void`. -/
theorem unsupported_iff :
    (∃ source target, result = .error (.mapping (.unsupported source target))) ↔
      ∃ r, d.Gathers diagnostic a r ∧ r.destinationType.isVoid = true := by
  constructor
  · rintro ⟨source, target, he⟩
    cases h with
    | otherCode _ | nowhere _ | untyped _ _ | unconvertible _ _ _ | converted _ _ _ => cases he
    | refused hr hvoid => exact ⟨_, hr, hvoid⟩
  · rintro ⟨r, hr, hvoid⟩
    rcases h.of_gathers hr with ⟨-, he⟩ | ⟨hnot, -⟩ | ⟨hnot, -⟩
    · exact ⟨_, _, he⟩
    all_goals
      rw [hvoid] at hnot
      cases hnot

/-- There is a fix exactly where a cast converts to something else. -/
theorem fix_iff :
    (∃ f, result = .ok (some f)) ↔
      ∃ r, d.Gathers diagnostic a r ∧ r.destinationType.isVoid = false ∧
        canCast r.sourceType r.destinationType = true := by
  constructor
  · rintro ⟨f, he⟩
    cases h with
    | otherCode _ | nowhere _ | untyped _ _ | refused _ _ | unconvertible _ _ _ => cases he
    | converted hr hvoid hcast => exact ⟨_, hr, hvoid, hcast⟩
  · rintro ⟨r, hr, hvoid, hcast⟩
    rcases h.of_gathers hr with ⟨hnot, -⟩ | ⟨-, hnot, -⟩ | ⟨-, -, hf⟩
    · rw [hvoid] at hnot
      cases hnot
    · rw [hcast] at hnot
      cases hnot
    · exact hf

end Ends

end

/-- A search that is stopped before it starts does nothing. -/
theorem fix_of_reached {point : CancelPoint} {a : Activity} (h : point.reached a.queries = true)
    (p : FixProvider) (d : Document) (diagnostic : Diagnostic) :
    p.fix d diagnostic point a = (.error .cancelled, a) := by
  rw [FixProvider.fix, bind_of_error (FixM.check_of_reached h)]

/-- **A search for a cast that nobody stops fails for the lack of a type or with a conversion to `void`
only**: the tree always takes what is built, and the engine has all that it needs.  A conversion is
refused exactly where its destination is `void`, and there is a fix exactly where it is not and both
types are numeric, or `null` becomes something that is not.  A search that is stopped before it starts is
cancelled. -/
theorem fix_outcome {d : Document} (hd : d.Parsed) (diagnostic : Diagnostic) (a : Activity) :
    (∀ e, (FixProvider.casting.fix d diagnostic .never a).1 = .error e →
      (∃ cause, e = .semantic cause) ∨ ∃ source target, e = .mapping (.unsupported source target)) ∧
    ((∃ source target, (FixProvider.casting.fix d diagnostic .never a).1 =
        .error (.mapping (.unsupported source target))) ↔
      ∃ r, d.Gathers diagnostic a r ∧ r.destinationType.isVoid = true) ∧
    ((∃ f, (FixProvider.casting.fix d diagnostic .never a).1 = .ok (some f)) ↔
      ∃ r, d.Gathers diagnostic a r ∧ r.destinationType.isVoid = false ∧
        (r.sourceType.isNumeric = true ∧ r.destinationType.isNumeric = true ∨
          r.sourceType.isNull = true ∧ r.destinationType.isNumeric = false)) ∧
    ∀ point b, CancelPoint.reached point b.queries = true →
      FixProvider.casting.fix d diagnostic point b = (.error .cancelled, b) := by
  have hends := hd.ends diagnostic a
  refine ⟨fun e => hends.error_cases, hends.unsupported_iff, ?_, fun point b hb => ?_⟩
  · simp only [← canCast_eq_true]
    exact hends.fix_iff
  · exact fix_of_reached hb .casting d diagnostic

/-- A value that is returned from a function without a result cannot be converted. -/
theorem fix_outcome_of_void :
    ∃ d source target, Document.parse "p" "void f() \x7b return 1; \x7d" = .ok d ∧
      (FixProvider.casting.fix d (.invalidConversion ⟨18, 1, 1, 19⟩ "int" "void") .never .start).1 =
        .error (.mapping (.unsupported source target)) := by
  obtain ⟨d, hd⟩ : ∃ d, Document.parse "p" "void f() \x7b return 1; \x7d" = .ok d :=
    ⟨_, Document.parse_eq_ok_iff.mpr ⟨by decide +kernel, rfl⟩⟩
  obtain ⟨-, he⟩ := Document.parse_eq_ok_iff.mp hd
  obtain ⟨hc, hfound⟩ : d.tree.convertibleAt? 18 = some (.returned 1 0) ∧
      (MappingRequest.gather d.tree (ofTree d.tree).model .never (.returned 1 0)
        .start).1.toOption.any (fun r => r.destinationType.isVoid) = true := by
    rw [he]
    decide +kernel
  obtain ⟨r, a', hr, hvoid⟩ := exists_request_of_any hfound
  obtain ⟨source, target, hrefused⟩ := (fix_outcome (.parse hd)
    (.invalidConversion ⟨18, 1, 1, 19⟩ "int" "void") .start).2.1.mpr
      ⟨r, ⟨by decide, .returned 1 0, a', hc, hr⟩, hvoid⟩
  exact ⟨d, source, target, hd, hrefused⟩

end Recast
