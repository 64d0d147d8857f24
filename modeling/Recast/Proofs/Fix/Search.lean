/-
# How a fix is found

What it means that the search for a fix succeeds, step by step: the statement that was located, the
request that was gathered for it, what the engine built, and how that was put in place.

* `gather_eq_ok`: a request is about the located statement, and its types are answers of the model;
* `Found`: the whole way to a fix; `fixWith_eq_ok`: every fix was found in this way;
  `fixWith_of_placed`: and who goes it to its end has found a fix;
* `Found.inTree`: the statement that is replaced is part of the program.
-/
import Recast.Fix.Provider
import Recast.Proofs.Document.History

namespace Recast

/-! ## 1. Questions -/

namespace FixM

variable {α : Type} {a a' : Activity}

theorem check_eq_ok {point : CancelPoint} {u : Unit} :
    check point a = (.ok u, a') ↔ point.reached a.queries = false ∧ a' = a := by
  unfold check
  rw [bind_of_ok (rfl : (get : FixM Activity) a = (.ok a, a))]
  cases hr : point.reached a.queries with
  | true =>
    simp only [Bool.true_eq_false, false_and, iff_false]
    intro h
    cases h
  | false =>
    simp only [true_and]
    constructor
    · intro h
      cases h
      rfl
    · rintro rfl
      rfl

theorem check_never (a : Activity) : check .never a = (.ok (), a) := check_eq_ok.mpr ⟨rfl, rfl⟩

theorem check_of_reached {point : CancelPoint} (h : point.reached a.queries = true) :
    check point a = (.error .cancelled, a) := by
  unfold check
  rw [bind_of_ok (rfl : (get : FixM Activity) a = (.ok a, a)), h]
  rfl

theorem ask_eq_ok {answer x : α} :
    ask answer a = (.ok x, a') ↔ x = answer ∧ a' = { a with queries := a.queries + 1 } := by
  constructor
  · intro h
    cases h
    exact ⟨rfl, rfl⟩
  · rintro ⟨rfl, rfl⟩
    rfl

/-- An answer of the model, if the search goes on. -/
theorem typeInfo_eq_ok {model : SemanticModel} {point : CancelPoint} {id : NodeId}
    {info : TypeInfo} (h : typeInfo model point id a = (.ok info, a')) :
    model.typeInfo id = .ok info := by
  obtain ⟨-, a₁, -, h⟩ := bind_eq_ok.mp h
  obtain ⟨answer, a₂, hask, h⟩ := bind_eq_ok.mp h
  obtain ⟨rfl, -⟩ := ask_eq_ok.mp hask
  cases hm : model.typeInfo id with
  | ok info' =>
    rw [hm] at h
    cases h
    rfl
  | error e =>
    rw [hm] at h
    cases h

end FixM

/-! ## 2. Requests -/

/-- The request is about this statement, and its types are what the model answers. -/
structure Requests (model : SemanticModel) (c : Convertible) (r : MappingRequest) : Prop where
  stmt : r.stmt = c.stmt
  source : r.source = c.source
  destination : r.destination = c.target?
  shape : r.shape = c.shape
  types : match c.target? with
    | some target => ∃ s d, model.typeInfo c.source = .ok s ∧ model.typeInfo target = .ok d ∧
        r.sourceType = s.type ∧ r.destinationType = d.type
    | none => ∃ info, model.typeInfo c.source = .ok info ∧ r.sourceType = info.type ∧
        r.destinationType = info.converted

theorem gather_eq_ok {t : SyntaxTree} {model : SemanticModel} {point : CancelPoint}
    {c : Convertible} {r : MappingRequest} {a a' : Activity}
    (h : MappingRequest.gather t model point c a = (.ok r, a')) : Requests model c r := by
  cases c with
  | assignment stmt target value =>
    obtain ⟨s, a₁, hs, h⟩ := bind_eq_ok.mp h
    obtain ⟨d, a₂, hd, h⟩ := bind_eq_ok.mp h
    obtain ⟨-, a₃, -, h⟩ := bind_eq_ok.mp h
    have htypes := FixM.typeInfo_eq_ok hs
    have htypes' := FixM.typeInfo_eq_ok hd
    split at h
    · obtain ⟨found, a₄, -, h⟩ := bind_eq_ok.mp h
      cases h
      exact ⟨rfl, rfl, rfl, rfl, s, d, htypes, htypes', rfl, rfl⟩
    · obtain ⟨found, a₄, -, h⟩ := bind_eq_ok.mp h
      cases h
      exact ⟨rfl, rfl, rfl, rfl, s, d, htypes, htypes', rfl, rfl⟩
  | returned stmt value | yielded stmt value | declaration stmt value =>
    obtain ⟨info, a₁, hi, h⟩ := bind_eq_ok.mp h
    cases h
    exact ⟨rfl, rfl, rfl, rfl, info, FixM.typeInfo_eq_ok hi, rfl, rfl⟩

/-- A request that is gathered, seen from the result. -/
theorem exists_request_of_any {x : Except FixError MappingRequest × Activity} {p : MappingRequest → Bool}
    (h : x.1.toOption.any p = true) : ∃ r a, x = (.ok r, a) ∧ p r = true := by
  rcases x with ⟨_ | r, a⟩
  · cases h
  · exact ⟨r, a, rfl, h⟩

/-! ## 3. Fixes -/

/-- The way to a fix: the statement `c` was located, a request for it was gathered, the engine built
`produced` in the tree `working`, and the statements among them were put in place. -/
structure Found (p : FixProvider) (d : Document) (model : SemanticModel) (diagnostic : Diagnostic)
    (c : Convertible) (produced : List NodeId) (working : SyntaxTree) (f : Fix) : Prop where
  current : d.spansCurrent = true
  located : d.tree.convertibleAt? diagnostic.start = some c
  requested : Requests model c f.request
  built : p.engine f.request d.tree = (.ok produced, working)
  some : produced.filter working.isStatement ≠ []
  placed : ∃ tree,
    working.replaceStatement f.request.stmt (produced.filter working.isStatement) =
      (.ok f.placement, tree) ∧
    f.document = d.withReplacement tree (working.spanOf f.request.stmt)
      (FixProvider.shownNodes f.placement (produced.filter working.isStatement))

theorem runEngine_eq_ok {p : FixProvider} {tree working : SyntaxTree} {r : MappingRequest}
    {produced : List NodeId} {a a' : Activity}
    (h : p.runEngine tree r a = (.ok (produced, working), a')) :
    p.engine r tree = (.ok produced, working) := by
  unfold FixProvider.runEngine at h
  rcases he : p.engine r tree with ⟨_ | produced', working'⟩
  · rw [he] at h
    cases h
  · rw [he] at h
    cases h
    rfl

theorem runEngine_of_ok {p : FixProvider} {tree working : SyntaxTree} {r : MappingRequest}
    {produced : List NodeId} (h : p.engine r tree = (.ok produced, working)) (a : Activity) :
    ∃ a', p.runEngine tree r a = (.ok (produced, working), a') := by
  unfold FixProvider.runEngine
  rw [h]
  exact ⟨_, rfl⟩

/-- **Every fix was found in this way.** -/
theorem fixWith_eq_ok {p : FixProvider} {d : Document} {model : SemanticModel}
    {diagnostic : Diagnostic} {point : CancelPoint} {f : Fix} {a a' : Activity}
    (h : p.fixWith d model diagnostic point a = (.ok (.some f), a')) :
    ∃ c produced working, Found p d model diagnostic c produced working f := by
  unfold FixProvider.fixWith at h
  split at h
  · cases h
  · split at h
    · cases h
    · rename_i hcurrent
      cases hc : d.tree.convertibleAt? diagnostic.start with
      | none =>
        simp only [hc] at h
        cases h
      | some c =>
        simp only [hc] at h
        obtain ⟨r, a₁, hr, h⟩ := bind_eq_ok.mp h
        obtain ⟨-, a₂, -, h⟩ := bind_eq_ok.mp h
        obtain ⟨⟨produced, working⟩, a₃, he, h⟩ := bind_eq_ok.mp h
        dsimp only at h
        split at h
        · cases h
        · rename_i hsome
          rcases hplaced : working.replaceStatement r.stmt (produced.filter working.isStatement)
            with ⟨e | placement, tree⟩
          · simp only [hplaced] at h
            cases h
          · simp only [hplaced] at h
            cases h
            exact ⟨c, produced, working, by simpa using hcurrent, hc, gather_eq_ok hr,
              runEngine_eq_ok he, by simpa using hsome, tree, hplaced, rfl⟩

theorem fix_eq_ok {p : FixProvider} {d : Document} {diagnostic : Diagnostic} {point : CancelPoint}
    {f : Fix} {a a' : Activity} (h : p.fix d diagnostic point a = (.ok (some f), a')) :
    ∃ c produced working,
      Found p d (Analysis.ofTree d.tree).model diagnostic c produced working f := by
  obtain ⟨-, a₁, -, h⟩ := bind_eq_ok.mp h
  exact fixWith_eq_ok h

/-- **What is located, gathered, built and put in place is a fix**, if nobody stops the search. -/
theorem fixWith_of_placed (p : FixProvider) (d : Document) (model : SemanticModel)
    (diagnostic : Diagnostic) {c : Convertible} {r : MappingRequest} {produced : List NodeId}
    {working tree : SyntaxTree} {placement : Placement} {a a₁ : Activity}
    (hcode : diagnostic.code ∈ FixProvider.fixableCodes) (hcurrent : d.spansCurrent = true)
    (hc : d.tree.convertibleAt? diagnostic.start = some c)
    (hr : MappingRequest.gather d.tree model .never c a = (.ok r, a₁))
    (he : p.engine r d.tree = (.ok produced, working))
    (hsome : produced.filter working.isStatement ≠ [])
    (hplaced : working.replaceStatement r.stmt (produced.filter working.isStatement) =
      (.ok placement, tree)) :
    ∃ a', p.fixWith d model diagnostic .never a = (.ok (some
      ⟨p.title, diagnostic, r, d.withReplacement tree (working.spanOf r.stmt)
        (FixProvider.shownNodes placement (produced.filter working.isStatement)), placement⟩), a') := by
  obtain ⟨a₂, hrun⟩ := runEngine_of_ok he a₁
  have hempty : (produced.filter working.isStatement).isEmpty = false :=
    List.isEmpty_eq_false_iff.mpr hsome
  refine ⟨a₂, ?_⟩
  rw [FixProvider.fixWith, if_neg (by simpa using hcode), if_neg (by simp [hcurrent]), hc]
  simp only [bind_of_ok hr, bind_of_ok (FixM.check_never a₁), bind_of_ok hrun, hempty, hplaced]
  rfl

/-! ## 4. The located statement -/

/-- What a convertible statement is. -/
theorem convertible?_stmt {t : SyntaxTree} {id : NodeId} {c : Convertible}
    (h : t.convertible? id = some c) :
    c.stmt = id ∧ ∃ s, t.construct? id = some s ∧ s.isStatement = true := by
  unfold SyntaxTree.convertible? at h
  split at h
  · rename_i e hid
    split at h
    · cases h
      exact ⟨rfl, _, hid, rfl⟩
    · cases h
  · rename_i hid
    cases h
    exact ⟨rfl, _, hid, rfl⟩
  · rename_i hid
    cases h
    exact ⟨rfl, _, hid, rfl⟩
  · rename_i hid
    cases h
    exact ⟨rfl, _, hid, rfl⟩
  · cases h

/-- A convertible statement is not the root, which is a list of items. -/
theorem parseLenient_convertible_ne_root {text : String} {id : NodeId} {c : Convertible}
    (h : (parseLenient text).1.convertible? id = some c) : id ≠ (parseLenient text).1.root := by
  obtain ⟨-, s, hs, hstmt⟩ := convertible?_stmt h
  obtain ⟨toks, stop, rest, items, ts, -, -, hunit, -⟩ := parseLenient_sound text
  rintro rfl
  rw [hs] at hunit
  cases hunit
  cases hstmt

/-- So it stands in another node. -/
theorem parseLenient_convertible_parent {text : String} {id : NodeId} {c : Convertible}
    (hin : (parseLenient text).1.InTree id) (h : (parseLenient text).1.convertible? id = some c) :
    ∃ p, (parseLenient text).1.parent? id = some p := by
  rcases (parseLenient_rooted text).parent hin with he | ⟨p, hp, -⟩
  · exact absurd he (parseLenient_convertible_ne_root h)
  · exact ⟨p, hp⟩

/-- **A located statement is part of the program.** -/
theorem convertibleAt?_inTree {t : SyntaxTree} (ht : t.Rooted) {offset : Nat} {c : Convertible}
    (h : t.convertibleAt? offset = some c) : t.InTree c.stmt ∧ t.convertible? c.stmt = some c := by
  obtain ⟨id, hid, h⟩ := Option.bind_eq_some_iff.mp h
  have hin : t.InTree id := by
    unfold SyntaxTree.nodeAt? at hid
    split at hid
    · cases hid
      exact SyntaxTree.under_descend offset t.size (SyntaxTree.inTree_root t)
    · cases hid
  obtain ⟨i, hi, hc⟩ := List.exists_of_findSome?_eq_some h
  have hstmt := (convertible?_stmt hc).1
  rw [hstmt]
  refine ⟨?_, hc⟩
  rcases List.mem_cons.mp hi with rfl | hi
  · exact hin
  · exact ht.inTree_of_mem_climb hin hi

end Recast
