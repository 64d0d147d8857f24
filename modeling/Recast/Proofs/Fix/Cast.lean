/-
# What the casting engine puts in place

The casting engine answers a request with one statement of the same shape, in which the value is a
cast of a copy.  The fix puts this statement into the place of the old one, in a statement list by
itself and elsewhere in a block.

* `Recasts t u type c s`: the statement `s` of `u` does what the convertible statement `c` of `t` does,
  with the value cast to `type`;
* `castEngine_succeeds`: the engine builds such a statement wherever it can cast;
* `Converts`: **the way from a document to the tree of a fix**; `Found.converts`: every fix of the
  casting engine comes this way.
-/
import Recast.Proofs.Fix.TextEdit
import Recast.Proofs.Tree.Rewrite

namespace Recast

open SyntaxTree (Rewrites Sprouts)

variable {t w u : SyntaxTree}

/-! ## 1. The statement -/

/-- The node `k` of `u` casts a copy of the node `value` of `t`. -/
def CastsCopy (t u : SyntaxTree) (type : DataType) (value k : NodeId) : Prop :=
  ∃ v, Copies t u [value] [v] ∧ u.construct? k = some (.cast (.ofDataType type) v)

/-- The statement `s` of `u` has the shape of the convertible statement of `t`, and its value is a cast
of a copy. -/
inductive Recasts (t u : SyntaxTree) (type : DataType) : Convertible → NodeId → Prop
  | assignment {stmt target value s e g k : NodeId} : CastsCopy t u type value k →
      Copies t u [target] [g] → u.construct? e = some (.assign .set g k) →
      u.construct? s = some (.exprStmt e) → Recasts t u type (.assignment stmt target value) s
  | returned {stmt value s k : NodeId} : CastsCopy t u type value k →
      u.construct? s = some (.returnStmt (some k)) → Recasts t u type (.returned stmt value) s
  | yielded {stmt value s k : NodeId} : CastsCopy t u type value k →
      u.construct? s = some (.yieldStmt k) → Recasts t u type (.yielded stmt value) s
  | declaration {stmt init s k : NodeId} {written : WrittenType} {name : Ident} :
      CastsCopy t u type init k →
      t.construct? stmt = some (.localDecl written [⟨name, some init⟩]) →
      u.construct? s = some (.localDecl (.ofDataType type) [⟨.synthetic name.name, some k⟩]) →
      Recasts t u type (.declaration stmt init) s

theorem CastsCopy.mono {type : DataType} {value k : NodeId} (h : CastsCopy t w type value k)
    (he : w.Extends u) : CastsCopy t u type value k := by
  obtain ⟨v, hv, hk⟩ := h
  exact ⟨v, hv.mono he, he.construct?_eq_some hk⟩

theorem CastsCopy.transfer {type : DataType} {value k : NodeId} (h : CastsCopy t w type value k)
    (hu : ∀ i, w.Under [k] i → u.construct? i = w.construct? i) : CastsCopy t u type value k := by
  obtain ⟨v, hv, hk⟩ := h
  have hroot : w.Under [k] k := .root (List.mem_singleton_self _)
  refine ⟨v, hv.transfer fun i hi => hu i (hi.mono fun j hj => ?_), (hu k hroot).trans hk⟩
  exact hroot.slot hk (by simpa [Construct.children] using hj)

/-- The new statement is the same in any tree that agrees with this one below it. -/
theorem Recasts.transfer {type : DataType} {c : Convertible} {s : NodeId} (h : Recasts t w type c s)
    (hu : ∀ i, w.Under [s] i → u.construct? i = w.construct? i) : Recasts t u type c s := by
  have hroot : w.Under [s] s := .root (List.mem_singleton_self _)
  have hbelow : ∀ {k i}, w.Under [s] k → w.Under [k] i → u.construct? i = w.construct? i := by
    intro k i hk hi
    refine hu i (hi.mono fun j hj => ?_)
    rwa [List.mem_singleton.mp hj]
  cases h with
  | @assignment _ _ _ _ e g k hk hg he hs =>
    have hunder : w.Under [s] e := hroot.slot hs (by simp [Construct.children])
    have hcast : w.Under [s] k := hunder.slot he (by simp [Construct.children])
    have htarget : w.Under [s] g := hunder.slot he (by simp [Construct.children])
    exact .assignment (hk.transfer fun i hi => hbelow hcast hi)
      (hg.transfer fun i hi => hbelow htarget hi) ((hu e hunder).trans he) ((hu s hroot).trans hs)
  | @returned _ _ _ k hk hs =>
    have hcast : w.Under [s] k := hroot.slot hs (by simp [Construct.children])
    exact .returned (hk.transfer fun i hi => hbelow hcast hi) ((hu s hroot).trans hs)
  | @yielded _ _ _ k hk hs =>
    have hcast : w.Under [s] k := hroot.slot hs (by simp [Construct.children])
    exact .yielded (hk.transfer fun i hi => hbelow hcast hi) ((hu s hroot).trans hs)
  | @declaration _ _ _ k _ _ hk ho hs =>
    have hcast : w.Under [s] k := hroot.slot hs (by simp [Construct.children])
    exact .declaration (hk.transfer fun i hi => hbelow hcast hi) ho ((hu s hroot).trans hs)

/-- What a convertible statement consists of. -/
inductive IsConvertible (t : SyntaxTree) : Convertible → Prop
  | assignment {stmt e target value : NodeId} : t.construct? stmt = some (.exprStmt e) →
      t.construct? e = some (.assign .set target value) →
      IsConvertible t (.assignment stmt target value)
  | returned {stmt value : NodeId} : t.construct? stmt = some (.returnStmt (some value)) →
      IsConvertible t (.returned stmt value)
  | yielded {stmt value : NodeId} : t.construct? stmt = some (.yieldStmt value) →
      IsConvertible t (.yielded stmt value)
  | declaration {stmt init : NodeId} {written : WrittenType} {name : Ident} :
      t.construct? stmt = some (.localDecl written [⟨name, some init⟩]) →
      IsConvertible t (.declaration stmt init)

theorem isConvertible_of_convertible? {id : NodeId} {c : Convertible}
    (h : t.convertible? id = some c) : IsConvertible t c := by
  unfold SyntaxTree.convertible? at h
  split at h
  · rename_i e hid
    split at h
    · rename_i target value he
      cases h
      exact .assignment hid he
    · cases h
  · rename_i hid
    cases h
    exact .returned hid
  · rename_i hid
    cases h
    exact .yielded hid
  · rename_i hid
    cases h
    exact .declaration hid
  · cases h

theorem IsConvertible.convertible? {c : Convertible} (h : IsConvertible t c) :
    t.convertible? c.stmt = some c := by
  cases h with
  | assignment hid he => simp [SyntaxTree.convertible?, Convertible.stmt, hid, he]
  | returned hid | yielded hid | declaration hid =>
    simp [SyntaxTree.convertible?, Convertible.stmt, hid]

theorem IsConvertible.isStatement {c : Convertible} (h : IsConvertible t c) :
    t.isStatement c.stmt = true := by
  cases h with
  | assignment hid _ | returned hid | yielded hid | declaration hid =>
    simp [Convertible.stmt, SyntaxTree.isStatement, hid, Construct.isStatement]

/-- **The new statement is convertible again, with the same shape.** -/
theorem Recasts.isConvertible {type : DataType} {c : Convertible} {s : NodeId}
    (h : Recasts t u type c s) : ∃ c', IsConvertible u c' ∧ c'.stmt = s ∧ c'.shape = c.shape := by
  cases h with
  | assignment _ _ he hs => exact ⟨_, .assignment hs he, rfl, rfl⟩
  | returned _ hs => exact ⟨_, .returned hs, rfl, rfl⟩
  | yielded _ hs => exact ⟨_, .yielded hs, rfl, rfl⟩
  | declaration _ _ hs => exact ⟨_, .declaration hs, rfl, rfl⟩

theorem Recasts.isStatement {type : DataType} {c : Convertible} {s : NodeId}
    (h : Recasts t u type c s) : u.isStatement s = true := by
  obtain ⟨c', hc', rfl, -⟩ := h.isConvertible
  exact hc'.isStatement

/-! ## 2. The engine -/

/-- A call of the factory in an engine. -/
theorem lift_of_eq {α : Type} {x : Build α} {a : α} (h : x w = (a, u)) :
    (liftM x : ExceptT MappingError Build α) w = (.ok a, u) := by
  change (Except.ok (x w).1, (x w).2) = _
  rw [h]

/-- The value and the target are nodes of the tree. -/
theorem IsConvertible.lt_size {c : Convertible} (hc : IsConvertible t c) (ht : t.WellFormed) :
    c.source < t.size ∧ ∀ target, c.target? = some target → target < t.size := by
  have hchild : ∀ {p k : NodeId} {d : Construct}, t.construct? p = some d → k ∈ d.children →
      k < t.size := by
    intro p k d hd hk
    refine SyntaxTree.lt_size_of_up ((ht.links k p).mpr ?_)
    rwa [SyntaxTree.children_of_construct? hd]
  cases hc with
  | assignment _ he =>
    refine ⟨hchild he (by simp [Construct.children, Convertible.source]), fun target h => ?_⟩
    cases h
    exact hchild he (by simp [Construct.children])
  | returned hid | yielded hid | declaration hid =>
    exact ⟨hchild hid (by simp [Construct.children, Convertible.source]), fun _ h => by cases h⟩

/-- A new node over all the roots. -/
theorem sprouts_node {roots : List NodeId} {c : Construct} (h : Sprouts t w roots)
    (hk : c.children.Perm roots) : Sprouts t (w.alloc c default).2 [w.size] ∧
      (w.alloc c default).2.construct? w.size = some c := by
  refine ⟨?_, by rw [SyntaxTree.construct?_alloc, if_pos rfl]⟩
  exact h.alloc [] (fun k hmem => hk.mem_iff.mp hmem) (hk.nodup_iff.mpr h.nodup)
    (by simp) .nil default

/-- **Around a converted value a statement of the same shape can always be written**: an assignment has
a target, and a declaration declares one name. -/
theorem convertedStmt_succeeds {model : SemanticModel} {c : Convertible} {r : MappingRequest}
    {k : NodeId} (hc : IsConvertible t c) (hr : Requests model c r) (hs : Sprouts t w [k])
    (hk : CastsCopy t w r.destinationType c.source k) :
    ∃ s u, convertedStmt r k w = (.ok s, u) ∧ Sprouts t u [s] ∧ Recasts t u r.destinationType c s := by
  unfold convertedStmt
  rw [hr.shape]
  cases hc with
  | @assignment stmt e target value _ he =>
    obtain ⟨g, w₁, hcopy, hs₁, he₁, hg⟩ := hs.copy
      ((IsConvertible.lt_size (.assignment ‹_› he) hs.before).2 target rfl)
    obtain ⟨hs₂, hd⟩ := sprouts_node (c := .assign .set g k) hs₁ (List.Perm.swap k g [])
    obtain ⟨hs₃, hd'⟩ := sprouts_node (c := .exprStmt w₁.size) hs₂ (.refl _)
    have he₂ := SyntaxTree.Extends.alloc w₁ (.assign .set g k) default
    have he₃ := SyntaxTree.Extends.alloc (w₁.alloc (.assign .set g k) default).2
      (.exprStmt w₁.size) default
    simp only [Convertible.shape, hr.destination, Convertible.target?]
    rw [bind_of_ok (lift_of_eq hcopy)]
    exact ⟨_, _, rfl, hs₃, .assignment (hk.mono (he₁.trans (he₂.trans he₃)))
      (hg.mono (he₂.trans he₃)) (he₃.construct?_eq_some hd) hd'⟩
  | returned hid =>
    obtain ⟨hs₁, hd⟩ := sprouts_node (c := .returnStmt (some k)) hs (.refl _)
    exact ⟨_, _, rfl, hs₁, .returned (hk.mono (.alloc w _ _)) hd⟩
  | yielded hid =>
    obtain ⟨hs₁, hd⟩ := sprouts_node (c := .yieldStmt k) hs (.refl _)
    exact ⟨_, _, rfl, hs₁, .yielded (hk.mono (.alloc w _ _)) hd⟩
  | @declaration stmt init written name hid =>
    have hname : w.declaredName? r.stmt = some name.name := by
      rw [hr.stmt]
      simp [SyntaxTree.declaredName?, Convertible.stmt, hs.grows.construct?_eq_some hid]
    have hget : (getThe SyntaxTree : ExceptT MappingError Build SyntaxTree) w = (.ok w, w) := rfl
    obtain ⟨hs₁, hd⟩ := sprouts_node
      (c := .localDecl (.ofDataType r.destinationType) [⟨.synthetic name.name, some k⟩]) hs (.refl _)
    simp only [Convertible.shape]
    rw [bind_of_ok hget]
    simp only [hname]
    exact ⟨_, _, rfl, hs₁, .declaration (hk.mono (.alloc w _ _)) hid hd⟩

theorem castEngine_of_isVoid {r : MappingRequest} (h : r.destinationType.isVoid = true)
    (t : SyntaxTree) :
    castEngine r t = (.error (.unsupported r.sourceType.text r.destinationType.text), t) := by
  unfold castEngine
  rw [if_pos h]
  rfl

theorem castEngine_of_not_canCast {r : MappingRequest} (hvoid : r.destinationType.isVoid = false)
    (h : canCast r.sourceType r.destinationType = false) (t : SyntaxTree) :
    castEngine r t = (.ok [], t) := by
  unfold castEngine
  rw [if_neg (by simp [hvoid]), if_pos (by simp [h])]
  rfl

/-- **The engine builds one statement of the same shape, in which a copy of the value is cast**,
wherever it can cast at all. -/
theorem castEngine_succeeds {model : SemanticModel} {c : Convertible} {r : MappingRequest}
    (ht : t.WellFormed) (hroot : t.root < t.size) (hc : IsConvertible t c)
    (hr : Requests model c r) (hvoid : r.destinationType.isVoid = false)
    (hcast : canCast r.sourceType r.destinationType = true) :
    ∃ s w, castEngine r t = (.ok [s], w) ∧ Sprouts t w [s] ∧ Recasts t w r.destinationType c s := by
  obtain ⟨v, w₁, hcopy, hs₁, -, hv⟩ := (Sprouts.refl ht hroot).copy (hc.lt_size ht).1
  rw [← hr.source] at hcopy
  obtain ⟨hs₂, hd⟩ := sprouts_node (c := .cast (.ofDataType r.destinationType) v) hs₁ (.refl _)
  have hcasts : CastsCopy t _ r.destinationType c.source w₁.size :=
    ⟨v, hv.mono (.alloc w₁ _ _), hd⟩
  have hbuilt : (liftM (Build.cast r.destinationType v) : ExceptT MappingError Build NodeId) w₁ =
      (.ok w₁.size, (w₁.alloc (.cast (.ofDataType r.destinationType) v) default).2) := rfl
  obtain ⟨s, w₂, hstmt, hs₃, hrecasts⟩ := convertedStmt_succeeds hc hr hs₂ hcasts
  refine ⟨s, w₂, ?_, hs₃, hrecasts⟩
  unfold castEngine
  rw [if_neg (by simp [hvoid]), if_neg (by simp [hcast]), bind_of_ok (lift_of_eq hcopy),
    bind_of_ok hbuilt, bind_of_ok hstmt]
  rfl

/-- What the engine built, where it built something. -/
theorem castEngine_eq_ok {model : SemanticModel} {c : Convertible} {r : MappingRequest}
    {produced : List NodeId} (ht : t.WellFormed) (hroot : t.root < t.size) (hc : IsConvertible t c)
    (hr : Requests model c r) (h : castEngine r t = (.ok produced, w)) (hne : produced ≠ []) :
    ∃ s, produced = [s] ∧ Sprouts t w [s] ∧ Recasts t w r.destinationType c s ∧
      r.destinationType.isVoid = false ∧ canCast r.sourceType r.destinationType = true := by
  cases hvoid : r.destinationType.isVoid with
  | true =>
    rw [castEngine_of_isVoid hvoid] at h
    cases h
  | false =>
    cases hcast : canCast r.sourceType r.destinationType with
    | false =>
      rw [castEngine_of_not_canCast hvoid hcast] at h
      cases h
      exact absurd rfl hne
    | true =>
      obtain ⟨s, w', hbuilt, hs, hrecasts⟩ := castEngine_succeeds ht hroot hc hr hvoid hcast
      rw [hbuilt] at h
      cases h
      exact ⟨s, rfl, hs, hrecasts, rfl, rfl⟩

/-! ## 3. The fix -/

/-- The fix `f` puts the statement `s`, by itself or in a block, as the node `n` into the place of the
convertible statement `c`. -/
structure Converts (d : Document) (model : SemanticModel) (c : Convertible) (f : Fix) (n s : NodeId) :
    Prop where
  tree_eq : d.tree = (parseLenient d.text).1
  convertible : IsConvertible d.tree c
  requested : Requests model c f.request
  castable : canCast f.request.sourceType f.request.destinationType = true
  notVoid : f.request.destinationType.isVoid = false
  rewrites : Rewrites d.tree c.stmt n f.document.tree
  recasts : Recasts d.tree f.document.tree f.request.destinationType c s
  placed : ∃ p, d.tree.parent? c.stmt = some p ∧
    ((d.tree.isBlock p = true ∧ f.placement = .spliced p 1 ∧ n = s) ∨
      (d.tree.isBlock p = false ∧ f.placement = .wrapped n ∧
        f.document.tree.construct? n = some (.block [s])))
  text_eq : ∃ before old after, d.text.toList = before ++ (old ++ after) ∧ old ≠ [] ∧
    (d.tree.spanOf c.stmt).offset = Text.byteSize before ∧
    (d.tree.spanOf c.stmt).stop = Text.byteSize (before ++ old) ∧
    f.document.text = String.ofList before ++
      Document.replacementText f.document.tree before [n] ++ String.ofList after

/-- A statement in a list gives its place to another one. -/
theorem rewrites_of_splice {p o s : NodeId} (h : Sprouts t w [s]) (ho : t.InTree o)
    (hp : t.parent? o = some p) (hblock : t.isBlock p = true) (hu : w.splice p o [s] = .ok u) :
    Rewrites t o s u := by
  have hpt : p < t.size := SyntaxTree.lt_size_of_mem_children ((h.before.links o p).mp hp)
  have hwp : w.construct? p = t.construct? p := h.grows.construct_eq p hpt
  have hop : o ∈ w.children p := by
    rw [h.children_eq hpt]
    exact (h.before.links o p).mp hp
  obtain ⟨before, after, u', hb, hu', hs, hput⟩ := SyntaxTree.exists_splice
    (by rwa [SyntaxTree.isBlock, hwp]) hop [s]
  rw [hu] at hu'
  cases hu'
  have hnodup := h.before.nodup p
  rw [hwp] at hput
  rcases hput with ⟨hc, hd⟩ | ⟨hc, hd⟩
  all_goals
    rw [SyntaxTree.children_of_construct? hc] at hnodup
    refine h.rewrites hs ho hp hc ?_
    rw [hd, Construct.mapNodes, map_substNode_append hnodup, List.append_assoc]
    rfl

/-- Elsewhere a block takes the place of the old statement. -/
theorem rewrites_of_replaceChild {p o s : NodeId} (h : Sprouts t w [s]) (ho : t.InTree o)
    (hp : t.parent? o = some p)
    (hu : (w.alloc (.block [s]) default).2.replaceChild p o w.size = .ok u) :
    Rewrites t o w.size u ∧ u.construct? w.size = some (.block [s]) := by
  obtain ⟨hs₁, hblock⟩ := sprouts_node (c := .block [s]) h (.refl _)
  have hpt : p < t.size := SyntaxTree.lt_size_of_mem_children ((h.before.links o p).mp hp)
  have hop : o ∈ (w.alloc (.block [s]) default).2.children p := by
    rw [hs₁.children_eq hpt]
    exact (h.before.links o p).mp hp
  obtain ⟨c, before, after, u', hc, hb, hkids, hu', hs, hput⟩ :=
    SyntaxTree.exists_replaceChild hop w.size
  rw [hu] at hu'
  cases hu'
  rw [hs₁.grows.construct_eq p hpt] at hc
  have hnodup := h.before.nodup p
  rw [SyntaxTree.children_of_construct? hc, hkids] at hnodup
  refine ⟨hs₁.rewrites hs ho hp hc ?_, ?_⟩
  · rw [hput, ← Construct.withChildren_map, hkids, map_substNode_append hnodup]
  · rw [hs.construct_eq _ (Nat.ne_of_gt (Nat.lt_of_lt_of_le hpt h.grows.size_le)), hblock]

/-- **One new statement can always be put into the place of an old one.** -/
theorem replaceStatement_of_sprouts {p o s : NodeId} (h : Sprouts t w [s])
    (hs : w.isStatement s = true) (ho : t.InTree o) (hstmt : t.isStatement o = true)
    (hp : t.parent? o = some p) :
    (t.isBlock p = true ∧ ∃ u, w.splice p o [s] = .ok u ∧
      w.replaceStatement o [s] = (.ok (.spliced p 1), u)) ∨
    (t.isBlock p = false ∧ ∃ u, (w.alloc (.block [s]) default).2.replaceChild p o w.size = .ok u ∧
      w.replaceStatement o [s] = (.ok (.wrapped w.size), u)) := by
  have hlt := SyntaxTree.lt_size_of_up hp
  have hattached : w.isAttached o = true := by
    rw [h.wellFormed.isAttached_iff, SyntaxTree.InTree, h.root_eq, h.under_iff]
    · exact ho
    · simp [h.root_lt]
  have hstmt' : w.isStatement o = true := by
    rwa [SyntaxTree.isStatement, h.grows.construct_eq o hlt]
  have hpt : p < t.size := SyntaxTree.lt_size_of_mem_children ((h.before.links o p).mp hp)
  have hbp : w.isBlock p = t.isBlock p := by
    rw [SyntaxTree.isBlock, SyntaxTree.isBlock, h.grows.construct_eq p hpt]
  have hreplaced := SyntaxTree.replaceStatement_succeeds h.wellFormed.linked hstmt'
    ((h.parent_eq _ hlt).trans hp) hattached
    (show [s].filter w.isStatement ≠ [] by simp [hs])
  rwa [show [s].filter w.isStatement = [s] by simp [hs], hbp] at hreplaced

/-- **Every fix of the casting engine comes this way.** -/
theorem Found.converts {d : Document} {model : SemanticModel} {diagnostic : Diagnostic}
    {c : Convertible} {produced : List NodeId} {working : SyntaxTree} {f : Fix}
    (h : Found .casting d model diagnostic c produced working f) (hd : d.Reachable) :
    ∃ n s, Converts d model c f n s := by
  have htree := hd.tree_eq h.current
  have hrooted : d.tree.Rooted := htree ▸ parseLenient_rooted d.text
  have hwf : d.tree.WellFormed := htree ▸ parseLenient_wellFormed d.text
  obtain ⟨hin, hc⟩ := convertibleAt?_inTree hrooted h.located
  have hconv := isConvertible_of_convertible? hc
  have hreq : f.request.stmt = c.stmt := h.requested.stmt
  -- what the engine built
  have hne : produced ≠ [] := by
    intro he
    exact h.some (by rw [he]; rfl)
  obtain ⟨s, rfl, hs, hrecasts, hvoid, hcast⟩ := castEngine_eq_ok hwf
    (hrooted.lt_size (SyntaxTree.inTree_root _)) hconv h.requested h.built hne
  have hsome := hrecasts.isStatement
  have hfilter : [s].filter working.isStatement = [s] := by simp [hsome]
  -- where it was put
  obtain ⟨before, old, after, htext, hold, hoff, hstop, hdoc⟩ :=
    h.document_eq htree castEngine_usesFactory
  obtain ⟨tree, hplaced, hdocument⟩ := h.placed
  rw [hfilter] at hplaced hdocument hdoc
  have hftree : f.document.tree = tree := by
    rw [hdocument, Document.withReplacement]
    split <;> rfl
  obtain ⟨p, hp⟩ : ∃ p, d.tree.parent? c.stmt = .some p := by
    rw [htree] at hin hc ⊢
    exact parseLenient_convertible_parent hin hc
  have hpt : p < d.tree.size := SyntaxTree.lt_size_of_mem_children ((hwf.links c.stmt p).mp hp)
  rw [hreq] at hplaced
  rw [show f.replaced = c.stmt from hreq] at hoff hstop
  have hnew : ∀ {i}, working.Under [s] i → d.tree.size ≤ i :=
    fun hi => hs.le_of_under (fun k hk => (hs.range k hk).1) hi
  rcases replaceStatement_of_sprouts hs hsome hin hconv.isStatement hp with
    ⟨hblock, u, hu, he⟩ | ⟨hblock, u, hu, he⟩
  · rw [hplaced] at he
    obtain ⟨hpl, htu⟩ := Prod.mk.inj he
    cases htu
    have hpl' : f.placement = .spliced p 1 := Except.ok.inj hpl
    rw [hpl'] at hdoc
    refine ⟨s, s, htree, hconv, h.requested, hcast, hvoid, ?_, ?_, ⟨p, hp, .inl ⟨hblock, hpl', rfl⟩⟩,
      before, old, after, htext, hold, hoff, hstop, congrArg Document.text hdoc⟩
    · rw [hftree]
      exact rewrites_of_splice hs hin hp hblock hu
    · rw [hftree]
      refine hrecasts.transfer fun i hi => (SyntaxTree.splice_swaps hu).construct_eq i ?_
      exact Nat.ne_of_gt (Nat.lt_of_lt_of_le hpt (hnew hi))
  · rw [hplaced] at he
    obtain ⟨hpl, htu⟩ := Prod.mk.inj he
    cases htu
    have hpl' : f.placement = .wrapped working.size := Except.ok.inj hpl
    obtain ⟨hrewrites, hnode⟩ := rewrites_of_replaceChild hs hin hp hu
    rw [← hftree] at hrewrites hnode
    rw [hpl'] at hdoc
    refine ⟨working.size, s, htree, hconv, h.requested, hcast, hvoid, hrewrites, ?_,
      ⟨p, hp, .inr ⟨hblock, hpl', hnode⟩⟩, before, old, after, htext, hold, hoff, hstop,
      congrArg Document.text hdoc⟩
    rw [hftree]
    refine hrecasts.transfer fun i hi => ?_
    have hsize : i < working.size := hs.wellFormed.lt_size_of_under
      (fun k hk => (hs.range k hk).2) hi
    rw [(SyntaxTree.replaceChild_swaps hu).construct_eq i
      (Nat.ne_of_gt (Nat.lt_of_lt_of_le hpt (hnew hi))), SyntaxTree.construct?_alloc,
      if_neg (Nat.ne_of_lt hsize)]

end Recast
