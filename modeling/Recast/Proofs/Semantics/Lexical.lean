/-
# Names are bound lexically

The binder walks through a program once, with a scope that changes on the way.  The declaration that
it finds for a name can be told from where the name stands alone: by going up from the name, through
one scope after another.

* `SyntaxTree.scopesAlong`: the scopes on the way up, each with the names declared in it so far;
  `SyntaxTree.resolve`: the first declaration of a name in the innermost scope that has one;
* `Scope.Shows`: the scope of the binder shows these names, scope by scope;
* `Binder.Walks`: the names below some nodes are bound as they resolve; `handles_stmtTo` and
  `handles_item` are the steps of the walk, one for each construct;
* `parseLenient_binding`: **every name of a program is bound to what it resolves to.**
-/
import Recast.Proofs.Document.History
import Recast.Proofs.Parser.Table
import Recast.Proofs.Semantics.Retype
import Recast.Proofs.Semantics.ScopeStack
import Mathlib.Data.List.Forall2

namespace Recast

open SyntaxTree (Under)

/-! ## 1. The way up -/

/-- The variables of a declaration by name, in their order. -/
def variablesOf (decl : NodeId) (vars : List Declarator) : List (String × Binding) :=
  vars.mapIdx fun index var => (var.name.name, .declared decl index)

/-- The parameters of a function by name, in their order. -/
def parametersOf (function : NodeId) (params : List Param) : List (String × Binding) :=
  params.mapIdx fun index p => (p.name.name, .parameter function index)

namespace SyntaxTree

/-- The variables that a statement declares in the scope in which it stands. -/
def declaredBy (t : SyntaxTree) (stmt : NodeId) : List (String × Binding) :=
  match t.construct? stmt with
  | some (.localDecl _ vars) => variablesOf stmt vars
  | _ => []

/-- The scopes on the way up from a node, the innermost first, each with the names that are declared
in it before the place where the way started.  If the node is a declaration, `own` are its variables
before that place. -/
def scopesAlong (t : SyntaxTree) : List (String × Binding) → NodeId → List NodeId →
    List (List (String × Binding))
  | _, _, [] => []
  | own, node, parent :: above =>
    match t.construct? parent with
    | some (.block stmts) =>
      ((stmts.takeWhile (· ≠ node)).flatMap t.declaredBy ++ own) :: scopesAlong t [] parent above
    | some (.unit items) =>
      ((items.takeWhile (· ≠ node)).flatMap t.declaredBy ++ own) :: scopesAlong t [] parent above
    | some (.localDecl _ vars) =>
      scopesAlong t (variablesOf parent (vars.takeWhile (·.init ≠ some node))) parent above
    | some (.ifStmt condition _ _) | some (.whileStmt condition _) | some (.doStmt _ condition) =>
      -- a branch or a body is a scope, the condition stands outside of it
      if node = condition then scopesAlong t [] parent above
      else own :: scopesAlong t [] parent above
    | some (.function _ _ params _) => [parametersOf parent params]
    | some (.field _ _ _) => []
    | _ => scopesAlong t [] parent above

/-- The scopes around a node, by its links upward. -/
def scopesAt (t : SyntaxTree) (own : List (String × Binding)) (node : NodeId) :
    List (List (String × Binding)) := t.scopesAlong own node (t.ancestors node)

/-- What a name at a node stands for: the first declaration of the name in the innermost scope that
has one before the node. -/
def resolve (t : SyntaxTree) (node : NodeId) (name : String) : Option Binding :=
  (t.scopesAt [] node).findSome? fun scope => scope.lookup name

variable {t : SyntaxTree} {own : List (String × Binding)} {k p : NodeId}

theorem scopesAt_of_slot (h : t.WellFormed) (hk : k ∈ t.children p) :
    t.scopesAt own k = t.scopesAlong own k (p :: t.ancestors p) := by
  rw [scopesAt, h.ancestors_of_parent ((h.links k p).mpr hk)]

/-- Inside an expression the scopes are those around it. -/
theorem scopesAt_of_isExpression (h : t.WellFormed) (hk : k ∈ t.children p)
    (hp : t.isExpression p = true) : t.scopesAt own k = t.scopesAt [] p := by
  rw [scopesAt_of_slot h hk, scopesAlong]
  split <;> rename_i hc
  all_goals first
    | rfl
    | simp [isExpression, hc, Construct.isExpression] at hp

theorem scopesAt_of_under (h : t.WellFormed) {e u : NodeId} {l r : Nat} (he : Fits t (.expr l r) e)
    (hu : Under t [e] u) : t.scopesAt [] u = t.scopesAt [] e := by
  induction hu with
  | root hu => rw [List.mem_singleton.mp hu]
  | child hq hu ih => rw [scopesAt_of_isExpression h hu (he.isExpression_of_under hq), ih]

end SyntaxTree

/-! ## 2. What a scope shows -/

namespace Scope

variable {s : Scope} {scope : List (String × Binding)} {scopes : List (List (String × Binding))}

/-- The scope shows the first declaration of each name, scope by scope. -/
def Shows (s : Scope) (scopes : List (List (String × Binding))) : Prop :=
  s.Sole ∧ ∃ k : ScopeStack, Models s k ∧
    List.Forall₂ (fun (m : NameMap) scope => ∀ name, (m name).map LocalVar.binding = scope.lookup name)
      (k.top :: k.below) scopes

namespace Shows

theorem empty : Shows .empty [[]] :=
  ⟨.empty, .empty, .empty, .cons (fun _ => rfl) .nil⟩

theorem get? (h : s.Shows scopes) (name : String) :
    (s.get? name).map LocalVar.binding = scopes.findSome? fun scope => scope.lookup name := by
  obtain ⟨-, k, hk, hall⟩ := h
  rw [hk.get?_eq, ScopeStack.get?]
  generalize k.top :: k.below = maps at hall
  induction hall with
  | nil => rfl
  | cons hm _ ih =>
    rw [List.findSome?_cons, List.findSome?_cons, ← hm name, ← ih]
    split
    · rename_i hv
      rw [hv]
      rfl
    · rename_i hv
      rw [hv]
      rfl

theorem enter (h : s.Shows scopes) : s.enter.Shows ([] :: scopes) := by
  obtain ⟨hs, k, hk, hall⟩ := h
  exact ⟨hs.enter, k.enter, hk.enter hs, .cons (fun _ => rfl) hall⟩

theorem leave (h : s.Shows (scope :: scopes)) (hne : scopes ≠ []) : s.leave.Shows scopes := by
  obtain ⟨hs, ⟨top, below⟩, hk, hall⟩ := h
  obtain ⟨-, hbelow⟩ := List.forall₂_cons.mp hall
  cases hbelow with
  | nil => exact absurd rfl hne
  | cons hm hbelow => exact ⟨hs.leave, _, hk.leave, .cons hm hbelow⟩

theorem ne_nil (h : s.Shows scopes) : scopes ≠ [] := by
  obtain ⟨-, k, -, hall⟩ := h
  cases hall
  exact List.cons_ne_nil _ _

/-- A declaration comes after those that are there; the first one of a name counts. -/
theorem declared (h : s.Shows (scope :: scopes)) (name : String) (binding : Binding) (span : Span) :
    (s.declared name binding span).Shows ((scope ++ [(name, binding)]) :: scopes) := by
  obtain ⟨hs, k, hk, hall⟩ := h
  obtain ⟨hm, hall⟩ := List.forall₂_cons.mp hall
  have hlookup : ∀ other, (scope ++ [(name, binding)]).lookup other =
      (scope.lookup other).or (if name = other then some binding else none) := by
    intro other
    rw [List.lookup_append]
    by_cases ho : name = other
    · simp [ho]
    · have hne : (other == name) = false := beq_eq_false_iff_ne.mpr (Ne.symm ho)
      simp [List.lookup_cons, ho, hne]
  refine ⟨hs.declared name binding span, ?_⟩
  cases ht : k.top name with
  | none =>
    refine ⟨_, hk.declared hs ht, .cons (fun other => ?_) hall⟩
    rw [hlookup, ← hm other]
    by_cases ho : name = other
    · subst ho
      simp [ht]
    · simp [ho, Ne.symm ho]
  | some v =>
    have hhere : s.isDeclaredHere name = true := by
      rw [hk.isDeclaredHere_eq hs, ScopeStack.isDeclaredHere, ht]
      rfl
    rw [declared_of_isDeclaredHere hhere]
    refine ⟨k, hk, .cons (fun other => ?_) hall⟩
    rw [hlookup, ← hm other]
    by_cases ho : name = other
    · subst ho
      simp [ht]
    · simp [ho]

end Shows

end Scope

/-! ## 3. Bound names -/

namespace Binder

variable {t : SyntaxTree} {b b' b'' : Binder} {ids ids' : List NodeId}

/-- Everything that is bound is a name, and bound to what it resolves to. -/
def Right (t : SyntaxTree) (b : Binder) : Prop :=
  ∀ u binding, b.bindings.lookup u = some binding →
    ∃ name, t.construct? u = some (.ident name) ∧ t.resolve u name.name = some binding

/-- Between `b` and `b'` the names below `ids` are bound, all of them rightly, and no others. -/
structure Walks (t : SyntaxTree) (ids : List NodeId) (b b' : Binder) : Prop where
  right : Right t b → Right t b'
  others : ∀ {u}, ¬ Under t ids u → b'.bindings.lookup u = b.bindings.lookup u
  covers : ∀ {u name}, Under t ids u → t.construct? u = some (.ident name) →
    (t.resolve u name.name).isSome → (b'.bindings.lookup u).isSome
  grows : ∀ {u}, (b.bindings.lookup u).isSome → (b'.bindings.lookup u).isSome

namespace Walks

theorem nil : Walks t [] b b := by
  refine ⟨id, fun _ => rfl, fun hu => ?_, id⟩
  obtain ⟨r, hr, -⟩ := hu.exists_root
  cases hr

theorem trans (h : Walks t ids b b') (h' : Walks t ids' b' b'') {ids'' : List NodeId}
    (hids : ∀ k, k ∈ ids'' ↔ k ∈ ids ∨ k ∈ ids') : Walks t ids'' b b'' := by
  refine ⟨fun hr => h'.right (h.right hr), fun hu => ?_, fun hu hc hs => ?_,
    fun hs => h'.grows (h.grows hs)⟩
  · rw [h'.others fun hu' => hu (hu'.mono fun j hj => .root ((hids j).mpr (.inr hj)))]
    exact h.others fun hu' => hu (hu'.mono fun j hj => .root ((hids j).mpr (.inl hj)))
  · obtain ⟨r, hr, hu⟩ := hu.exists_root
    have hsub : ∀ {rs : List NodeId}, r ∈ rs → Under t rs _ := fun hr =>
      hu.mono fun j hj => .root (by rwa [List.mem_singleton.mp hj])
    rcases (hids r).mp hr with hr | hr
    · exact h'.grows (h.covers (hsub hr) hc hs)
    · exact h'.covers (hsub hr) hc hs

theorem append (h : Walks t ids b b') (h' : Walks t ids' b' b'') : Walks t (ids ++ ids') b b'' :=
  h.trans h' fun _ => List.mem_append

/-- Only what is bound matters. -/
theorem congr {b₁ b₁' : Binder} (h : Walks t ids b b') (hb : b₁.bindings = b.bindings)
    (hb' : b₁'.bindings = b'.bindings) : Walks t ids b₁ b₁' := by
  refine ⟨fun hr => ?_, fun hu => ?_, fun hu hc hs => ?_, fun hs => ?_⟩
  · unfold Right at hr ⊢
    rw [hb'] at *
    rw [hb] at hr
    exact h.right hr
  · rw [hb, hb']
    exact h.others hu
  · rw [hb']
    exact h.covers hu hc hs
  · rw [hb']
    rw [hb] at hs
    exact h.grows hs

/-- A node over parts, which is no name itself. -/
theorem node {id : NodeId} {c : Construct} (hc : t.construct? id = some c)
    (hident : ∀ name, c ≠ .ident name) (h : Walks t c.children b b') : Walks t [id] b b' := by
  refine ⟨h.right, fun hu => h.others fun hu' => hu (hu'.mono fun j hj => ?_),
    fun {u name} hu hu' hs => ?_, h.grows⟩
  · exact Under.slot (.root (List.mem_singleton_self _)) hc hj
  · rcases Under.cases_root hu with rfl | hu
    · rw [hc] at hu'
      exact absurd (Option.some.inj hu') (hident name)
    · rw [SyntaxTree.children_of_construct? hc] at hu
      exact h.covers hu hu' hs

/-- Names that are bound as they are visible are bound rightly if they resolve to what is visible. -/
theorem of_names (h : Names t ids b b')
    (hsee : ∀ {u name}, Under t ids u → t.construct? u = some (.ident name) →
      t.resolve u name.name = (b.scope.get? name.name).map LocalVar.binding) : Walks t ids b b' := by
  have hor : ∀ {u name}, Under t ids u → t.construct? u = some (.ident name) →
      b'.bindings.lookup u = (t.resolve u name.name).or (b.bindings.lookup u) :=
    fun hu hc => (h.bound hu hc).trans (by rw [hsee hu hc])
  refine ⟨fun hr u binding hu => ?_, fun hu => h.others fun _ hu' _ => hu hu', fun hu hc hs => ?_,
    fun {u} hs => ?_⟩
  · by_cases hname : ∃ name, Under t ids u ∧ t.construct? u = some (.ident name)
    · obtain ⟨name, hunder, hc⟩ := hname
      rw [hor hunder hc] at hu
      cases hres : t.resolve u name.name with
      | none =>
        rw [hres] at hu
        exact hr u binding hu
      | some found =>
        rw [hres] at hu
        exact ⟨name, hc, hu ▸ hres⟩
    · rw [h.others fun name hunder hc => hname ⟨name, hunder, hc⟩] at hu
      exact hr u binding hu
  · rw [hor hu hc]
    simp [hs]
  · by_cases hname : ∃ name, Under t ids u ∧ t.construct? u = some (.ident name)
    · obtain ⟨name, hunder, hc⟩ := hname
      rw [hor hunder hc]
      simp [hs]
    · rw [h.others fun name hunder hc => hname ⟨name, hunder, hc⟩]
      exact hs

end Walks

/-! ## 4. Statements -/

/-- Where the node `k` stands in a scope, `f` binds the names below it and declares its variables in
that scope. -/
def Handles (t : SyntaxTree) (k : NodeId) (f : Binder → Binder) : Prop :=
  ∀ (b : Binder) (before : List (String × Binding)) (around : List (List (String × Binding))),
    (∀ own, t.scopesAt own k = (before ++ own) :: around) → b.scope.Shows (before :: around) →
    Walks t [k] b (f b) ∧ (f b).scope.Shows ((before ++ t.declaredBy k) :: around)

/-- What stands in a scope of its own leaves no trace in the scopes around it. -/
theorem Handles.nested {k : NodeId} {f : Binder → Binder} {around : List (List (String × Binding))}
    (h : Handles t k f) (hat : ∀ own, t.scopesAt own k = own :: around)
    (hshow : b.scope.Shows around) :
    Walks t [k] b (f b.enter).leave ∧ (f b.enter).leave.scope.Shows around := by
  obtain ⟨hw, hs⟩ := h b.enter [] around hat hshow.enter
  exact ⟨hw.congr rfl rfl, hs.leave hshow.ne_nil⟩

/-- One statement of a list after another: each sees the variables of those before it. -/
theorem handles_foldl {f : NodeId → Binder → Binder} {all : List NodeId}
    {around : List (List (String × Binding))} (hnodup : all.Nodup)
    (hat : ∀ k ∈ all, ∀ own, t.scopesAt own k =
      ((all.takeWhile (· ≠ k)).flatMap t.declaredBy ++ own) :: around)
    (hf : ∀ k ∈ all, Handles t k (f k)) :
    ∀ (ids done : List NodeId) {b : Binder}, done ++ ids = all →
    b.scope.Shows (done.flatMap t.declaredBy :: around) →
    Walks t ids b (ids.foldl (fun b k => f k b) b) ∧
      (ids.foldl (fun b k => f k b) b).scope.Shows (all.flatMap t.declaredBy :: around)
  | [], done, b, hall, hshow => by
    rw [List.append_nil] at hall
    exact ⟨.nil, hall ▸ hshow⟩
  | k :: ids, done, b, hall, hshow => by
    have hk : k ∈ all := hall ▸ List.mem_append_right _ (List.mem_cons_self ..)
    have hbefore : all.takeWhile (· ≠ k) = done := by
      have hnot : ∀ j ∈ done, decide (j ≠ k) = true := by
        intro j hj
        rw [← hall] at hnodup
        have hne := (List.nodup_append.mp hnodup).2.2 j hj k (List.mem_cons_self ..)
        exact decide_eq_true hne
      rw [← hall, List.takeWhile_append_of_pos hnot]
      simp
    have hstands := hat k hk
    rw [hbefore] at hstands
    obtain ⟨hw, hs⟩ := hf k hk b _ _ hstands hshow
    have hdone : (done ++ [k]).flatMap t.declaredBy = done.flatMap t.declaredBy ++ t.declaredBy k := by
      rw [List.flatMap_append, List.flatMap_singleton]
    rw [← hdone] at hs
    obtain ⟨hws, hss⟩ := handles_foldl hnodup hat hf ids (done ++ [k]) (by simpa using hall) hs
    exact ⟨hw.append hws, hss⟩

theorem variablesOf_concat (decl : NodeId) (vars : List Declarator) (var : Declarator) :
    variablesOf decl (vars ++ [var]) =
      variablesOf decl vars ++ [(var.name.name, .declared decl vars.length)] :=
  List.mapIdx_concat

section Statements

variable (hwf : t.WellFormed) (hlt : ∀ p k : Nat, k ∈ t.children p → k < p)
include hwf hlt

/-- The names of an expression are bound as the scopes around it show them. -/
theorem walks_expr {e : NodeId} {l r : Nat} {scopes : List (List (String × Binding))}
    (he : Fits t (.expr l r) e) (hat : t.scopesAt [] e = scopes) (hshow : b.scope.Shows scopes) :
    Walks t [e] b (expr t e b) ∧ (expr t e b).scope = b.scope := by
  have hsize : e < t.size := by
    cases he with
    | node _ hc _ _ => exact SyntaxTree.lt_size_of_construct? hc
  have hn : Names t [e] b (expr t e b) := names_exprTo (fun i _ k hk => hlt i k hk) hsize
  refine ⟨.of_names hn fun hu _ => ?_, hn.scope⟩
  rw [SyntaxTree.resolve, SyntaxTree.scopesAt_of_under hwf he hu, hat, hshow.get?]

/-- An initializer sees the variables that are declared before its own. -/
theorem walks_declarators {decl : NodeId} {type : WrittenType} {all : List Declarator}
    {before : List (String × Binding)} {around : List (List (String × Binding))}
    (hc : t.construct? decl = some (.localDecl type all))
    (hfit : ∀ e ∈ all.filterMap Declarator.init, ∃ l r, Fits t (.expr l r) e)
    (hat : ∀ own, t.scopesAt own decl = (before ++ own) :: around) :
    ∀ (vars done : List Declarator) {b : Binder}, done ++ vars = all →
    b.scope.Shows ((before ++ variablesOf decl done) :: around) →
    Walks t (vars.filterMap Declarator.init) b (declarators t decl done.length vars b) ∧
      (declarators t decl done.length vars b).scope.Shows ((before ++ variablesOf decl all) :: around)
  | [], done, b, hall, hshow => by
    rw [List.append_nil] at hall
    exact ⟨.nil, hall ▸ hshow⟩
  | ⟨name, none⟩ :: vars, done, b, hall, hshow => by
    have hnext := hshow.declared name.name (.declared decl done.length) name.span
    rw [← Binder.scope_declare, List.append_assoc, ← variablesOf_concat decl done ⟨name, none⟩] at hnext
    obtain ⟨hw, hs⟩ := walks_declarators hc hfit hat vars _ (by simpa using hall) hnext
    rw [List.length_append] at hw hs
    exact ⟨hw.congr (bindings_declare ..).symm rfl, hs⟩
  | ⟨name, some e⟩ :: vars, done, b, hall, hshow => by
    have hkids : t.children decl = done.filterMap Declarator.init ++
        e :: vars.filterMap Declarator.init := by
      rw [SyntaxTree.children_of_construct? hc, Construct.children, ← hall, List.filterMap_append]
      rfl
    have hmem : e ∈ t.children decl := by
      rw [hkids]
      exact List.mem_append_right _ (List.mem_cons_self ..)
    -- no initializer before has the same node
    have hbefore : all.takeWhile (·.init ≠ some e) = done := by
      have hnot : ∀ var ∈ done, decide (var.init ≠ some e) = true := by
        intro var hvar
        refine decide_eq_true fun hinit => ?_
        have hnodup := hwf.nodup decl
        rw [hkids] at hnodup
        exact (List.nodup_append.mp hnodup).2.2 e (List.mem_filterMap.mpr ⟨var, hvar, hinit⟩) e
          (List.mem_cons_self ..) rfl
      rw [← hall, List.takeWhile_append_of_pos hnot]
      simp
    have hscopes : t.scopesAt [] e = (before ++ variablesOf decl done) :: around := by
      rw [SyntaxTree.scopesAt_of_slot hwf hmem, SyntaxTree.scopesAlong, hc]
      dsimp only
      rw [hbefore]
      exact hat _
    obtain ⟨l, r, he⟩ := hfit e (by rwa [SyntaxTree.children_of_construct? hc] at hmem)
    obtain ⟨hwe, hse⟩ := walks_expr hwf hlt he hscopes hshow
    rw [← hse] at hshow
    have hnext := hshow.declared name.name (.declared decl done.length) name.span
    rw [← Binder.scope_declare, List.append_assoc, ← variablesOf_concat decl done ⟨name, some e⟩] at hnext
    obtain ⟨hw, hs⟩ := walks_declarators hc hfit hat vars _ (by simpa using hall) hnext
    rw [List.length_append] at hw hs
    exact ⟨hwe.append (hw.congr (bindings_declare ..).symm rfl), hs⟩

omit hlt in
/-- A block adds a scope to those around it and takes it away again. -/
theorem walks_block {id : NodeId} {stmts : List NodeId} {scopes : List (List (String × Binding))}
    {f : NodeId → Binder → Binder} (hc : t.construct? id = some (.block stmts))
    (hat : t.scopesAt [] id = scopes) (hshow : b.scope.Shows scopes)
    (hf : ∀ k ∈ stmts, Handles t k (f k)) :
    Walks t [id] b (stmts.foldl (fun b k => f k b) b.enter).leave ∧
      (stmts.foldl (fun b k => f k b) b.enter).leave.scope.Shows scopes := by
  have hkids : t.children id = stmts := SyntaxTree.children_of_construct? hc
  have hstands : ∀ k ∈ stmts, ∀ own, t.scopesAt own k =
      ((stmts.takeWhile (· ≠ k)).flatMap t.declaredBy ++ own) :: scopes := by
    intro k hk own
    rw [SyntaxTree.scopesAt_of_slot hwf (hkids ▸ hk), SyntaxTree.scopesAlong, hc, ← hat]
    rfl
  obtain ⟨hw, hs⟩ := handles_foldl (b := b.enter) (hkids ▸ hwf.nodup id) hstands hf stmts [] rfl
    hshow.enter
  exact ⟨.node hc (by simp) (hw.congr rfl rfl), hs.leave hshow.ne_nil⟩

/-- An expression in a slot that opens no scope sees what its statement sees. -/
theorem walks_expr_slot {id e : NodeId} {c : Construct} {l r : Nat}
    {scopes : List (List (String × Binding))} (hc : t.construct? id = some c) (hmem : e ∈ c.children)
    (he : Fits t (.expr l r) e) (hat : t.scopesAt [] id = scopes)
    (hstep : ∀ above, t.scopesAlong [] e (id :: above) = t.scopesAlong [] id above)
    (hshow : b.scope.Shows scopes) :
    Walks t [e] b (expr t e b) ∧ (expr t e b).scope.Shows scopes := by
  have hscopes : t.scopesAt [] e = scopes := by
    rw [SyntaxTree.scopesAt_of_slot hwf (SyntaxTree.children_of_construct? hc ▸ hmem), hstep]
    exact hat
  obtain ⟨hw, hs⟩ := walks_expr hwf hlt he hscopes hshow
  exact ⟨hw, hs ▸ hshow⟩

omit hlt in
/-- A statement in a slot that opens a scope leaves what its parent sees as it is. -/
theorem walks_nested_slot {id k : NodeId} {c : Construct} {f : Binder → Binder}
    {scopes : List (List (String × Binding))} (hc : t.construct? id = some c) (hmem : k ∈ c.children)
    (hf : Handles t k f) (hat : t.scopesAt [] id = scopes)
    (hstep : ∀ own above, t.scopesAlong own k (id :: above) = own :: t.scopesAlong [] id above)
    (hshow : b.scope.Shows scopes) :
    Walks t [k] b (f b.enter).leave ∧ (f b.enter).leave.scope.Shows scopes := by
  refine hf.nested (fun own => ?_) hshow
  rw [SyntaxTree.scopesAt_of_slot hwf (SyntaxTree.children_of_construct? hc ▸ hmem), hstep]
  exact congrArg _ hat

/-- **The names of a statement are bound as they resolve**, and its variables are declared where it
stands. -/
theorem handles_stmtTo : ∀ {depth id : Nat} {d : Bool}, Fits t (.stmt d) id → id < depth →
    Handles t id (stmtTo t depth id)
  | 0, _, _, _, hd => absurd hd (Nat.not_lt_zero _)
  | depth + 1, id, d, .node (c := c) ρ hc ha hk, hd => by
    intro b before around hat hshow
    have hkids := SyntaxTree.children_of_construct? hc
    have hhere : t.scopesAt [] id = before :: around := by
      rw [hat, List.append_nil]
    have hstmt : ∀ {k : NodeId} {d : Bool}, k ∈ c.children → ρ k = .stmt d →
        Handles t k (stmtTo t depth k) := by
      intro k d hmem hρ
      have hkid : k < id := hlt id k (by rwa [hkids])
      exact handles_stmtTo (d := d) (hρ ▸ hk k hmem) (Nat.lt_of_lt_of_le hkid (Nat.le_of_lt_succ hd))
    have hnodup : c.children.Nodup := hkids ▸ hwf.nodup id
    have hexpr : ∀ {e : NodeId} {l r : Nat} {b : Binder}, e ∈ c.children → ρ e = .expr l r →
        (∀ above, t.scopesAlong [] e (id :: above) = t.scopesAlong [] id above) →
        b.scope.Shows (before :: around) →
        Walks t [e] b (expr t e b) ∧ (expr t e b).scope.Shows (before :: around) :=
      fun hmem hρ hstep => walks_expr_slot hwf hlt hc hmem (hρ ▸ hk _ hmem) hhere hstep
    have hnested : ∀ {k : NodeId} {d : Bool} {b : Binder}, k ∈ c.children → ρ k = .stmt d →
        (∀ own above, t.scopesAlong own k (id :: above) = own :: t.scopesAlong [] id above) →
        b.scope.Shows (before :: around) →
        Walks t [k] b (stmtTo t depth k b.enter).leave ∧
          (stmtTo t depth k b.enter).leave.scope.Shows (before :: around) :=
      fun hmem hρ hstep => walks_nested_slot hwf hc hmem (hstmt hmem hρ) hhere hstep
    unfold stmtTo SyntaxTree.declaredBy
    rw [hc]
    cases ha with
    | exprStmt he _ | yieldStmt he =>
      obtain ⟨hw, hs⟩ := hexpr (List.mem_singleton_self _) he
        (fun above => by rw [SyntaxTree.scopesAlong, hc]) hshow
      exact ⟨.node hc (by simp) hw, by simpa using hs⟩
    | @localDecl _ vars _ hv =>
      have hfit : ∀ e ∈ vars.filterMap Declarator.init, ∃ l r, Fits t (.expr l r) e := by
        intro e he
        obtain ⟨l, r, hρ⟩ := hv e he
        exact ⟨l, r, hρ ▸ hk e he⟩
      obtain ⟨hw, hs⟩ := walks_declarators hwf hlt hc hfit hat vars [] rfl
        (by rwa [variablesOf, List.mapIdx_nil, List.append_nil])
      exact ⟨.node hc (by simp) hw, hs⟩
    | @returnStmt value hv =>
      cases value with
      | none =>
        rw [List.append_nil]
        exact ⟨.node hc (by simp) .nil, hshow⟩
      | some e =>
        rw [List.append_nil]
        obtain ⟨l, r, he⟩ := hv e rfl
        obtain ⟨hw, hs⟩ := hexpr (List.mem_singleton_self _) he
          (fun above => by rw [SyntaxTree.scopesAlong, hc]) hshow
        exact ⟨.node hc (by simp) hw, hs⟩
    | breakStmt | continueStmt | emptyStmt =>
      exact ⟨.node hc (by simp) .nil, by simpa using hshow⟩
    | block hs =>
      rw [List.append_nil]
      refine walks_block hwf hc hhere hshow fun k hmem => ?_
      obtain ⟨d, hρ⟩ := hs k hmem
      exact hstmt hmem hρ
    | @ifThen e a l r d he ha | @whileStmt e a l r d he ha =>
      have hne : a ≠ e := by
        rintro rfl
        simp [Construct.children] at hnodup
      obtain ⟨hwe, hse⟩ := hexpr (by simp [Construct.children]) he
        (fun above => by rw [SyntaxTree.scopesAlong, hc]; exact if_pos rfl) hshow
      obtain ⟨hwa, hsa⟩ := hnested (by simp [Construct.children]) ha
        (fun own above => by rw [SyntaxTree.scopesAlong, hc]; exact if_neg hne) hse
      exact ⟨.node hc (by simp) (hwe.append hwa), by simpa using hsa⟩
    | @ifElse e a a' l r d he ha ha' =>
      have hne : a ≠ e ∧ a' ≠ e := by
        constructor <;> rintro rfl <;> simp [Construct.children] at hnodup
      obtain ⟨hwe, hse⟩ := hexpr (by simp [Construct.children]) he
        (fun above => by rw [SyntaxTree.scopesAlong, hc]; exact if_pos rfl) hshow
      obtain ⟨hwa, hsa⟩ := hnested (by simp [Construct.children]) ha
        (fun own above => by rw [SyntaxTree.scopesAlong, hc]; exact if_neg hne.1) hse
      obtain ⟨hwa', hsa'⟩ := hnested (by simp [Construct.children]) ha'
        (fun own above => by rw [SyntaxTree.scopesAlong, hc]; exact if_neg hne.2) hsa
      exact ⟨.node hc (by simp) ((hwe.append hwa).append hwa'), by simpa using hsa'⟩
    | @doStmt e a l r d ha he =>
      -- the condition is bound first, though it comes after the body
      have hne : a ≠ e := by
        rintro rfl
        simp [Construct.children] at hnodup
      obtain ⟨hwe, hse⟩ := hexpr (by simp [Construct.children]) he
        (fun above => by rw [SyntaxTree.scopesAlong, hc]; exact if_pos rfl) hshow
      obtain ⟨hwa, hsa⟩ := hnested (by simp [Construct.children]) ha
        (fun own above => by rw [SyntaxTree.scopesAlong, hc]; exact if_neg hne) hse
      refine ⟨.node hc (by simp) (hwe.trans hwa fun k => ?_), by simpa using hsa⟩
      simp [Construct.children, or_comm]

/-! ## 5. Functions and programs -/

omit hwf hlt in
/-- The parameters of a function are declared one after another. -/
theorem shows_params (id : NodeId) : ∀ (ps done : List Param) {b : Binder},
    b.scope.Shows [parametersOf id done] →
    (params id done.length ps b).scope.Shows [parametersOf id (done ++ ps)] ∧
      (params id done.length ps b).bindings = b.bindings
  | [], done, b, hshow => by
    rw [List.append_nil]
    exact ⟨hshow, rfl⟩
  | p :: ps, done, b, hshow => by
    have hconcat : parametersOf id (done ++ [p]) =
        parametersOf id done ++ [(p.name.name, .parameter id done.length)] := List.mapIdx_concat
    have hnext := hshow.declared p.name.name (.parameter id done.length) p.name.span
    rw [← Binder.scope_declare, ← hconcat] at hnext
    obtain ⟨hs, hb⟩ := shows_params id ps _ hnext
    rw [List.length_append, List.append_assoc] at hs
    rw [List.length_append] at hb
    exact ⟨hs, hb.trans (bindings_declare ..)⟩

/-- The body of a function sees its parameters and nothing around the function. -/
theorem walks_function {id body : NodeId} {type : WrittenType} {name : Ident} {ps : List Param}
    (hc : t.construct? id = some (.function type name ps body)) (hbody : Fits t .body body) :
    Walks t [id] b (function t id ps body b) := by
  have hmem : body ∈ t.children id := by
    rw [SyntaxTree.children_of_construct? hc]
    exact List.mem_singleton_self _
  obtain ⟨hshow, hb⟩ := shows_params id ps [] (b := { b with scope := .empty }) .empty
  cases hbody with
  | node ρ hblock ha hk =>
    cases ha with
    | @body stmts hstmts =>
      obtain ⟨depth, hdepth⟩ := Nat.exists_eq_succ_of_ne_zero
        (Nat.ne_zero_of_lt (SyntaxTree.lt_size_of_construct? hblock))
      have hscopes : t.scopesAt [] body = [parametersOf id ps] := by
        rw [SyntaxTree.scopesAt_of_slot hwf hmem, SyntaxTree.scopesAlong, hc]
      obtain ⟨hw, -⟩ := walks_block hwf (f := stmtTo t depth) hblock hscopes hshow fun k hmem => by
        obtain ⟨d, hρ⟩ := hstmts k hmem
        have hkid : k < body := hlt body k (by rwa [SyntaxTree.children_of_construct? hblock])
        have hsize := SyntaxTree.lt_size_of_construct? hblock
        rw [hdepth] at hsize
        exact handles_stmtTo hwf hlt (d := d) (hρ ▸ hk k hmem)
          (Nat.lt_of_lt_of_le hkid (Nat.le_of_lt_succ hsize))
      refine .node hc (by simp) (hw.congr hb.symm ?_)
      rw [function, isolated, stmt, hdepth, stmtTo, hblock]
      rfl

/-- A member of a class sees nothing around it. -/
theorem walks_classMember {id : NodeId} (hid : Fits t .member id) :
    Walks t [id] b (classMember t b id) ∧ (classMember t b id).scope = b.scope := by
  cases hid with
  | node ρ hc ha hk =>
    unfold classMember
    rw [hc]
    cases ha with
    | method hs =>
      exact ⟨walks_function hwf hlt hc (hs ▸ hk _ (List.mem_singleton_self _)), rfl⟩
    | property => exact ⟨.node hc (by simp) .nil, rfl⟩
    | @field type name init hi =>
      cases init with
      | none => exact ⟨.node hc (by simp) .nil, rfl⟩
      | some e =>
        obtain ⟨l, r, hρ⟩ := hi e rfl
        have he : Fits t (.expr l r) e := hρ ▸ hk e (List.mem_singleton_self _)
        have hmem : e ∈ t.children id := by
          rw [SyntaxTree.children_of_construct? hc]
          exact List.mem_singleton_self _
        have hnone : t.scopesAt [] e = [] := by
          rw [SyntaxTree.scopesAt_of_slot hwf hmem, SyntaxTree.scopesAlong, hc]
        have hn : Names t [e] { b with scope := .empty } (expr t e { b with scope := .empty }) :=
          names_exprTo (fun i _ k hk => hlt i k hk)
            (Nat.lt_trans (hlt id e hmem) (SyntaxTree.lt_size_of_construct? hc))
        have hw := Walks.of_names hn fun hu _ => by
          rw [SyntaxTree.resolve, SyntaxTree.scopesAt_of_under hwf he hu, hnone]
          rfl
        exact ⟨.node hc (by simp) (hw.congr rfl rfl), rfl⟩

theorem walks_classMembers : ∀ {ids : List NodeId} {b : Binder}, (∀ k ∈ ids, Fits t .member k) →
    Walks t ids b (ids.foldl (classMember t) b) ∧ (ids.foldl (classMember t) b).scope = b.scope
  | [], _, _ => ⟨.nil, rfl⟩
  | k :: ids, b, hids => by
    obtain ⟨hw, hs⟩ := walks_classMember hwf hlt (b := b) (hids k (List.mem_cons_self ..))
    obtain ⟨hws, hss⟩ := walks_classMembers fun k hk => hids k (List.mem_cons_of_mem _ hk)
    exact ⟨hw.append hws, hss.trans hs⟩

/-- Classes and functions of a program declare no variable, its statements do. -/
theorem handles_item {id : NodeId} (hid : Fits t .item id) : Handles t id fun b => item t b id := by
  intro b before around hat hshow
  cases hid with
  | node ρ hc ha hk =>
    cases ha with
    | function hs =>
      simp only [item, hc, SyntaxTree.declaredBy, List.append_nil]
      exact ⟨walks_function hwf hlt hc (hs ▸ hk _ (List.mem_singleton_self _)), hshow⟩
    | classDecl hm =>
      simp only [item, hc, SyntaxTree.declaredBy, List.append_nil]
      obtain ⟨hw, hs⟩ := walks_classMembers hwf hlt (b := b) fun k hmem => hm k hmem ▸ hk k hmem
      exact ⟨.node hc (by simp) hw, hs ▸ hshow⟩
    | item ha _ =>
      have hstmt : item t b id = stmt t id b := by
        unfold item
        rw [hc]
        cases ha <;> rfl
      dsimp only
      rw [hstmt]
      exact handles_stmtTo hwf hlt (.node ρ hc ha hk) (SyntaxTree.lt_size_of_construct? hc) b before
        around hat hshow

/-- **The binder binds the names of a program as they resolve.** -/
theorem walks_ofTree {items : List NodeId} (hroot : t.construct? t.root = some (.unit items))
    (hitems : ∀ k ∈ items, Fits t .item k) : Walks t [t.root] empty (ofTree t) := by
  have hkids : t.children t.root = items := SyntaxTree.children_of_construct? hroot
  have htop : t.ancestors t.root = [] := by
    rw [SyntaxTree.ancestors, SyntaxTree.climb.eq_def]
    split
    · rfl
    · rw [hwf.top]
  have hstands : ∀ k ∈ items, ∀ own, t.scopesAt own k =
      [(items.takeWhile (· ≠ k)).flatMap t.declaredBy ++ own] := by
    intro k hk own
    rw [SyntaxTree.scopesAt_of_slot hwf (hkids ▸ hk), htop, SyntaxTree.scopesAlong, hroot]
    rfl
  obtain ⟨hw, -⟩ := handles_foldl (b := empty) (hkids ▸ hwf.nodup t.root) hstands
    (fun k hk => handles_item hwf hlt (hitems k hk)) items [] rfl .empty
  rw [ofTree, hkids]
  exact .node hroot (by simp) hw

end Statements

end Binder

theorem Analysis.binding?_ofTree (t : SyntaxTree) (u : NodeId) :
    (ofTree t).binding? u = (Binder.ofTree t).bindings.lookup u := rfl

theorem parseLenient_walks (text : String) :
    Binder.Walks (parseLenient text).1 [(parseLenient text).1.root] .empty
      (.ofTree (parseLenient text).1) := by
  obtain ⟨-, -, -, items, -, -, -, hroot, -, hfit, -⟩ := parseLenient_sound text
  exact Binder.walks_ofTree (parseLenient_wellFormed text) (parseLenient_slotted text).lt hroot hfit

/-- Whatever is bound is a name of the program, and bound to what it resolves to. -/
theorem parseLenient_resolves (text : String) {u : NodeId} {binding : Binding}
    (h : (Analysis.ofTree (parseLenient text).1).binding? u = some binding) :
    (parseLenient text).1.InTree u ∧
      ∃ name, (parseLenient text).1.construct? u = some (.ident name) ∧
        (parseLenient text).1.resolve u name.name = some binding := by
  have hw := parseLenient_walks text
  rw [Analysis.binding?_ofTree] at h
  refine ⟨Classical.byContradiction fun hu => ?_, hw.right (fun _ _ h => nomatch h) u binding h⟩
  have hnone := hw.others hu
  rw [h] at hnone
  cases hnone

/-- **Every name of a program is bound to what it resolves to**: the first declaration of the name in
the innermost scope around it that has one before it. -/
theorem parseLenient_binding (text : String) {u : NodeId} {name : Ident}
    (hu : (parseLenient text).1.isAttached u = true)
    (hc : (parseLenient text).1.construct? u = some (.ident name)) :
    (Analysis.ofTree (parseLenient text).1).binding? u =
      (parseLenient text).1.resolve u name.name := by
  have hin : (parseLenient text).1.InTree u := (parseLenient_wellFormed text).isAttached_iff.mp hu
  cases hb : (Analysis.ofTree (parseLenient text).1).binding? u with
  | some binding =>
    obtain ⟨-, name', hc', hres⟩ := parseLenient_resolves text hb
    rw [hc] at hc'
    cases hc'
    exact hres.symm
  | none =>
    cases hres : (parseLenient text).1.resolve u name.name with
    | none => rfl
    | some binding =>
      have hsome := (parseLenient_walks text).covers hin hc (by rw [hres]; rfl)
      rw [← Analysis.binding?_ofTree, hb] at hsome
      cases hsome

/-- A body without braces is a scope: the `c` that is declared in it is seen by the initializer after
it, and gone after the body. -/
theorem parseLenient_binding_of_unbraced_body :
    let a := Analysis.ofTree (parseLenient "int c; if (c) int c, d = c; return c;").1
    a.binding? 2 = some (.declared 3 0) ∧ a.binding? 5 = some (.declared 0 0) := by
  intro a
  have hinner : a.binding? 2 = _ := @parseLenient_binding _ 2 ⟨"c", 25, 1, 1, 26⟩
    (by decide +kernel) (by decide +kernel)
  have houter : a.binding? 5 = _ := @parseLenient_binding _ 5 ⟨"c", 35, 1, 1, 36⟩
    (by decide +kernel) (by decide +kernel)
  exact ⟨hinner.trans (by decide +kernel), houter.trans (by decide +kernel)⟩

end Recast
