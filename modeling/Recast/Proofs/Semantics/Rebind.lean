/-
# Binding names around a new statement

A statement of a program gives its place to another one, which declares the same names over
expressions with the same names in them.  Then every name that is kept is bound as before, except that
what was bound to the old declaration is bound to the new one.

* `Binder.Names`: what it does to bind the names of an expression;
* `Moves t u o n s`: the statement `s` of `u` does what the statement `o` of `t` did, by itself or in a
  block `n`;
* `Agrees`: names that are kept are bound to the same, and so are equal names of the old and the new
  statement; `Mirrors`: the same along a walk, with what is visible;
* `Moves.agrees_ofTree`: **the names of the program are bound as before.**
-/
import Recast.Proofs.Grammar.Context
import Recast.Proofs.Semantics.Scopes
import Recast.Semantics.Binder

namespace Recast

open SyntaxTree (Rewrites Kept Under)

/-! ## 1. Names in an expression -/

namespace Binder

variable {t : SyntaxTree} {b b' b'' : Binder} {ids ids' : List NodeId}

/-- What is bound after `b` is what `b` has bound and the names below `ids`, as `b` sees them. -/
structure Names (t : SyntaxTree) (ids : List NodeId) (b b' : Binder) : Prop where
  scope : b'.scope = b.scope
  bound : ∀ {i name}, Under t ids i → t.construct? i = some (.ident name) →
    b'.bindings.lookup i =
      ((b.scope.get? name.name).map LocalVar.binding).or (b.bindings.lookup i)
  others : ∀ {i}, (∀ name, Under t ids i → t.construct? i ≠ some (.ident name)) →
    b'.bindings.lookup i = b.bindings.lookup i

namespace Names

theorem nil : Names t [] b b := by
  refine ⟨rfl, fun hi => ?_, fun _ => rfl⟩
  obtain ⟨r, hr, -⟩ := hi.exists_root
  cases hr

/-- A name that is bound twice in the same scope is bound to the same. -/
theorem append (h : Names t ids b b') (h' : Names t ids' b' b'') : Names t (ids ++ ids') b b'' := by
  have hcases : ∀ {i}, Under t (ids ++ ids') i ↔ Under t ids i ∨ Under t ids' i := by
    intro i
    constructor
    · intro hi
      obtain ⟨r, hr, hi⟩ := hi.exists_root
      have hsub : ∀ {rs : List NodeId}, r ∈ rs → Under t rs i := fun hr =>
        hi.mono fun j hj => .root (by rwa [List.mem_singleton.mp hj])
      exact (List.mem_append.mp hr).imp hsub hsub
    · rintro (hi | hi) <;> exact hi.mono fun j hj => .root (by simp [hj])
  refine ⟨h'.scope.trans h.scope, fun {i name} hi hc => ?_, fun {i} hno => ?_⟩
  · by_cases hi' : Under t ids' i
    · rw [h'.bound hi' hc, h.scope]
      by_cases hi'' : Under t ids i
      · rw [h.bound hi'' hc, ← Option.or_assoc, Option.or_self]
      · rw [h.others fun _ hu => absurd hu hi'']
    · rw [h'.others fun _ hu => absurd hu hi', h.bound ((hcases.mp hi).resolve_right hi') hc]
  · rw [h'.others fun name hu => hno name (hcases.mpr (.inr hu)),
      h.others fun name hu => hno name (hcases.mpr (.inl hu))]

/-- A node over parts, which is no name itself. -/
theorem node {id : NodeId} {c : Construct} (h : Names t c.children b b')
    (hc : t.construct? id = some c) (hident : ∀ name, c ≠ .ident name) : Names t [id] b b' := by
  rw [← SyntaxTree.children_of_construct? hc] at h
  refine ⟨h.scope, fun {i name} hi hi' => ?_, fun {i} hno => h.others fun name hu => hno name ?_⟩
  · rcases Under.cases_root hi with rfl | hi
    · rw [hc] at hi'
      exact absurd (Option.some.inj hi') (hident name)
    · exact h.bound hi hi'
  · exact hu.mono fun j hj => .child (.root (List.mem_singleton_self _)) hj

end Names

theorem names_foldl {f : NodeId → Binder → Binder} :
    ∀ {ids : List NodeId} {b : Binder}, (∀ k ∈ ids, ∀ b, Names t [k] b (f k b)) →
    Names t ids b (ids.foldl (fun b k => f k b) b)
  | [], _, _ => .nil
  | k :: ids, b, hf => by
    rw [List.foldl_cons]
    exact (hf k (List.mem_cons_self ..) b).append
      (names_foldl fun j hj => hf j (List.mem_cons_of_mem _ hj))

/-- A name alone. -/
theorem names_use {id : NodeId} {name : Ident} (hc : t.construct? id = some (.ident name)) :
    Names t [id] b (b.use id name.name) := by
  have hroot : Under t [id] id := .root (List.mem_singleton_self _)
  have honly : ∀ {i}, Under t [id] i → i = id := by
    intro i hi
    rcases Under.cases_root hi with rfl | hi
    · rfl
    · rw [SyntaxTree.children_of_construct? hc] at hi
      obtain ⟨r, hr, -⟩ := hi.exists_root
      cases hr
  unfold use
  split
  · rename_i v hv
    refine ⟨rfl, fun {i name'} hi hi' => ?_, fun {i} hno => ?_⟩
    · obtain rfl := honly hi
      rw [hc] at hi'
      cases hi'
      rw [hv, List.lookup_cons_self]
      rfl
    · have hne : i ≠ id := by
        rintro rfl
        exact hno name hroot hc
      rw [List.lookup_cons, beq_eq_false_iff_ne.mpr hne]
  · rename_i hv
    refine ⟨rfl, fun {i name'} hi hi' => ?_, fun _ => rfl⟩
    obtain rfl := honly hi
    rw [hc] at hi'
    cases hi'
    rw [hv]
    rfl

/-- **The names of an expression are bound as they are visible before it.** -/
theorem names_exprTo : ∀ {depth id : Nat} {b : Binder},
    (∀ i : Nat, Under t [id] i → ∀ k : Nat, k ∈ t.children i → k < i) → id < depth →
    Names t [id] b (exprTo t depth id b)
  | 0, _, _, _, hlt => absurd hlt (Nat.not_lt_zero _)
  | depth + 1, id, b, hdesc, hlt => by
    have hroot : Under t [id] id := .root (List.mem_singleton_self _)
    unfold exprTo
    split
    · rename_i hc
      exact names_use hc
    · rename_i c hident hc
      refine .node (names_foldl fun k hk b => ?_) hc hident
      rw [← SyntaxTree.children_of_construct? hc] at hk
      refine names_exprTo (fun i hi => hdesc i (hi.mono fun j hj => ?_))
        (Nat.lt_of_lt_of_le (hdesc id hroot k hk) (Nat.le_of_lt_succ hlt))
      rw [List.mem_singleton.mp hj]
      exact .child hroot hk
    · rename_i hc
      refine ⟨rfl, fun {i name} hi hi' => ?_, fun _ => rfl⟩
      rcases Under.cases_root hi with rfl | hi
      · rw [hc] at hi'
        cases hi'
      · rw [SyntaxTree.children, hc] at hi
        obtain ⟨r, hr, -⟩ := hi.exists_root
        cases hr

end Binder

/-! ## 2. A statement that moves -/

/-- What was bound to a variable of the old statement is bound to that of the new one. -/
def Binding.move (o s : NodeId) : Binding → Binding
  | declared decl index => declared (substNode o s decl) index
  | parameter function index => parameter function index

/-- The expressions that a statement or a field has by itself. -/
def Construct.exprs : Construct → List NodeId
  | exprStmt e | yieldStmt e | ifStmt e _ _ | whileStmt e _ | doStmt _ e => [e]
  | returnStmt value => value.toList
  | localDecl _ vars => vars.filterMap Declarator.init
  | field _ _ init => init.toList
  | _ => []

/-- Both statements bind the names of one expression, and then both declare a name, the same one, or
none. -/
structure SameWalk (t u : SyntaxTree) (o s : NodeId) : Prop where
  old : t.isStatement o = true
  new : u.isStatement s = true
  walk : ∃ x y, t.children o = [x] ∧ u.children s = [y] ∧
    (((∀ d b, Binder.stmtTo t (d + 1) o b = Binder.expr t x b) ∧
        ∀ d b, Binder.stmtTo u (d + 1) s b = Binder.expr u y b) ∨
      ∃ name name' : Ident, name.name = name'.name ∧
        (∀ d b, Binder.stmtTo t (d + 1) o b = (Binder.expr t x b).declare name (.declared o 0)) ∧
        ∀ d b, Binder.stmtTo u (d + 1) s b = (Binder.expr u y b).declare name' (.declared s 0))

/-- The statement `s` of `u` does what the statement `o` of `t` did: in the place of it in a list of
statements, and elsewhere in a block `n`. -/
structure Moves (t u : SyntaxTree) (o n s : NodeId) : Prop where
  rewrites : Rewrites t o n u
  program : t.isBlock t.root = true
  descends : ∀ p k : Nat, k ∈ t.children p → k < p
  apart : ∀ {q c e}, t.InTree q → t.construct? q = some c → e ∈ c.exprs → ¬ Under t [e] o
  undeclared : ∀ {q c}, t.InTree q → t.construct? q = some c →
    c.isFunction = true ∨ c.isClass = true → o ∉ c.children
  placed : ∃ p, t.parent? o = some p ∧ ((t.isBlock p = true ∧ n = s) ∨
    (t.isBlock p = false ∧ u.construct? n = some (.block [s])))
  walks : SameWalk t u o s

/-- Names that are kept are bound to the same, and so are equal names of the old and the new
statement. -/
structure Agrees (t u : SyntaxTree) (o n s : NodeId) (b b' : Binder) : Prop where
  kept : ∀ {i}, Kept t o i → b'.bindings.lookup i = (b.bindings.lookup i).map (.move o s)
  moved : ∀ {i j name name'}, Under t [o] i → t.construct? i = some (.ident name) → Under u [n] j →
    u.construct? j = some (.ident name') → name.name = name'.name →
    b'.bindings.lookup j = (b.bindings.lookup i).map (.move o s)

/-- The same names are visible. -/
def Sees (o s : NodeId) (b b' : Binder) : Prop :=
  ∀ name, (b'.scope.get? name).map LocalVar.binding =
    ((b.scope.get? name).map LocalVar.binding).map (.move o s)

section

variable {t u : SyntaxTree} {o n s : NodeId} {b b' b₁ b₁' : Binder}

/-- Names that are visible alike are bound alike. -/
theorem Agrees.names (h : Agrees t u o n s b b') (hsee : Sees o s b b') {ids ids' : List NodeId}
    (hn : Binder.Names t ids b b₁) (hn' : Binder.Names u ids' b' b₁')
    (hkept : ∀ i name, Kept t o i → ((Under t ids i ∧ t.construct? i = some (.ident name)) ↔
      (Under u ids' i ∧ u.construct? i = some (.ident name))))
    (hmoved : ∀ i j name name', Under t [o] i → t.construct? i = some (.ident name) → Under u [n] j →
      u.construct? j = some (.ident name') → (Under t ids i ↔ Under u ids' j)) :
    Agrees t u o n s b₁ b₁' := by
  refine ⟨fun {i} hi => ?_, fun {i j name name'} hi hc hj hd hname => ?_⟩
  · by_cases hname : ∃ name, Under t ids i ∧ t.construct? i = some (.ident name)
    · obtain ⟨name, hu, hc⟩ := hname
      obtain ⟨hu', hc'⟩ := (hkept i name hi).mp ⟨hu, hc⟩
      rw [hn.bound hu hc, hn'.bound hu' hc', hsee, h.kept hi, Option.map_or]
    · rw [hn.others fun name hu hc => hname ⟨name, hu, hc⟩, h.kept hi |>.symm,
        hn'.others fun name hu hc => hname ⟨name, (hkept i name hi).mpr ⟨hu, hc⟩⟩]
  · have hiff := hmoved i j name name' hi hc hj hd
    by_cases hu : Under t ids i
    · rw [hn.bound hu hc, hn'.bound (hiff.mp hu) hd, ← hname, hsee, h.moved hi hc hj hd hname,
        Option.map_or]
    · rw [hn.others fun _ hu' => absurd hu' hu, hn'.others fun _ hu' => absurd (hiff.mpr hu') hu]
      exact h.moved hi hc hj hd hname

namespace Moves

variable (h : Moves t u o n s)
include h

theorem lt_size_old : o < t.size := by
  obtain ⟨p, hp, -⟩ := h.placed
  exact SyntaxTree.lt_size_of_up hp

/-- Below a node that is apart from the old one everything stays. -/
theorem under_iff {e i : NodeId} (hk : Kept t o e) (hno : ¬ Under t [e] o) :
    Under u [e] i ↔ Under t [e] i := by
  have hkids : ∀ {q}, Under t [e] q → u.children q = t.children q := by
    intro q hq
    rw [SyntaxTree.children, SyntaxTree.children, h.rewrites.construct?_below hk hno hq]
  have hback : ∀ {i}, Under u [e] i → Under t [e] i :=
    fun hi => hi.transfer fun q hq k hk => hkids hq ▸ hk
  exact ⟨hback, fun hi => hi.transfer fun q hq k hk => (hkids (hback hq)).symm ▸ hk⟩

/-- **The names of an expression that is kept are bound as before.** -/
theorem agrees_expr {e : NodeId} (hk : Kept t o e) (hno : ¬ Under t [e] o)
    (ha : Agrees t u o n s b b') (hsee : Sees o s b b') :
    Agrees t u o n s (Binder.expr t e b) (Binder.expr u e b') ∧
      (Binder.expr t e b).scope = b.scope ∧ (Binder.expr u e b').scope = b'.scope := by
  have hlt := h.rewrites.lt_size_of_kept hk
  have hbelow : ∀ {i}, Under t [e] i → u.construct? i = t.construct? i :=
    fun hi => h.rewrites.construct?_below hk hno hi
  have hn : Binder.Names t [e] b (Binder.expr t e b) :=
    Binder.names_exprTo (fun i _ k hki => h.descends i k hki) hlt
  have hn' : Binder.Names u [e] b' (Binder.expr u e b') := by
    refine Binder.names_exprTo (fun i hi k hki => h.descends i k ?_)
      (Nat.lt_of_lt_of_le hlt h.rewrites.size_le)
    rwa [SyntaxTree.children, hbelow ((h.under_iff hk hno).mp hi)] at hki
  refine ⟨ha.names hsee hn hn' (fun i name _ => ?_) fun i j name name' hi _ hj _ => ?_, hn.scope,
    hn'.scope⟩
  · rw [h.under_iff hk hno]
    constructor
    · rintro ⟨hu, hc⟩
      exact ⟨hu, (hbelow hu).trans hc⟩
    · rintro ⟨hu, hc⟩
      exact ⟨hu, (hbelow hu).symm.trans hc⟩
  · have hi' : ¬ Under t [e] i := by
      intro hu
      rcases h.rewrites.before.comparable hi hu with hc | hc
      · exact hk.2 hc
      · exact hno hc
    refine ⟨fun hu => absurd hu hi', fun hu => ?_⟩
    have hkept : Kept t o j := by
      have hu := (h.under_iff hk hno).mp hu
      refine ⟨hu.mono fun r hr => ?_, fun hoj => ?_⟩
      · rw [List.mem_singleton.mp hr]
        exact hk.1
      · rcases h.rewrites.before.comparable hoj hu with hc | hc
        · exact hk.2 hc
        · exact hno hc
    exact absurd hkept (h.rewrites.not_kept_of_under hj)

/-- The new statement is below the new node. -/
theorem under_new : Under u [n] s := by
  obtain ⟨p, -, ⟨-, rfl⟩ | ⟨-, hn⟩⟩ := h.placed
  · exact .root (List.mem_singleton_self _)
  · exact Under.slot (.root (List.mem_singleton_self _)) hn (List.mem_singleton_self _)

/-- The names of the new node are in the expression of the new statement. -/
theorem under_of_name {y j : NodeId} {name : Ident} (hy : u.children s = [y]) (hj : Under u [n] j)
    (hc : u.construct? j = some (.ident name)) : Under u [y] j := by
  have hstmt : ∀ {j}, Under u [s] j → u.construct? j = some (.ident name) → Under u [y] j := by
    intro j hj hc
    rcases Under.cases_root hj with rfl | hj
    · have := h.walks.new
      simp [SyntaxTree.isStatement, hc, Construct.isStatement] at this
    · rwa [hy] at hj
  obtain ⟨p, -, ⟨-, rfl⟩ | ⟨-, hn⟩⟩ := h.placed
  · exact hstmt hj hc
  · rcases Under.cases_root hj with rfl | hj
    · rw [hn] at hc
      cases hc
    · rw [SyntaxTree.children_of_construct? hn] at hj
      exact hstmt hj hc

/-- **The names of the new statement are bound as those of the old one.** -/
theorem agrees_moved {x y : NodeId} (hx : t.children o = [x]) (hy : u.children s = [y])
    (ha : Agrees t u o n s b b') (hsee : Sees o s b b') :
    Agrees t u o n s (Binder.expr t x b) (Binder.expr u y b') ∧
      (Binder.expr t x b).scope = b.scope ∧ (Binder.expr u y b').scope = b'.scope := by
  have hux : Under t [o] x :=
    .child (.root (List.mem_singleton_self _)) (by rw [hx]; exact List.mem_singleton_self _)
  have huy : Under u [n] y := .child h.under_new (by rw [hy]; exact List.mem_singleton_self _)
  have hbelow : ∀ {i}, Under u [y] i → Under u [n] i := fun hi =>
    hi.mono fun j hj => by rwa [List.mem_singleton.mp hj]
  have hltx : x < t.size := by
    refine Nat.lt_trans (h.descends o x ?_) h.lt_size_old
    rw [hx]
    exact List.mem_singleton_self _
  have hlty : y < u.size := by
    have hlink : u.parent? y = some s := by
      rw [h.rewrites.after.links, hy]
      exact List.mem_singleton_self _
    exact SyntaxTree.lt_size_of_up hlink
  have hn : Binder.Names t [x] b (Binder.expr t x b) :=
    Binder.names_exprTo (fun i _ k hki => h.descends i k hki) hltx
  have hn' : Binder.Names u [y] b' (Binder.expr u y b') :=
    Binder.names_exprTo (fun i hi => (h.rewrites.fresh i (hbelow hi)).2) hlty
  refine ⟨ha.names hsee hn hn' (fun i name hi => ?_) fun i j name name' hi hc hj hd => ?_, hn.scope,
    hn'.scope⟩
  · constructor
    · rintro ⟨hu, -⟩
      exact absurd (hu.mono fun j hj => by rwa [List.mem_singleton.mp hj]) hi.2
    · rintro ⟨hu, -⟩
      exact absurd hi (h.rewrites.not_kept_of_under (hbelow hu))
  · refine ⟨fun _ => h.under_of_name hy hj hd, fun _ => ?_⟩
    rcases Under.cases_root hi with rfl | hi
    · have := h.walks.old
      simp [SyntaxTree.isStatement, hc, Construct.isStatement] at this
    · rwa [hx] at hi

end Moves

/-! ## 3. Statements -/

@[simp]
theorem Binder.scope_declare (b : Binder) (name : Ident) (binding : Binding) :
    (b.declare name binding).scope = b.scope.declared name.name binding name.span := by
  unfold Binder.declare Scope.declared
  cases b.scope.declare name.name binding name.span with
  | ok s => rfl
  | error e => rfl

@[simp]
theorem Binder.bindings_declare (b : Binder) (name : Ident) (binding : Binding) :
    (b.declare name binding).bindings = b.bindings := by
  unfold Binder.declare
  split <;> rfl

theorem Agrees.congr (h : Agrees t u o n s b b') (hb : b₁.bindings = b.bindings)
    (hb' : b₁'.bindings = b'.bindings) : Agrees t u o n s b₁ b₁' := by
  refine ⟨fun hi => ?_, fun hi hc hj hd hname => ?_⟩
  · rw [hb, hb']
    exact h.kept hi
  · rw [hb, hb']
    exact h.moved hi hc hj hd hname

/-- Two walks that agree so far and see the same names. -/
structure Mirrors (t u : SyntaxTree) (o n s : NodeId) (b b' : Binder) : Prop where
  agrees : Agrees t u o n s b b'
  scope : b.scope.relabel (.move o s) = b'.scope.relabel id
  tidy : b.scope.Tidy

namespace Mirrors

variable (h : Mirrors t u o n s b b')
include h

theorem sees : Sees o s b b' := by
  intro name
  have hget := congrArg (fun sc => (sc.get? name).map LocalVar.binding) h.scope
  simp only [Scope.get?_relabel, Option.map_map] at hget
  rw [Option.map_map]
  exact hget.symm

theorem tidy_after : b'.scope.Tidy := by
  have htidy : (b.scope.relabel (.move o s)).Tidy := Scope.tidy_relabel.mpr h.tidy
  rw [h.scope] at htidy
  exact Scope.tidy_relabel.mp htidy

theorem enter : Mirrors t u o n s b.enter b'.enter := by
  refine ⟨h.agrees.congr rfl rfl, ?_, h.tidy.enter⟩
  exact congrArg Scope.enter h.scope

theorem leave : Mirrors t u o n s b.leave b'.leave := by
  refine ⟨h.agrees.congr rfl rfl, ?_, h.tidy.leave⟩
  rw [Binder.leave, Binder.leave, Scope.relabel_leave, Scope.relabel_leave, h.scope]

theorem declare {name name' : Ident} {binding binding' : Binding} (hname : name.name = name'.name)
    (hb : binding.move o s = binding') :
    Mirrors t u o n s (b.declare name binding) (b'.declare name' binding') := by
  refine ⟨h.agrees.congr (b.bindings_declare ..) (b'.bindings_declare ..), ?_, ?_⟩
  · rw [Binder.scope_declare, Binder.scope_declare, Scope.relabel_declared, Scope.relabel_declared,
      h.scope, hname, hb]
    rfl
  · rw [Binder.scope_declare]
    exact h.tidy.declared _ _ _

end Mirrors

namespace Moves

variable (h : Moves t u o n s)
include h

theorem mirrors_expr {e : NodeId} (hk : Kept t o e) (hno : ¬ Under t [e] o)
    (hm : Mirrors t u o n s b b') : Mirrors t u o n s (Binder.expr t e b) (Binder.expr u e b') := by
  obtain ⟨ha, hs, hs'⟩ := h.agrees_expr hk hno hm.agrees hm.sees
  exact ⟨ha, by rw [hs, hs', hm.scope], by rw [hs]; exact hm.tidy⟩

theorem size_lt : t.size < u.size := by
  obtain ⟨p, hp, -⟩ := h.placed
  exact Nat.lt_of_le_of_lt (h.rewrites.fresh n (.root (List.mem_singleton_self _))).1
    (SyntaxTree.lt_size_of_up (h.rewrites.parent_new hp))

/-- A statement in a list of statements does what the old one did. -/
theorem mirrors_old (d d' : Nat) (hm : Mirrors t u o n s b b') :
    Mirrors t u o n s (Binder.stmtTo t (d + 1) o b) (Binder.stmtTo u (d' + 1) s b') := by
  obtain ⟨x, y, hx, hy, hwalk⟩ := h.walks.walk
  obtain ⟨ha, hs, hs'⟩ := h.agrees_moved hx hy hm.agrees hm.sees
  have hexpr : Mirrors t u o n s (Binder.expr t x b) (Binder.expr u y b') :=
    ⟨ha, by rw [hs, hs', hm.scope], by rw [hs]; exact hm.tidy⟩
  rcases hwalk with ⟨ht, hu⟩ | ⟨name, name', hname, ht, hu⟩
  · rw [ht, hu]
    exact hexpr
  · rw [ht, hu]
    exact hexpr.declare hname (by rw [Binding.move, substNode_self])

/-- **A statement in a scope of its own does what the old one did there**, also if it is in a block. -/
theorem mirrors_nested_old {d d' : Nat} (hd : 0 < d) (hd' : u.size < t.size + d')
    (hm : Mirrors t u o n s b b') :
    Mirrors t u o n s (Binder.stmtTo t d o b.enter).leave (Binder.stmtTo u d' n b'.enter).leave := by
  have hlt := h.size_lt
  obtain ⟨p, -, ⟨-, hns⟩ | ⟨-, hn⟩⟩ := h.placed
  · obtain ⟨d, rfl⟩ : ∃ e, d = e + 1 := ⟨d - 1, by omega⟩
    obtain ⟨d', rfl⟩ : ∃ e, d' = e + 1 := ⟨d' - 1, by omega⟩
    subst hns
    exact (h.mirrors_old d d' hm.enter).leave
  · obtain ⟨d, rfl⟩ : ∃ e, d = e + 1 := ⟨d - 1, by omega⟩
    obtain ⟨d', rfl⟩ : ∃ e, d' = e + 1 + 1 := ⟨d' - 2, by omega⟩
    have hblock : Binder.stmtTo u (d' + 1 + 1) n b'.enter =
        (Binder.stmtTo u (d' + 1) s b'.enter.enter).leave := by
      rw [Binder.stmtTo, hn]
      rfl
    rw [hblock]
    obtain ⟨x, y, hx, hy, hwalk⟩ := h.walks.walk
    have henter : Agrees t u o n s b.enter b'.enter.enter := hm.agrees.congr rfl rfl
    obtain ⟨ha, hs, hs'⟩ := h.agrees_moved hx hy henter hm.sees
    have hscope : b.enter.scope = b.scope.enter := rfl
    have hscope' : b'.enter.enter.scope = b'.scope.enter.enter := rfl
    rw [hscope] at hs
    rw [hscope'] at hs'
    rcases hwalk with ⟨ht, hu⟩ | ⟨name, name', hname, ht, hu⟩
    · rw [ht, hu]
      refine ⟨ha.congr rfl rfl, ?_, ?_⟩
      · simp only [Binder.leave, hs, hs', hm.tidy.leave_enter, hm.tidy_after.enter.leave_enter,
          hm.tidy_after.leave_enter, hm.scope]
      · simp only [Binder.leave, hs, hm.tidy.leave_enter]
        exact hm.tidy
    · rw [ht, hu]
      refine ⟨ha.congr (Binder.bindings_declare ..) (Binder.bindings_declare ..), ?_, ?_⟩
      · simp only [Binder.leave, Binder.scope_declare, hs, hs', hm.tidy.leave_declared,
          hm.tidy_after.leave_leave_declared, Scope.relabel_refresh, hm.scope, hname]
      · simp only [Binder.leave, Binder.scope_declare, hs, hm.tidy.leave_declared]
        exact hm.tidy.refresh _

end Moves

theorem Construct.exprs_subset {c : Construct} {e : NodeId} (h : e ∈ c.exprs) : e ∈ c.children := by
  cases c <;> simp_all [exprs, children]

/-- One after another, in both walks. -/
theorem mirrors_foldl {f g : NodeId → Binder → Binder} {φ : NodeId → NodeId} :
    ∀ {ids : List NodeId} {b b' : Binder},
    (∀ k ∈ ids, ∀ {b b'}, Mirrors t u o n s b b' → Mirrors t u o n s (f k b) (g (φ k) b')) →
    Mirrors t u o n s b b' → Mirrors t u o n s (ids.foldl (fun b k => f k b) b)
      ((ids.map φ).foldl (fun b k => g k b) b')
  | [], _, _, _, hm => hm
  | k :: ids, b, b', hf, hm => by
    rw [List.map_cons, List.foldl_cons, List.foldl_cons]
    exact mirrors_foldl (fun j hj => hf j (List.mem_cons_of_mem _ hj)) (hf k (List.mem_cons_self ..) hm)

theorem mirrors_declarators {id : NodeId} (hid : Kept t o id) : ∀ {vars : List Declarator}
    {index : Nat} {b b' : Binder}, (∀ e ∈ vars.filterMap Declarator.init, ∀ {b b'},
      Mirrors t u o n s b b' → Mirrors t u o n s (Binder.expr t e b) (Binder.expr u e b')) →
    Mirrors t u o n s b b' → Mirrors t u o n s (Binder.declarators t id index vars b)
      (Binder.declarators u id index vars b')
  | [], _, _, _, _, hm => hm
  | ⟨name, init⟩ :: vars, index, b, b', he, hm => by
    have hmove : (Binding.declared id index).move o s = .declared id index := by
      rw [Binding.move, substNode_of_ne (Rewrites.ne_of_kept hid)]
    rw [Binder.declarators, Binder.declarators]
    cases init with
    | none => exact mirrors_declarators hid he (hm.declare rfl hmove)
    | some e =>
      refine mirrors_declarators hid (fun e' he' => he e' (List.mem_cons_of_mem _ he')) ?_
      exact (he e (List.mem_cons_self ..) hm).declare rfl hmove

namespace Moves

variable (h : Moves t u o n s)
include h

/-- An expression of a construct that is kept does not change. -/
theorem mirrors_exprs {q e : NodeId} {c : Construct} (hq : Kept t o q) (hc : t.construct? q = some c)
    (he : e ∈ c.exprs) : substNode o n e = e ∧ ∀ {b b'}, Mirrors t u o n s b b' →
      Mirrors t u o n s (Binder.expr t e b) (Binder.expr u e b') := by
  have hno := h.apart hq.1 hc he
  have hne : e ≠ o := by
    rintro rfl
    exact hno (.root (List.mem_singleton_self _))
  have hk : Kept t o e := by
    refine h.rewrites.kept_child hq ?_ hne
    rw [SyntaxTree.children_of_construct? hc]
    exact Construct.exprs_subset he
  exact ⟨substNode_of_ne hne, fun hm => h.mirrors_expr hk hno hm⟩

/-- **A statement that is kept is walked as before.** -/
theorem mirrors_stmtTo : ∀ {depth depth' id : Nat} {b b' : Binder}, Kept t o id → id < depth →
    u.size + id < t.size + depth' → Mirrors t u o n s b b' →
    Mirrors t u o n s (Binder.stmtTo t depth id b) (Binder.stmtTo u depth' id b')
  | 0, _, _, _, _, _, hd, _, _ => absurd hd (Nat.not_lt_zero _)
  | depth + 1, 0, id, _, _, _, _, hd', _ => by
    have := h.size_lt
    omega
  | depth + 1, depth' + 1, id, b, b', hid, hd, hd', hm => by
    obtain ⟨c, hc⟩ := h.rewrites.exists_construct hid
    have hc' := h.rewrites.construct_eq id c hid hc
    have hkids := SyntaxTree.children_of_construct? hc
    have hlt : ∀ {k : Nat}, k ∈ c.children → k < id := fun hk => h.descends id _ (by rwa [hkids])
    have hkept : ∀ {k : Nat}, k ∈ c.children → k ≠ o → ∀ {b b'}, Mirrors t u o n s b b' →
        Mirrors t u o n s (Binder.stmtTo t depth k b) (Binder.stmtTo u depth' k b') := by
      intro k hk hne b b' hm
      have := hlt hk
      exact mirrors_stmtTo (h.rewrites.kept_child hid (by rwa [hkids]) hne) (by omega) (by omega) hm
    have hnested : ∀ {k : Nat}, k ∈ c.children → ∀ {b b'}, Mirrors t u o n s b b' →
        Mirrors t u o n s (Binder.stmtTo t depth k b.enter).leave
          (Binder.stmtTo u depth' (substNode o n k) b'.enter).leave := by
      intro k hk b b' hm
      by_cases hko : k = o
      · have := hlt hk
        rw [hko, substNode_self]
        exact h.mirrors_nested_old (by omega) (by omega) hm
      · rw [substNode_of_ne hko]
        exact (hkept hk hko hm.enter).leave
    have hexpr : ∀ {e : NodeId}, e ∈ c.exprs → substNode o n e = e ∧ ∀ {b b'},
        Mirrors t u o n s b b' → Mirrors t u o n s (Binder.expr t e b) (Binder.expr u e b') :=
      fun he => h.mirrors_exprs hid hc he
    have hsame : (∀ k ∈ c.children, k ∈ c.exprs) → c.mapNodes (substNode o n) = c := fun hall =>
      Construct.mapNodes_eq_self fun k hk => (hexpr (hall k hk)).1
    unfold Binder.stmtTo
    rw [hc, hc']
    cases c with
    | block stmts =>
      refine (mirrors_foldl (fun k hk {b b'} hm => ?_) hm.enter).leave
      by_cases hko : k = o
      · -- the parent is a list of statements
        obtain ⟨p, hp, hplace⟩ := h.placed
        rw [(h.rewrites.before.links o id).mpr (by rw [hkids]; exact hko ▸ hk)] at hp
        cases hp
        rcases hplace with ⟨-, hns⟩ | ⟨hblock, -⟩
        · have := hlt hk
          have := h.size_lt
          obtain ⟨e, rfl⟩ : ∃ e, depth = e + 1 := ⟨depth - 1, by omega⟩
          obtain ⟨e', rfl⟩ : ∃ e, depth' = e + 1 := ⟨depth' - 1, by omega⟩
          subst hns
          rw [hko, substNode_self]
          exact h.mirrors_old e e' hm
        · simp [SyntaxTree.isBlock, hc, Construct.isBlock, Construct.statements?] at hblock
      · rw [substNode_of_ne hko]
        exact hkept hk hko hm
    | localDecl type vars =>
      rw [hsame fun _ hk => hk]
      exact mirrors_declarators hid (fun e he => (hexpr he).2) hm
    | exprStmt e | yieldStmt e =>
      rw [hsame fun _ hk => hk]
      exact (hexpr (List.mem_singleton_self _)).2 hm
    | returnStmt value =>
      rw [hsame fun _ hk => hk]
      cases value with
      | none => exact hm
      | some e => exact (hexpr (List.mem_singleton_self _)).2 hm
    | ifStmt e a a' =>
      obtain ⟨hself, he⟩ := hexpr (List.mem_singleton_self e)
      have hfirst := @hnested a (by simp [Construct.children]) _ _ (he hm)
      cases a' with
      | none =>
        simp only [Construct.mapNodes, hself, Option.map_none]
        exact hfirst
      | some a' =>
        simp only [Construct.mapNodes, hself, Option.map_some]
        exact hnested (by simp [Construct.children]) hfirst
    | whileStmt e a | doStmt a e =>
      obtain ⟨hself, he⟩ := hexpr (List.mem_singleton_self e)
      simp only [Construct.mapNodes, hself]
      exact hnested (by simp [Construct.children]) (he hm)
    | _ => exact hm

end Moves

/-! ## 4. Programs -/

/-- What is done in a scope of its own leaves the scope as it is. -/
theorem Mirrors.isolated {f g : Binder → Binder} (h : Mirrors t u o n s b b')
    (hfg : ∀ {b b'}, Mirrors t u o n s b b' → Mirrors t u o n s (f b) (g b')) :
    Mirrors t u o n s (Binder.isolated f b) (Binder.isolated g b') := by
  have hempty : Mirrors t u o n s { b with scope := .empty } { b' with scope := .empty } :=
    ⟨h.agrees.congr rfl rfl, rfl, Scope.tidy_empty⟩
  exact ⟨(hfg hempty).agrees.congr rfl rfl, h.scope, h.tidy⟩

theorem mirrors_params (id : NodeId) : ∀ {ps : List Param} {index : Nat} {b b' : Binder},
    Mirrors t u o n s b b' →
    Mirrors t u o n s (Binder.params id index ps b) (Binder.params id index ps b')
  | [], _, _, _, hm => hm
  | p :: ps, index, b, b', hm => by
    rw [Binder.params, Binder.params]
    exact mirrors_params id (hm.declare rfl rfl)

theorem Binder.item_of_isStatement {id : NodeId} (hs : t.isStatement id = true) :
    Binder.item t b id = Binder.stmt t id b := by
  unfold Binder.item
  split
  · rename_i hc
    simp [SyntaxTree.isStatement, hc, Construct.isStatement] at hs
  · rename_i hc
    simp [SyntaxTree.isStatement, hc, Construct.isStatement] at hs
  · rfl

namespace Moves

variable (h : Moves t u o n s)
include h

theorem mirrors_stmt {id : NodeId} (hid : Kept t o id) (hm : Mirrors t u o n s b b') :
    Mirrors t u o n s (Binder.stmt t id b) (Binder.stmt u id b') := by
  have hlt : id < t.size := h.rewrites.lt_size_of_kept hid
  exact h.mirrors_stmtTo hid hlt (by rw [Nat.add_comm]; exact Nat.add_lt_add_right hlt _) hm

theorem mirrors_function {id : NodeId} {type : WrittenType} {name : Ident} {ps : List Param}
    {body : NodeId} (hid : Kept t o id) (hc : t.construct? id = some (.function type name ps body))
    (hm : Mirrors t u o n s b b') :
    substNode o n body = body ∧
      Mirrors t u o n s (Binder.function t id ps body b) (Binder.function u id ps body b') := by
  have hmem : body ∈ (Construct.function type name ps body).children := List.mem_singleton_self _
  have hne : body ≠ o := by
    rintro rfl
    exact h.undeclared hid.1 hc (.inl rfl) hmem
  have hbody : Kept t o body := by
    refine h.rewrites.kept_child hid ?_ hne
    rwa [SyntaxTree.children_of_construct? hc]
  exact ⟨substNode_of_ne hne, hm.isolated fun hm => h.mirrors_stmt hbody (mirrors_params id hm)⟩

theorem mirrors_classMember {id : NodeId} (hid : Kept t o id) (hm : Mirrors t u o n s b b') :
    Mirrors t u o n s (Binder.classMember t b id) (Binder.classMember u b' id) := by
  obtain ⟨c, hc⟩ := h.rewrites.exists_construct hid
  unfold Binder.classMember
  rw [hc, h.rewrites.construct_eq id c hid hc]
  cases c with
  | function type name ps body =>
    obtain ⟨hself, hfunction⟩ := h.mirrors_function hid hc hm
    simp only [Construct.mapNodes, hself]
    exact hfunction
  | field type name init =>
    cases init with
    | none => exact hm
    | some e =>
      obtain ⟨hself, he⟩ := h.mirrors_exprs hid hc (List.mem_singleton_self e)
      simp only [Construct.mapNodes, Option.map_some, hself]
      exact hm.isolated he
  | _ => exact hm

theorem mirrors_item {id : NodeId} (hid : Kept t o id) (hm : Mirrors t u o n s b b') :
    Mirrors t u o n s (Binder.item t b id) (Binder.item u b' id) := by
  obtain ⟨c, hc⟩ := h.rewrites.exists_construct hid
  have hc' := h.rewrites.construct_eq id c hid hc
  by_cases hs : c.isFunction = true ∨ c.isClass = true
  · have hno := h.undeclared hid.1 hc hs
    unfold Binder.item
    rw [hc, hc']
    cases c with
    | function type name ps body =>
      obtain ⟨hself, hfunction⟩ := h.mirrors_function hid hc hm
      simp only [Construct.mapNodes, hself]
      exact hfunction
    | classDecl name members =>
      refine mirrors_foldl (f := fun k b => Binder.classMember t b k)
        (g := fun k b => Binder.classMember u b k) (fun k hk {b b'} hm => ?_) hm
      have hne : k ≠ o := fun he => hno (he ▸ hk)
      rw [substNode_of_ne hne]
      refine h.mirrors_classMember (h.rewrites.kept_child hid ?_ hne) hm
      rwa [SyntaxTree.children_of_construct? hc]
    | _ => simp [Construct.isFunction, Construct.isClass] at hs
  · have hitem : Binder.item t b id = Binder.stmt t id b ∧ Binder.item u b' id = Binder.stmt u id b' := by
      unfold Binder.item
      rw [hc, hc']
      cases c <;> simp_all [Construct.isFunction, Construct.isClass, Construct.mapNodes]
    rw [hitem.1, hitem.2]
    exact h.mirrors_stmt hid hm

/-- **The names of the program are bound as before.** -/
theorem agrees_ofTree : Agrees t u o n s (Binder.ofTree t) (Binder.ofTree u) := by
  have hempty : Mirrors t u o n s Binder.empty Binder.empty :=
    ⟨⟨fun _ => rfl, fun _ _ _ _ _ => rfl⟩, rfl, Scope.tidy_empty⟩
  have hroot := h.rewrites.kept_root
  unfold Binder.ofTree
  rw [h.rewrites.root_eq, h.rewrites.children_eq hroot]
  refine (mirrors_foldl (f := fun k b => Binder.item t b k) (g := fun k b => Binder.item u b k)
    (fun k hk {b b'} hm => ?_) hempty).agrees
  by_cases hko : k = o
  · obtain ⟨p, hp, hplace⟩ := h.placed
    rw [(h.rewrites.before.links o t.root).mpr (hko ▸ hk)] at hp
    cases hp
    rcases hplace with ⟨-, hns⟩ | ⟨hblock, -⟩
    · subst hns
      rw [hko, substNode_self]
      rw [Binder.item_of_isStatement h.walks.old, Binder.item_of_isStatement h.walks.new]
      obtain ⟨e, he⟩ := Nat.exists_eq_add_one_of_ne_zero (Nat.ne_zero_of_lt h.lt_size_old)
      obtain ⟨e', he'⟩ := Nat.exists_eq_add_one_of_ne_zero (Nat.ne_zero_of_lt h.size_lt)
      rw [Binder.stmt, Binder.stmt, he, he']
      exact h.mirrors_old e e' hm
    · rw [h.program] at hblock
      cases hblock
  · rw [substNode_of_ne hko]
    exact h.mirrors_item (h.rewrites.kept_child hroot hk hko) hm

end Moves

end

end Recast
