/-
# What names are bound to

A name is bound to a declaration of the program.  If this is a variable with an initializer, the
initializer comes before the name in the table of nodes: so the search for the type of a name goes
back and comes to an end.

* `Binding.Declares t k b`: the binding `b` of the node `k` is of this kind;
* `Scope.All`: what holds of all bindings of a scope, also of those that are hidden;
* `Binder.Sound t m b`: all names so far are bound rightly, and whatever is visible has its initializer
  before `m`; `sound_exprTo` and `sound_stmtTo` keep it along a stretch of the table;
* `Binder.ofTree_declares`: **every name of a program is bound to a declaration of the program, whose
  initializer comes before the name.**
-/
import Recast.Proofs.Tree.Walk
import Recast.Semantics.Binder

namespace Recast

/-! ## 1. Scopes -/

namespace Scope

variable {P Q : Binding → Prop} {s : Scope}

/-- Every binding of the scope, visible or hidden, is of a kind. -/
def All (P : Binding → Prop) (s : Scope) : Prop :=
  (∀ v ∈ s.visible, P v.binding) ∧ ∀ h ∈ s.hidden, P h.2.binding

theorem All.mono (h : s.All P) (hPQ : ∀ b, P b → Q b) : s.All Q :=
  ⟨fun v hv => hPQ _ (h.1 v hv), fun v hv => hPQ _ (h.2 v hv)⟩

theorem all_empty : Scope.empty.All P := ⟨by simp [empty], by simp [empty]⟩

theorem All.enter (h : s.All P) : s.enter.All P := h

theorem All.get? (h : s.All P) {name : String} {v : LocalVar} (hv : s.get? name = some v) :
    P v.binding := h.1 v (List.mem_of_find?_eq_some hv)

theorem forall_mem_put {vars : List LocalVar} {v : LocalVar} (hvars : ∀ w ∈ vars, P w.binding)
    (hv : P v.binding) : ∀ w ∈ put vars v, P w.binding := by
  intro w hw
  rcases List.mem_cons.mp hw with rfl | hw
  · exact hv
  · exact hvars w (List.mem_filter.mp hw).1

theorem All.declare (h : s.All P) {name : String} {binding : Binding} {span : Span} {s' : Scope}
    (hb : P binding) (hs : s.declare name binding span = .ok s') : s'.All P := by
  unfold Scope.declare at hs
  dsimp only at hs
  split at hs
  · cases hs
    exact ⟨forall_mem_put h.1 hb, h.2⟩
  · rename_i old hold
    split at hs
    · cases hs
    · cases hs
      refine ⟨forall_mem_put h.1 hb, fun v hv => ?_⟩
      rcases List.mem_cons.mp hv with rfl | hv
      · exact h.get? hold
      · exact h.2 v hv

theorem all_restore {depth : Nat} : ∀ {hidden : List (Nat × LocalVar)} {vars : List LocalVar},
    (∀ v ∈ vars, P v.binding) → (∀ h ∈ hidden, P h.2.binding) →
    (∀ v ∈ (restore depth vars hidden).1, P v.binding) ∧
      ∀ h ∈ (restore depth vars hidden).2, P h.2.binding
  | [], _, hv, hh => ⟨hv, hh⟩
  | (hider, old) :: hidden, vars, hv, hh => by
    unfold restore
    split
    · exact all_restore (forall_mem_put hv (hh _ (List.mem_cons_self ..)))
        fun h hmem => hh h (List.mem_cons_of_mem _ hmem)
    · exact ⟨hv, hh⟩

theorem All.leave (h : s.All P) : s.leave.All P :=
  all_restore (fun v hv => h.1 v (List.mem_filter.mp hv).1) h.2

end Scope

/-! ## 2. Bindings -/

/-- The binding leads to a declaration of the program.  An initializer that it has comes before the
node `k`. -/
def Binding.Declares (t : SyntaxTree) (k : Nat) : Binding → Prop
  | declared decl index => t.InTree decl ∧ ∃ type vars var,
      t.construct? decl = some (.localDecl type vars) ∧ vars[index]? = some var ∧
        ∀ init : Nat, var.init = some init → init < k
  | parameter function index => t.InTree function ∧ ∃ type name params body p,
      t.construct? function = some (.function type name params body) ∧ params[index]? = some p

theorem Binding.Declares.mono {t : SyntaxTree} {b : Binding} {m n : Nat} (h : b.Declares t m)
    (hmn : m ≤ n) : b.Declares t n := by
  cases b with
  | parameter function index => exact h
  | declared decl index =>
    obtain ⟨hin, type, vars, var, hc, hv, hi⟩ := h
    exact ⟨hin, type, vars, var, hc, hv, fun init hinit => Nat.lt_of_lt_of_le (hi init hinit) hmn⟩

/-- The first tree of a forest, and the forest after it. -/
theorem SyntaxTree.Grown.uncons {t : SyntaxTree} {lo hi id : Nat} {ids : List NodeId}
    (h : Grown t lo hi (id :: ids)) : Grown t lo (id + 1) [id] ∧ Grown t (id + 1) hi ids := by
  cases h with
  | cons hc hp hk hg => exact ⟨.cons hc hp hk (.nil (Nat.le_refl _)), hg⟩

namespace Binder

open SyntaxTree (Grown Under)

variable {t : SyntaxTree} {b : Binder} {lo hi m n : Nat}

/-- Every name so far is bound to a declaration, and what is visible has its initializer before the
node `m`. -/
structure Sound (t : SyntaxTree) (m : Nat) (b : Binder) : Prop where
  scope : b.scope.All (Binding.Declares t m)
  bindings : ∀ p ∈ b.bindings, p.2.Declares t p.1

namespace Sound

theorem mono (h : Sound t m b) (hmn : m ≤ n) : Sound t n b :=
  ⟨h.scope.mono fun _ hb => hb.mono hmn, h.bindings⟩

theorem enter (h : Sound t m b) : Sound t m b.enter := ⟨h.scope.enter, h.bindings⟩

theorem leave (h : Sound t m b) : Sound t m b.leave := ⟨h.scope.leave, h.bindings⟩

theorem declare (h : Sound t m b) {name : Ident} {binding : Binding} (hb : binding.Declares t m) :
    Sound t m (b.declare name binding) := by
  unfold Binder.declare
  split
  · rename_i hs
    exact ⟨h.scope.declare hb hs, h.bindings⟩
  · exact ⟨h.scope, h.bindings⟩

theorem use (h : Sound t m b) {k : Nat} (hk : m ≤ k) (name : String) : Sound t m (b.use k name) := by
  unfold Binder.use
  split
  · rename_i v hv
    refine ⟨h.scope, fun p hp => ?_⟩
    rcases List.mem_cons.mp hp with rfl | hp
    · exact (h.scope.get? hv).mono hk
    · exact h.bindings p hp
  · exact h

end Sound

/-- What each step keeps, a sequence of steps keeps. -/
theorem foldl_keeps {α : Type} {f : Binder → α → Binder} {P : Binder → Prop} {xs : List α}
    (hf : ∀ b, ∀ x ∈ xs, P b → P (f b x)) (h : P b) : P (xs.foldl f b) := by
  induction xs generalizing b with
  | nil => exact h
  | cons x xs ih =>
    exact ih (fun b y hy => hf b y (List.mem_cons_of_mem _ hy)) (hf b x (List.mem_cons_self ..) h)

/-! ## 3. Expressions and statements -/

/-- The names of an expression that lies behind `m` are bound rightly. -/
theorem sound_exprTo : ∀ {depth : Nat} {id : NodeId} {b : Binder},
    (∀ i : Nat, Under t [id] i → m ≤ i) → Sound t m b → Sound t m (exprTo t depth id b)
  | 0, _, _, _, h => h
  | depth + 1, id, b, hlo, h => by
    unfold exprTo
    split
    · exact h.use (hlo id (.root (List.mem_singleton_self _))) _
    · rename_i c _ hc
      refine foldl_keeps (fun b k hk h => sound_exprTo (fun i hi => hlo i ?_) h) h
      refine hi.mono fun j hj => ?_
      rw [List.mem_singleton.mp hj]
      exact Under.slot (.root (List.mem_singleton_self _)) hc hk
    · exact h

theorem sound_expr {id : NodeId} (hg : Grown t lo hi [id]) (h : Sound t m b) (hm : m ≤ lo) :
    Sound t m (expr t id b) :=
  sound_exprTo (fun _ hu => Nat.le_trans hm (hg.under_mem hu).1) h

/-- Each variable is visible after its own initializer. -/
theorem sound_declarators {decl : NodeId} {type : WrittenType} {all : List Declarator}
    (hin : t.InTree decl) (hc : t.construct? decl = some (.localDecl type all)) :
    ∀ {vars : List Declarator} {index lo : Nat} {b : Binder}, all.drop index = vars →
    Grown t lo hi (vars.filterMap Declarator.init) → Sound t lo b →
    Sound t hi (declarators t decl index vars b)
  | [], index, lo, b, _, hg, h => h.mono hg.le
  | ⟨name, init⟩ :: vars, index, lo, b, hall, hg, h => by
    have hvar : all[index]? = some ⟨name, init⟩ := by
      rw [← List.head?_drop, hall]
      rfl
    have hrest : all.drop (index + 1) = vars := by
      rw [← List.tail_drop, hall]
      rfl
    rw [declarators]
    cases init with
    | none =>
      refine sound_declarators hin hc hrest hg (h.declare ?_)
      exact ⟨hin, type, all, _, hc, hvar, by simp⟩
    | some e =>
      obtain ⟨he, hg⟩ := hg.uncons
      refine sound_declarators hin hc hrest hg (Sound.declare ?_ ?_)
      · exact (sound_expr he h (Nat.le_refl _)).mono he.le
      · refine ⟨hin, type, all, _, hc, hvar, fun init hinit => ?_⟩
        cases hinit
        exact Nat.lt_succ_self _

/-- One statement after another, each behind those before it. -/
theorem sound_stmts {f : NodeId → Binder → Binder} :
    ∀ {ids : List NodeId} {lo : Nat} {b : Binder}, Grown t lo hi ids →
    (∀ {id lo hi : Nat} {b : Binder}, id ∈ ids → Grown t lo hi [id] → Sound t lo b →
      Sound t hi (f id b)) →
    Sound t lo b → Sound t hi (ids.foldl (fun b id => f id b) b)
  | [], _, _, hg, _, h => h.mono hg.le
  | id :: ids, lo, b, hg, hf, h => by
    obtain ⟨hid, hids⟩ := hg.uncons
    rw [List.foldl_cons]
    exact sound_stmts hids (fun hmem => hf (List.mem_cons_of_mem _ hmem))
      (hf (List.mem_cons_self ..) hid h)

/-- **The names of a statement are bound rightly**, and what it declares has its initializer in the
stretch of the statement. -/
theorem sound_stmtTo : ∀ {depth id lo hi : Nat} {b : Binder}, t.InTree id → Grown t lo hi [id] →
    Sound t lo b → Sound t hi (stmtTo t depth id b)
  | 0, _, _, _, _, _, hg, h => h.mono hg.le
  | depth + 1, id, lo, hi, b, hin, @Grown.cons _ _ _ _ _ c hc hp hk htail, h => by
    have hle : id + 1 ≤ hi := htail.le
    have hlo : lo ≤ hi := Nat.le_trans hk.le (Nat.le_of_succ_le hle)
    have hchild : ∀ {k : NodeId}, k ∈ c.children → t.InTree k := fun hmem => hin.slot hc hmem
    have hnested : ∀ {k lo' hi' : Nat} {b : Binder}, k ∈ c.children → Grown t lo' hi' [k] →
        Sound t lo' b → Sound t hi' (stmtTo t depth k b.enter).leave := fun hmem hg h =>
      (sound_stmtTo (hchild hmem) hg h.enter).leave
    unfold stmtTo
    rw [hc]
    cases c with
    | block stmts =>
      refine Sound.mono (sound_stmts hk (fun hmem hg h => ?_) h.enter).leave (Nat.le_of_succ_le hle)
      exact sound_stmtTo (hchild hmem) hg h
    | localDecl type vars =>
      exact (sound_declarators hin hc rfl hk h).mono (Nat.le_of_succ_le hle)
    | exprStmt e => exact (sound_expr hk h (Nat.le_refl _)).mono hlo
    | yieldStmt e => exact (sound_expr hk h (Nat.le_refl _)).mono hlo
    | returnStmt value =>
      cases value with
      | none => exact h.mono hlo
      | some e => exact (sound_expr hk h (Nat.le_refl _)).mono hlo
    | ifStmt e s s' =>
      obtain ⟨he, hs⟩ := hk.uncons
      have h₁ := (sound_expr he h (Nat.le_refl _)).mono he.le
      obtain ⟨hs, hs'⟩ := hs.uncons
      have h₂ := hnested (by simp [Construct.children]) hs h₁
      cases s' with
      | none => exact h₂.mono (Nat.le_trans hs'.le (Nat.le_of_succ_le hle))
      | some s' => exact (hnested (by simp [Construct.children]) hs' h₂).mono (Nat.le_of_succ_le hle)
    | whileStmt e s =>
      obtain ⟨he, hs⟩ := hk.uncons
      have h₁ := (sound_expr he h (Nat.le_refl _)).mono he.le
      exact (hnested (by simp [Construct.children]) hs h₁).mono (Nat.le_of_succ_le hle)
    | doStmt s e =>
      -- the condition is bound first, though it comes after the body
      obtain ⟨hs, he⟩ := hk.uncons
      have h₁ := sound_expr he h hs.le
      exact (hnested (by simp [Construct.children]) hs h₁).mono
        (Nat.le_trans he.le (Nat.le_of_succ_le hle))
    | _ => exact h.mono hlo

/-! ## 4. Programs -/

/-- What is bound in a scope of its own is bound rightly, and the scope before is back. -/
theorem sound_isolated {f : Binder → Binder} (h : Sound t m b)
    (hf : ∀ b : Binder, Sound t n b → Sound t hi (f b)) : Sound t m (isolated f b) :=
  ⟨h.scope, (hf { b with scope := .empty } ⟨Scope.all_empty, h.bindings⟩).bindings⟩

theorem sound_params {id : NodeId} {type : WrittenType} {name : Ident} {all : List Param}
    {body : NodeId} (hin : t.InTree id) (hc : t.construct? id = some (.function type name all body)) :
    ∀ {ps : List Param} {index : Nat} {b : Binder}, all.drop index = ps → Sound t m b →
    Sound t m (params id index ps b)
  | [], _, _, _, h => h
  | p :: ps, index, b, hall, h => by
    have hp : all[index]? = some p := by
      rw [← List.head?_drop, hall]
      rfl
    have hrest : all.drop (index + 1) = ps := by
      rw [← List.tail_drop, hall]
      rfl
    rw [params]
    exact sound_params hin hc hrest (h.declare ⟨hin, type, name, all, body, p, hc, hp⟩)

section Programs

variable (ht : t.Rooted)
include ht

theorem sound_function {id : NodeId} {type : WrittenType} {name : Ident} {ps : List Param}
    {body : NodeId} (hin : t.InTree id) (hc : t.construct? id = some (.function type name ps body))
    (h : Sound t m b) : Sound t m (function t id ps body b) := by
  obtain ⟨c, lo, -, -, hc', -, hk⟩ := ht.grown.of_under hin
  rw [hc] at hc'
  cases hc'
  have hbody : t.InTree body := hin.slot hc (by simp [Construct.children])
  exact sound_isolated h fun _ h => sound_stmtTo hbody hk (sound_params hin hc rfl h)

theorem sound_classMember {id : NodeId} (hin : t.InTree id) (h : Sound t m b) :
    Sound t m (classMember t b id) := by
  unfold classMember
  split
  · rename_i hc
    exact sound_function ht hin hc h
  · rename_i hc
    obtain ⟨c, lo, -, -, hc', -, hk⟩ := ht.grown.of_under hin
    rw [hc] at hc'
    cases hc'
    exact sound_isolated h fun _ h => sound_expr hk h (Nat.le_refl _)
  · exact h

theorem sound_item {id : NodeId} (hin : t.InTree id) (hg : Grown t lo hi [id]) (h : Sound t lo b) :
    Sound t hi (item t b id) := by
  unfold item
  split
  · rename_i hc
    refine (foldl_keeps (fun b k hk h => ?_) h).mono hg.le
    exact sound_classMember ht (hin.slot hc hk) h
  · rename_i hc
    exact (sound_function ht hin hc h).mono hg.le
  · exact sound_stmtTo hin hg h

/-- **Every name of a program is bound to a declaration of the program, whose initializer comes before
the name.** -/
theorem ofTree_declares {k : NodeId} {binding : Binding}
    (h : (ofTree t).bindings.lookup k = some binding) : binding.Declares t k := by
  obtain ⟨c, lo, -, -, hc, -, hk⟩ := ht.grown.of_under (SyntaxTree.inTree_root t)
  rw [← SyntaxTree.children_of_construct? hc] at hk
  have hsound : Sound t t.root (ofTree t) := by
    refine sound_stmts (f := fun id b => item t b id) hk (fun hmem hg h => ?_)
      ⟨Scope.all_empty, by simp [empty]⟩
    exact sound_item ht (.child (SyntaxTree.inTree_root t) hmem) hg h
  obtain ⟨l₁, l₂, he, -⟩ := List.lookup_eq_some_iff.mp h
  exact hsound.bindings (k, binding) (by rw [he]; simp)

end Programs

end Binder

end Recast
