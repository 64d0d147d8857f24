/-
# The search for a type

The type of an expression is made from the types of its parts, and the type of a variable that is
declared with `var` from the type of its initializer, which stands in another statement.  Nothing
about the shape of a tree bounds this search.  What bounds it is the order in which the binder
declares names: a name is bound to a variable only after the initializer of the variable, so every
step of the search leads back in the table.

* `Analysis.asks`: the nodes whose types the type of a node is made from; `typeOfWith_of_asks`: there
  are no others;
* `Analysis.asks_lt`: each of them comes earlier in the table;
* `Analysis.iterate_typeOfWith`: **the bound on the search never shows**, whatever is answered where
  it is met.
-/
import Recast.Proofs.Recursion
import Recast.Proofs.Semantics.Bound
import Recast.Semantics.Analysis
import Mathlib.Logic.Relation

namespace Recast

open Relation (TransGen)

/-! ## 1. What is asked -/

namespace Analysis

variable {a : Analysis} {f g : NodeId → Except SemanticError DataType}

/-- The initializer that the type of a variable is taken from, if it is declared with `var`. -/
def inferredFrom? (a : Analysis) : Binding → Option NodeId
  | .declared decl index =>
    match a.tree.construct? decl with
    | some (.localDecl type vars) =>
      if type.isVar then vars[index]?.bind Declarator.init else none
    | _ => none
  | .parameter _ _ => none

/-- The nodes whose types the type of a node is made from. -/
def asks (a : Analysis) (id : NodeId) : List NodeId :=
  match a.tree.construct? id with
  | some (.ident _) => ((a.binding? id).bind a.inferredFrom?).toList
  | some (.member object _) => [object]
  | some (.call callee _) =>
    match a.tree.construct? callee with
    | some (.member object _) => [object]
    | _ => []
  | some (.assign _ target _) => [target]
  | some (.binary _ lhs rhs) => [lhs, rhs]
  | some (.unary .neg operand) => [operand]
  | some (.paren inner) => [inner]
  | _ => []

theorem bindingTypeWith_of_inferredFrom? {binding : Binding}
    (h : ∀ j, a.inferredFrom? binding = some j → f j = g j) :
    a.bindingTypeWith f binding = a.bindingTypeWith g binding := by
  cases binding with
  | parameter function index => rfl
  | declared decl index =>
    simp only [bindingTypeWith]
    simp only [inferredFrom?] at h
    split
    · rename_i type vars hc
      rw [hc] at h
      dsimp only at h
      split
      · rfl
      · rename_i hvar
        rw [if_pos (by simpa using hvar)] at h
        split
        · rename_i init hinit
          exact h init hinit
        · rfl
    · rfl

/-- **The type of a node is made from the types of the nodes that it asks for**, and from no others. -/
theorem typeOfWith_of_asks {i : NodeId} (h : ∀ j ∈ a.asks i, f j = g j) :
    a.typeOfWith f i = a.typeOfWith g i := by
  unfold asks at h
  unfold typeOfWith
  dsimp only
  split
  · rfl
  · rename_i name hc
    rw [hc] at h
    unfold identTypeWith
    dsimp only
    split
    · rename_i binding hb
      refine bindingTypeWith_of_inferredFrom? fun j hj => h j ?_
      simp [hb, hj]
    · rfl
  · rename_i object name hc
    rw [hc] at h
    rw [h object (List.mem_singleton_self _)]
  · rename_i callee args hc
    simp only [hc] at h
    have hcallee : a.calleeWith f callee = a.calleeWith g callee := by
      unfold calleeWith
      split
      · rfl
      · rename_i object name hm
        rw [hm] at h
        rw [h object (List.mem_singleton_self _)]
      · rfl
    rw [hcallee]
  · rfl
  · rfl
  · rename_i op target value hc
    rw [hc] at h
    exact h target (List.mem_singleton_self _)
  · rename_i op lhs rhs hc
    rw [hc] at h
    rw [h lhs (by simp), h rhs (by simp)]
  · rfl
  · rename_i operand hc
    rw [hc] at h
    exact h operand (List.mem_singleton_self _)
  · rename_i inner hc
    rw [hc] at h
    exact h inner (List.mem_singleton_self _)
  · rfl

/-! ## 2. Every answer leads back in the table -/

theorem tree_ofTree (t : SyntaxTree) : (ofTree t).tree = t := rfl

section Order

variable {t : SyntaxTree} (ht : t.Rooted) (hlt : ∀ p k : Nat, k ∈ t.children p → k < p)
include ht

/-- The initializer of a variable comes before every name that is bound to the variable. -/
theorem lt_of_inferredFrom? {u init : Nat} {binding : Binding}
    (hb : (ofTree t).binding? u = some binding)
    (h : (ofTree t).inferredFrom? binding = some init) : init < u ∧ t.InTree init := by
  have hdecl := Binder.ofTree_declares ht hb
  unfold inferredFrom? at h
  split at h
  · obtain ⟨hin, type, vars, var, hc, hvar, hinit⟩ := hdecl
    rw [tree_ofTree, hc] at h
    simp only [hvar, Option.bind_some, Option.ite_none_right_eq_some] at h
    refine ⟨hinit init h.2, hin.slot hc ?_⟩
    exact List.mem_filterMap.mpr ⟨var, List.mem_of_getElem? hvar, h.2⟩
  · cases h

include hlt

/-- **What is asked for comes earlier in the table**: a part comes before the whole, and the
initializer of a variable before every name that is bound to the variable. -/
theorem asks_lt {i j : Nat} (h : j ∈ (ofTree t).asks i) : j < i := by
  have hslot : ∀ {c : Construct} {i k : Nat}, t.construct? i = some c → k ∈ c.children → k < i := by
    intro c i k hc hk
    exact hlt i k (by rwa [SyntaxTree.children_of_construct? hc])
  unfold asks at h
  split at h <;> rename_i hc
  · obtain ⟨binding, hb, hfrom⟩ := Option.bind_eq_some_iff.mp (Option.mem_toList.mp h)
    exact (lt_of_inferredFrom? ht hb hfrom).1
  · exact hslot hc (by simpa [Construct.children] using h)
  · rename_i callee args
    split at h
    · rename_i object name hm
      have hobject : object < callee := hslot hm (by simp [Construct.children])
      have hcallee : callee < i := hslot hc (by simp [Construct.children])
      rw [List.mem_singleton.mp h]
      exact Nat.lt_trans hobject hcallee
    · cases h
  · rw [List.mem_singleton.mp h]
    exact hslot hc (by simp [Construct.children])
  · exact hslot hc (by simpa [Construct.children] using h)
  · exact hslot hc (by simpa [Construct.children] using h)
  · exact hslot hc (by simpa [Construct.children] using h)
  · cases h

/-- Following what is asked for never comes back. -/
theorem lt_of_transGen_asks {i j : Nat} (h : TransGen (fun i j => j ∈ (ofTree t).asks i) i j) :
    j < i := by
  induction h with
  | single h => exact asks_lt ht hlt h
  | tail _ h ih => exact Nat.lt_trans (asks_lt ht hlt h) ih

/-- After more steps than the place of a node in the table, its type does not depend on what the search
starts from. -/
theorem iterate_typeOfWith_eq {m n i : Nat} (hm : i < m) (hn : i < n) :
    ((ofTree t).typeOfWith^[m] f) i = ((ofTree t).typeOfWith^[n] g) i := by
  refine iterate_agree (P := fun k f g => ∀ i : Nat, i ≤ k → f i = g i) (fun {k f g} h i hi => ?_)
    hm hn f g i (Nat.le_refl i)
  refine typeOfWith_of_asks fun j hj => ?_
  exact h j (Nat.lt_of_lt_of_le (asks_lt ht hlt hj) hi) j (Nat.le_refl j)

omit ht hlt in
theorem typeOfTo_eq_iterate (a : Analysis) (steps : Nat) : a.typeOfTo steps =
    a.typeOfWith^[steps] fun id => .error (.notAnExpression (a.tree.spanOf id)) := by
  induction steps with
  | zero => rfl
  | succ steps ih =>
    funext id
    rw [typeOfTo, ih, Function.iterate_succ_apply']

theorem typeOfTo_eq {steps steps' i : Nat} (h : i < steps) (h' : i < steps') :
    (ofTree t).typeOfTo steps i = (ofTree t).typeOfTo steps' i := by
  rw [typeOfTo_eq_iterate, typeOfTo_eq_iterate]
  exact iterate_typeOfWith_eq ht hlt h h'

/-- **The bound on the search never shows**, whatever is answered where it is met. -/
theorem iterate_typeOfWith {n : Nat} (hn : t.size ≤ n) :
    (ofTree t).typeOfWith^[n] f = (ofTree t).typeOf := by
  funext i
  rw [typeOf, typeOfTo_eq_iterate]
  rcases Nat.lt_or_ge i t.size with hi | hi
  · exact iterate_typeOfWith_eq ht hlt (Nat.lt_of_lt_of_le hi hn) hi
  · -- behind the table there is nothing to ask
    have hpos : 0 < t.size := Nat.zero_lt_of_lt (ht.lt_size (SyntaxTree.inTree_root t))
    obtain ⟨size, hsize⟩ := Nat.exists_eq_add_one_of_ne_zero (Nat.ne_of_gt hpos)
    obtain ⟨steps, rfl⟩ := Nat.exists_eq_add_one_of_ne_zero
      (Nat.ne_of_gt (Nat.lt_of_lt_of_le hpos hn))
    have hnone : t.construct? i = none := SyntaxTree.construct?_eq_none_iff.mpr hi
    rw [tree_ofTree, hsize, Function.iterate_succ_apply', Function.iterate_succ_apply']
    refine typeOfWith_of_asks fun j hj => ?_
    rw [asks, tree_ofTree, hnone] at hj
    cases hj

/-- The types are those that the search gives without a bound. -/
theorem typeOf_eq_typeOfWith (i : NodeId) :
    (ofTree t).typeOf i = (ofTree t).typeOfWith (ofTree t).typeOf i := by
  have hstep := congrFun (iterate_typeOfWith (f := (ofTree t).typeOf) ht hlt (Nat.le_succ t.size)) i
  rw [Function.iterate_succ_apply', iterate_typeOfWith ht hlt (Nat.le_refl _)] at hstep
  exact hstep.symm

end Order

end Analysis

end Recast
