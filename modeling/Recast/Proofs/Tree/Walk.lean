/-
# Walks in a tree

In a table that holds one tree up to its root (`Rooted`), the walks along links and the walks down
the slots of constructs meet the same nodes.

* `Rooted.isAttached_iff`: **a node is attached exactly if it is below the root**;
* `Rooted.inTree_of_mem_climb`: the ancestors of a node below the root are below the root;
* `under_descend`: so is the node where a walk down ends.
-/
import Recast.Proofs.Tree.Forest

namespace Recast.SyntaxTree

variable {t : SyntaxTree} {i : Nat}

/-- The table holds one tree, from its first node to its root, and all links are right. -/
structure Rooted (t : SyntaxTree) : Prop where
  grown : Grown t 0 t.size [t.root]
  top : t.parent? t.root = none
  links : t.Linked

/-- Part of the program: reachable from the root. -/
def InTree (t : SyntaxTree) (i : NodeId) : Prop := Under t [t.root] i

theorem inTree_root (t : SyntaxTree) : t.InTree t.root := .root (List.mem_singleton_self _)

/-- A walk down ends below where it starts. -/
theorem under_descend {ids : List NodeId} (offset : Nat) : ∀ (limit : Nat) {i : NodeId},
    Under t ids i → Under t ids (t.descend offset limit i)
  | 0, _, h => h
  | limit + 1, i, h => by
    unfold descend
    split
    · exact h
    · rename_i c hc
      exact under_descend offset limit (.child h (List.mem_of_find?_eq_some hc))

/-- The nodes on the way up have the node below them. -/
theorem Linked.under_of_mem_climb (h : t.Linked) : ∀ {limit : Nat} {i a : NodeId},
    a ∈ t.climb limit i → Under t [a] i
  | 0, _, _, ha => by cases ha
  | limit + 1, i, a, ha => by
    unfold climb at ha
    split at ha
    · cases ha
    · rename_i p hp
      have hi := h i p hp
      rcases List.mem_cons.mp ha with rfl | ha
      · exact .child (.root (List.mem_singleton_self _)) hi
      · exact .child (h.under_of_mem_climb ha) hi

namespace Rooted

/-- A node of the program is the root or has its parent in the program, later in the table. -/
theorem parent (h : Rooted t) (hi : t.InTree i) :
    i = t.root ∨ ∃ p : Nat, t.parent? i = some p ∧ t.InTree p ∧ i ∈ t.children p ∧ i < p := by
  cases hi with
  | root hi => exact .inl (List.mem_singleton.mp hi)
  | @child p _ hp hi =>
    refine .inr ⟨p, h.grown.parent?_eq hp hi, hp, hi, ?_⟩
    obtain ⟨c, lo, -, -, hc, -, hk⟩ := h.grown.of_under hp
    rw [children_of_construct? hc] at hi
    exact (hk.root_mem i hi).2

theorem le_root (h : Rooted t) (hi : t.InTree i) : i ≤ t.root := by
  rcases Under.cases_root hi with rfl | hi
  · exact Nat.le_refl _
  · obtain ⟨c, lo, -, -, hc, -, hk⟩ := h.grown.of_under (inTree_root t)
    rw [children_of_construct? hc] at hi
    exact Nat.le_of_lt (hk.under_mem hi).2

theorem lt_size (h : Rooted t) (hi : t.InTree i) : i < t.size := (h.grown.under_mem hi).2

/-- **The ancestors of a node of the program are nodes of the program.** -/
theorem inTree_of_mem_climb (h : Rooted t) : ∀ {limit : Nat} {i a : NodeId}, t.InTree i →
    a ∈ t.climb limit i → t.InTree a
  | 0, _, _, _, ha => by cases ha
  | limit + 1, i, a, hi, ha => by
    unfold climb at ha
    rcases h.parent hi with rfl | ⟨p, hp, hpt, -⟩
    · rw [h.top] at ha
      cases ha
    · rw [hp] at ha
      rcases List.mem_cons.mp ha with rfl | ha
      · exact hpt
      · exact h.inTree_of_mem_climb hpt ha

/-- Every step up leads later in the table, so that many steps reach the root. -/
theorem root_mem_climb (h : Rooted t) : ∀ {limit i : Nat}, t.InTree i → i ≠ t.root →
    t.root ≤ i + limit → t.root ∈ t.climb limit i
  | 0, i, hi, hne, hl => absurd (Nat.le_antisymm (h.le_root hi) hl) hne
  | limit + 1, i, hi, hne, hl => by
    rcases h.parent hi with rfl | ⟨p, hp, hpt, -, hlt⟩
    · exact absurd rfl hne
    · unfold climb
      rw [hp]
      by_cases hpr : p = t.root
      · rw [hpr]
        exact List.mem_cons_self ..
      · have hstep : i + (limit + 1) ≤ p + limit := by omega
        exact List.mem_cons_of_mem _ (h.root_mem_climb hpt hpr (Nat.le_trans hl hstep))

/-- **A node is attached exactly if it is part of the program.** -/
theorem isAttached_iff (h : Rooted t) : t.isAttached i = true ↔ t.InTree i := by
  simp only [isAttached, Bool.or_eq_true, decide_eq_true_eq]
  constructor
  · rintro (rfl | ha)
    · exact inTree_root t
    · exact h.links.under_of_mem_climb ha
  · intro hi
    by_cases hr : i = t.root
    · exact .inl hr
    · have hroot := Nat.le_of_lt (h.lt_size (inTree_root t))
      exact .inr (h.root_mem_climb hi hr (Nat.le_trans hroot (Nat.le_add_left _ _)))

end Rooted

end Recast.SyntaxTree
