/-
# Subtrees

The nodes below a node of a well-formed tree can be counted, and listed so that each comes after what
is below it.

* `HeightLe t n id`: no way down from the node meets more than `n` nodes;
* `subtree t id`: the nodes with the node above them, and the node itself; `weight t id`: their number;
* `WellFormed.heightLe_weight`: **no way down meets more nodes than there are below**;
* `PostOrder t ids ks`: the list `ks` has the nodes of the trees at `ids`, children before their
  parent and trees one after another;
* `WellFormed.length_postOrder`: **such a list has as many nodes as the subtree**.
-/
import Recast.Proofs.Tree.WellFormed

namespace Recast.SyntaxTree

variable {t u : SyntaxTree} {id k i p : NodeId} {ids ks ls : List NodeId} {m n : Nat}

/-! ## 1. The height of a subtree -/

/-- No way down from the node meets more than `n` nodes, itself included. -/
inductive HeightLe (t : SyntaxTree) : Nat → NodeId → Prop
  | node {n : Nat} {id : NodeId} : (∀ k ∈ t.children id, HeightLe t n k) → HeightLe t (n + 1) id

namespace HeightLe

/-- Below the node the ways are shorter. -/
theorem exists_succ (h : HeightLe t n id) :
    ∃ m, n = m + 1 ∧ ∀ k ∈ t.children id, HeightLe t m k := by
  cases h with
  | node h => exact ⟨_, rfl, h⟩

end HeightLe

/-! ## 2. The nodes of a subtree -/

/-- The nodes of the subtree at a node: the node itself, and those that have it above them. -/
def subtree (t : SyntaxTree) (id : NodeId) : List NodeId :=
  (List.range t.size).filter fun i => i = id || id ∈ t.ancestors i

/-- The number of nodes of the subtree at a node. -/
def weight (t : SyntaxTree) (id : NodeId) : Nat := (t.subtree id).length

theorem nodup_subtree (t : SyntaxTree) (id : NodeId) : (t.subtree id).Nodup :=
  List.nodup_range.filter _

theorem weight_le_size (t : SyntaxTree) (id : NodeId) : t.weight id ≤ t.size := by
  have h := List.length_filter_le (fun i => i = id || id ∈ t.ancestors i) (List.range t.size)
  rwa [List.length_range] at h

namespace WellFormed

theorem mem_subtree_iff (h : t.WellFormed) (hid : id < t.size) :
    i ∈ t.subtree id ↔ Under t [id] i := by
  have hlt : Under t [id] i → i < t.size := h.lt_size_of_under (by simpa using hid)
  rw [subtree, List.mem_filter, List.mem_range, h.under_iff]
  rw [h.under_iff] at hlt
  simpa using hlt

/-- **A subtree has more nodes than one of its parts.** -/
theorem weight_lt (h : t.WellFormed) (hk : k ∈ t.children id) : t.weight k < t.weight id := by
  have hid := lt_size_of_mem_children hk
  have hlink := (h.links k id).mpr hk
  have hklt := lt_size_of_up hlink
  have hnodup : (id :: t.subtree k).Nodup := by
    refine List.nodup_cons.mpr ⟨fun hmem => ?_, t.nodup_subtree k⟩
    exact h.not_under_child hlink ((h.mem_subtree_iff hklt).mp hmem)
  have hsub : id :: t.subtree k ⊆ t.subtree id := by
    intro i hi
    rw [h.mem_subtree_iff hid]
    have hroot : Under t [id] id := .root (List.mem_singleton_self _)
    rcases List.mem_cons.mp hi with rfl | hi
    · exact hroot
    · refine ((h.mem_subtree_iff hklt).mp hi).mono fun j hj => ?_
      rw [List.mem_singleton.mp hj]
      exact .child hroot hk
  exact hnodup.length_le_of_subset hsub

/-- **No way down meets more nodes than the subtree has.** -/
theorem heightLe_weight (h : t.WellFormed) : ∀ {n : Nat} {id : NodeId}, t.weight id ≤ n →
    id < t.size → HeightLe t n id
  | 0, id, hn, hid => by
    have hmem : id ∈ t.subtree id :=
      (h.mem_subtree_iff hid).mpr (.root (List.mem_singleton_self _))
    exact absurd (List.length_pos_of_mem hmem) (Nat.not_lt.mpr hn)
  | n + 1, id, hn, _ => by
    refine .node fun k hk => h.heightLe_weight ?_ (lt_size_of_up ((h.links k id).mpr hk))
    have := h.weight_lt hk
    omega

end WellFormed

/-! ## 3. Post-order -/

/-- The nodes of the trees at some nodes, in post-order: the trees come one after another, and in each
of them the trees at the children come first and the node itself last. -/
inductive PostOrder (t : SyntaxTree) : List NodeId → List NodeId → Prop
  | nil : PostOrder t [] []
  | cons {id : NodeId} {ids ks ls : List NodeId} : PostOrder t (t.children id) ks →
      PostOrder t ids ls → PostOrder t (id :: ids) (ks ++ id :: ls)

theorem under_cons_iff :
    Under t (id :: ids) i ↔ Under t (t.children id) i ∨ i = id ∨ Under t ids i := by
  have hroot : Under t (id :: ids) id := .root (List.mem_cons_self ..)
  constructor
  · intro h
    obtain ⟨r, hr, hu⟩ := h.exists_root
    rcases List.mem_cons.mp hr with rfl | hr
    · rcases hu.cases_root with rfl | hu
      · exact .inr (.inl rfl)
      · exact .inl hu
    · refine .inr (.inr (hu.mono fun j hj => ?_))
      rw [List.mem_singleton.mp hj]
      exact .root hr
  · rintro (h | rfl | h)
    · exact h.mono fun j hj => .child hroot hj
    · exact hroot
    · exact h.mono fun j hj => .root (List.mem_cons_of_mem _ hj)

namespace PostOrder

theorem node (h : PostOrder t (t.children id) ks) : PostOrder t [id] (ks ++ [id]) := .cons h .nil

theorem append {ids' : List NodeId} (h : PostOrder t ids ks) (h' : PostOrder t ids' ls) :
    PostOrder t (ids ++ ids') (ks ++ ls) := by
  induction h with
  | nil => exact h'
  | cons hk _ _ ih =>
    rw [List.append_assoc, List.cons_append, List.cons_append]
    exact .cons hk ih

/-- **The list has the nodes of the trees and no others.** -/
theorem mem_iff (h : PostOrder t ids ks) : i ∈ ks ↔ Under t ids i := by
  induction h with
  | nil =>
    refine ⟨fun hi => absurd hi List.not_mem_nil, fun hu => ?_⟩
    obtain ⟨r, hr, -⟩ := hu.exists_root
    cases hr
  | cons _ _ ih₁ ih₂ => rw [List.mem_append, List.mem_cons, under_cons_iff, ih₁, ih₂]

/-- Growth of a table changes no order of nodes that are there. -/
theorem mono (h : PostOrder t ids ks) (hu : t.Extends u) (hlt : ∀ k ∈ ks, k < t.size) :
    PostOrder u ids ks := by
  induction h with
  | nil => exact .nil
  | @cons id ids ks ls _ _ ih₁ ih₂ =>
    have hchildren : u.children id = t.children id := by
      rw [children, children, hu.construct_eq id (hlt id (by simp))]
    refine .cons ?_ (ih₂ fun k hk => hlt k (by simp [hk]))
    rw [hchildren]
    exact ih₁ fun k hk => hlt k (by simp [hk])

end PostOrder

namespace WellFormed

/-- The trees at the children of a node have no node in common. -/
theorem apart_children (h : t.WellFormed) (p : NodeId) :
    (t.children p).Pairwise fun a b => ∀ i, Under t [a] i → ¬ Under t [b] i := by
  refine (h.nodup p).imp_of_mem fun {a b} ha hb hne i hai hbi => hne ?_
  exact h.eq_of_under_siblings ((h.links a p).mpr ha) ((h.links b p).mpr hb) hai hbi

/-- Post-order meets no node twice. -/
theorem nodup_postOrder (h : t.WellFormed) (hp : PostOrder t ids ks)
    (hapart : ids.Pairwise fun a b => ∀ i, Under t [a] i → ¬ Under t [b] i) : ks.Nodup := by
  induction hp with
  | nil => exact .nil
  | @cons id ids ks ls hk hl ih₁ ih₂ =>
    obtain ⟨hid, hrest⟩ := List.pairwise_cons.mp hapart
    have hbelow : ∀ {i}, i ∈ ks → Under t [id] i := fun hi =>
      (hk.mem_iff.mp hi).mono fun j hj => .child (.root (List.mem_singleton_self _)) hj
    have hnot : ∀ {i}, Under t [id] i → i ∉ ls := by
      intro i hi hmem
      obtain ⟨r, hr, hu⟩ := (hl.mem_iff.mp hmem).exists_root
      exact hid r hr i hi hu
    refine List.nodup_append.mpr ⟨ih₁ (h.apart_children id), List.nodup_cons.mpr
      ⟨hnot (.root (List.mem_singleton_self _)), ih₂ hrest⟩, fun i hi j hj he => ?_⟩
    subst he
    rcases List.mem_cons.mp hj with rfl | hj
    · obtain ⟨k, hk', hu⟩ := (hk.mem_iff.mp hi).exists_root
      exact h.not_under_child ((h.links k _).mpr hk') hu
    · exact hnot (hbelow hi) hj

/-- **A subtree in post-order has as many nodes as the subtree.** -/
theorem length_postOrder (h : t.WellFormed) (hid : id < t.size) (hp : PostOrder t [id] ks) :
    ks.length = t.weight id := by
  refine ((List.perm_ext_iff_of_nodup ?_ (t.nodup_subtree id)).mpr fun i => ?_).length_eq
  · exact h.nodup_postOrder hp (List.pairwise_singleton _ _)
  · rw [hp.mem_iff, h.mem_subtree_iff hid]

end WellFormed

end Recast.SyntaxTree
