/-
# One node in the place of another

A node of the program gives its place to the root of a detached tree.  Everything that is kept stays
as it is, except that this one slot holds another node.

* `substNode o n`: the node `n` for the node `o`, and every other node for itself;
* `Rewrites t o n u`: the tree `u` is the program of `t` with the new tree at `n` in the place of the
  node `o`;
* `Rewrites.parent_kept`, `Rewrites.parent_new`: what is kept has its parent, and the new tree has the
  parent of the old one;
* `Sprouts.rewrites`: **to put a detached tree into a slot is such a rewriting.**
-/
import Recast.Proofs.Tree.Copy
import Recast.Proofs.Tree.Replacement

namespace Recast

/-- The node `n` in the place of the node `o`. -/
def substNode (o n k : NodeId) : NodeId := if k = o then n else k

@[simp]
theorem substNode_self (o n : NodeId) : substNode o n o = n := if_pos rfl

theorem substNode_of_ne {o n k : NodeId} (h : k ≠ o) : substNode o n k = k := if_neg h

theorem map_substNode_of_not_mem {o n : NodeId} {ids : List NodeId} (h : o ∉ ids) :
    ids.map (substNode o n) = ids := by
  refine (List.map_congr_left fun k hk => ?_).trans (List.map_id' ids)
  exact substNode_of_ne fun he => h (he ▸ hk)

/-- In a list without repetitions one slot changes. -/
theorem map_substNode_append {o n : NodeId} {before after : List NodeId}
    (h : (before ++ o :: after).Nodup) :
    (before ++ o :: after).map (substNode o n) = before ++ n :: after := by
  obtain ⟨-, hafter, hapart⟩ := List.nodup_append.mp h
  have hb : o ∉ before := fun hmem => hapart o hmem o (List.mem_cons_self ..) rfl
  rw [List.map_append, List.map_cons, map_substNode_of_not_mem hb, substNode_self,
    map_substNode_of_not_mem (List.nodup_cons.mp hafter).1]

namespace SyntaxTree

variable {t w u : SyntaxTree} {o n p i q : NodeId}

/-- The tree `u` is the program of `t` with a new tree at `n` in the place of the node `o`.  The nodes
of the new tree come after all others, children before their parents. -/
structure Rewrites (t : SyntaxTree) (o n : NodeId) (u : SyntaxTree) : Prop where
  before : t.WellFormed
  after : u.WellFormed
  root_eq : u.root = t.root
  size_le : t.size ≤ u.size
  inTree : t.InTree o
  not_root : o ≠ t.root
  span_eq : ∀ i < t.size, u.spanOf i = t.spanOf i
  construct_eq : ∀ i c, Kept t o i → t.construct? i = some c →
    u.construct? i = some (c.mapNodes (substNode o n))
  fresh : ∀ i : Nat, Under u [n] i → t.size ≤ i ∧ ∀ k : Nat, k ∈ u.children i → k < i
  inTree_iff : ∀ i, u.InTree i ↔ Kept t o i ∨ Under u [n] i

/-- To put a detached tree into a slot is to graft it. -/
theorem Sprouts.grafts (h : Sprouts t w [n]) (hs : Swaps w p o [n] u) (ho : t.InTree o)
    (hp : t.parent? o = some p) : Grafts w p o [n] u := by
  have hroot : ∀ k ∈ [t.root], k < t.size := by
    intro k hk
    rw [List.mem_singleton.mp hk]
    exact h.root_lt
  have hnew := h.range n (List.mem_singleton_self _)
  refine ⟨h.wellFormed, hs, ?_, ?_, fun s hmem => ?_, fun s hmem => ?_, by simp⟩
  · rw [InTree, h.root_eq, h.under_iff hroot]
    exact ho
  · rw [h.parent_eq o (lt_size_of_up hp), hp]
  · rw [List.mem_singleton.mp hmem, h.root_eq]
    refine ⟨h.free n (List.mem_singleton_self _), fun he => ?_⟩
    exact Nat.not_le.mpr h.root_lt (he ▸ hnew.1)
  · rw [List.mem_singleton.mp hmem]
    exact hnew.2

/-- **To put a detached tree into a slot is a rewriting.** -/
theorem Sprouts.rewrites {c : Construct} (h : Sprouts t w [n]) (hs : Swaps w p o [n] u)
    (ho : t.InTree o) (hp : t.parent? o = some p) (hc : t.construct? p = some c)
    (hd : u.construct? p = some (c.mapNodes (substNode o n))) : Rewrites t o n u := by
  have hg := h.grafts hs ho hp
  have hroot : ∀ k ∈ [t.root], k < t.size := by
    intro k hk
    rw [List.mem_singleton.mp hk]
    exact h.root_lt
  have hold : ∀ k ∈ [o], k < t.size := by
    intro k hk
    rw [List.mem_singleton.mp hk]
    exact lt_size_of_up hp
  have hnew := h.range n (List.mem_singleton_self _)
  have hkept : ∀ i, Kept w o i ↔ Kept t o i := by
    intro i
    rw [Kept, Kept, InTree, InTree, h.root_eq, h.under_iff hroot, h.under_iff hold]
  have hkids : ∀ i, t.size ≤ i → u.children i = w.children i := fun i hi =>
    hs.children_eq (Nat.ne_of_gt (Nat.lt_of_lt_of_le (lt_size_of_construct? hc) hi))
  have hbelow : ∀ {i}, Under u [n] i → t.size ≤ i := by
    intro i hi
    induction hi with
    | root hi =>
      rw [List.mem_singleton.mp hi]
      exact hnew.1
    | child _ hi ih => exact (h.fresh _ ih _ (hkids _ ih ▸ hi)).1
  have hunder : ∀ i, Under w [n] i ↔ Under u [n] i := by
    intro i
    constructor
    · intro hi
      refine hi.transfer fun q hq k hk => ?_
      rwa [hkids q (hbelow hq)]
    · intro hi
      refine hi.transfer fun q hq k hk => ?_
      rwa [hkids q (h.le_of_under (by simp [hnew.1]) hq)] at hk
  refine ⟨h.before, hg.wellFormed_after, hs.root_eq.trans h.root_eq, ?_, ho, fun he => ?_,
    fun i hi => ?_, fun i d hi hid => ?_, fun i hi => ⟨hbelow hi, fun k hk => ?_⟩, fun i => ?_⟩
  · rw [hs.size_eq]
    exact h.grows.size_le
  · rw [he, h.before.top] at hp
    cases hp
  · rw [hs.span_eq, h.grows.span_eq i hi]
  · by_cases hip : i = p
    · subst hip
      rw [hc] at hid
      cases hid
      exact hd
    · rw [hs.construct_eq i hip, h.grows.construct?_eq_some hid]
      refine congrArg some (Construct.mapNodes_eq_self fun k hk => substNode_of_ne ?_).symm
      rintro rfl
      have hlink := (h.before.links k i).mpr (by rwa [children_of_construct? hid])
      rw [hp] at hlink
      cases hlink
      exact hip rfl
  · rw [hkids i (hbelow hi)] at hk
    exact (h.fresh i (hbelow hi) k hk).2
  · rw [hg.inTree_iff, hkept, hunder]

namespace Rewrites

theorem lt_size_of_kept (h : Rewrites t o n u) (hi : Kept t o i) : i < t.size := by
  rcases h.before.under_cases hi.1 with he | ⟨q, hq, -⟩
  · rw [List.mem_singleton.mp he]
    rcases Under.cases_root h.inTree with he | hu
    · exact absurd he h.not_root
    · obtain ⟨r, hr, -⟩ := hu.exists_root
      exact lt_size_of_mem_children hr
  · exact lt_size_of_up hq

/-- The new tree is not kept. -/
theorem not_kept_of_under (h : Rewrites t o n u) (hi : Under u [n] i) : ¬ Kept t o i :=
  fun hk => Nat.not_le.mpr (h.lt_size_of_kept hk) (h.fresh i hi).1

theorem kept_root (h : Rewrites t o n u) : Kept t o t.root := by
  refine ⟨inTree_root t, fun hu => ?_⟩
  exact h.not_root (h.before.eq_of_under_parentless h.before.top hu).symm

theorem exists_construct (h : Rewrites t o n u) (hi : Kept t o i) :
    ∃ c, t.construct? i = some c :=
  exists_construct? (h.lt_size_of_kept hi)

theorem children_eq (h : Rewrites t o n u) (hi : Kept t o i) :
    u.children i = (t.children i).map (substNode o n) := by
  obtain ⟨c, hc⟩ := h.exists_construct hi
  rw [children_of_construct? hc, children_of_construct? (h.construct_eq i c hi hc),
    Construct.children_mapNodes]

/-- The children of what is kept are kept, the old node apart. -/
theorem kept_child (h : Rewrites t o n u) (hq : Kept t o q) (hi : i ∈ t.children q) (hne : i ≠ o) :
    Kept t o i := by
  refine ⟨.child hq.1 hi, fun hu => ?_⟩
  rcases h.before.under_cases hu with he | ⟨q', hq', hu'⟩
  · exact hne (List.mem_singleton.mp he)
  · rw [(h.before.links i q).mpr hi] at hq'
    cases hq'
    exact hq.2 hu'

theorem kept_parent (h : Rewrites t o n u) (hi : Kept t o i) (hp : t.parent? i = some q) :
    Kept t o q :=
  ⟨h.before.inTree_parent hi.1 hp, fun hu => hi.2 (.child hu ((h.before.links i q).mp hp))⟩

theorem ne_of_kept (hi : Kept t o i) : i ≠ o :=
  fun he => hi.2 (he ▸ .root (List.mem_singleton_self _))

/-- **What is kept has the parent that it had.** -/
theorem parent_kept (h : Rewrites t o n u) (hi : Kept t o i) : u.parent? i = t.parent? i := by
  rcases h.before.under_cases hi.1 with he | ⟨q, hq, -⟩
  · rw [List.mem_singleton.mp he, h.before.top, ← h.root_eq, h.after.top]
  · rw [hq, h.after.links, h.children_eq (h.kept_parent hi hq)]
    exact List.mem_map.mpr ⟨i, (h.before.links i q).mp hq, substNode_of_ne (ne_of_kept hi)⟩

/-- The node above the old one is kept. -/
theorem kept_above (h : Rewrites t o n u) (hp : t.parent? o = some p) : Kept t o p :=
  ⟨h.before.inTree_parent h.inTree hp, h.before.not_under_child hp⟩

/-- **The new tree has the parent of the old one.** -/
theorem parent_new (h : Rewrites t o n u) (hp : t.parent? o = some p) : u.parent? n = some p := by
  rw [h.after.links, h.children_eq (h.kept_above hp)]
  exact List.mem_map.mpr ⟨o, (h.before.links o p).mp hp, substNode_self o n⟩

end Rewrites

end SyntaxTree

end Recast
