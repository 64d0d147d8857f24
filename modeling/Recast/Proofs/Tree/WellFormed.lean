/-
# Well-formed trees

In a well-formed tree the links upward and the slots of constructs say the same, every node sits in
at most one slot, the root has no parent, and following the links never leads back.  The table may
hold any number of detached trees besides the program.

* `WellFormed.ancestors_nodup`: the walk upward meets every node once, so that it comes to its end
  within as many steps as there are nodes;
* `WellFormed.under_iff`: **a node is below another exactly if the walk upward meets that one**, hence
  `WellFormed.isAttached_iff`;
* `WellFormed.comparable`: of two nodes above a third, one is above the other;
* `WellFormed.alloc`: a new node over detached trees keeps all this.
-/
import Recast.Proofs.Tree.Walk

namespace Recast.SyntaxTree

open Relation (TransGen)

variable {t u : SyntaxTree} {i p q a b : NodeId} {ids : List NodeId}

/-! ## 1. The invariant -/

/-- The link of `i` leads to `p`. -/
def Up (t : SyntaxTree) (i p : NodeId) : Prop := t.parent? i = some p

/-- Links and slots agree, no node sits in two slots, the root has no parent, and the links have no
cycle.  That no node sits in slots of two different nodes follows from the first. -/
structure WellFormed (t : SyntaxTree) : Prop where
  links : ∀ i p, t.parent? i = some p ↔ i ∈ t.children p
  nodup : ∀ p, (t.children p).Nodup
  top : t.parent? t.root = none
  acyclic : ∀ i, ¬ TransGen t.Up i i

theorem lt_size_of_mem_children (h : i ∈ t.children p) : p < t.size := by
  rcases Nat.lt_or_ge p t.size with hp | hp
  · exact hp
  · rw [children, construct?_eq_none_iff.mpr hp] at h
    cases h

theorem lt_size_of_up (h : t.Up i p) : i < t.size := by
  rcases Nat.lt_or_ge i t.size with hi | hi
  · exact hi
  · rw [Up, parent?_of_size_le hi] at h
    cases h

/-! ## 2. The walk upward -/

/-- What comes later on the walk upward is above what comes earlier. -/
theorem pairwise_climb (t : SyntaxTree) : ∀ (limit : Nat) (i : NodeId),
    (i :: t.climb limit i).Pairwise (TransGen t.Up)
  | 0, i => .cons (by simp [climb]) .nil
  | limit + 1, i => by
    unfold climb
    split
    · exact .cons (by simp) .nil
    · rename_i p hp
      have ih := pairwise_climb t limit p
      refine .cons (fun a ha => ?_) ih
      have hip : TransGen t.Up i p := .single hp
      rcases List.mem_cons.mp ha with rfl | ha
      · exact hip
      · exact hip.trans (List.rel_of_pairwise_cons ih ha)

/-- A node that is met on the way upward has children. -/
theorem lt_size_of_mem_climb (h : t.Linked) : ∀ {limit : Nat} {i a : NodeId},
    a ∈ t.climb limit i → a < t.size
  | 0, _, _, ha => by cases ha
  | limit + 1, i, a, ha => by
    unfold climb at ha
    split at ha
    · cases ha
    · rename_i p hp
      rcases List.mem_cons.mp ha with rfl | ha
      · exact lt_size_of_mem_children (h i a hp)
      · exact lt_size_of_mem_climb h ha

namespace WellFormed

theorem linked (h : t.WellFormed) : t.Linked := fun i p => (h.links i p).mp

theorem ancestors_nodup (h : t.WellFormed) (limit : Nat) (i : NodeId) :
    (i :: t.climb limit i).Nodup := by
  refine (pairwise_climb t limit i).imp fun hab he => ?_
  subst he
  exact h.acyclic _ hab

/-- The walk upward ends before it has met as many nodes as there are. -/
theorem length_climb_lt (h : t.WellFormed) (hi : i < t.size) (limit : Nat) :
    (t.climb limit i).length < t.size := by
  have hsub : i :: t.climb limit i ⊆ List.range t.size := by
    intro a ha
    rcases List.mem_cons.mp ha with rfl | ha
    · exact List.mem_range.mpr hi
    · exact List.mem_range.mpr (lt_size_of_mem_climb h.linked ha)
  have hlen := (h.ancestors_nodup limit i).length_le_of_subset hsub
  rwa [List.length_cons, List.length_range] at hlen

/-- A walk that came to its end has met everything above. -/
theorem mem_climb_of_under (h : t.WellFormed) : ∀ {limit : Nat} {i : NodeId},
    (t.climb limit i).length < limit → Under t [a] i → i = a ∨ a ∈ t.climb limit i
  | 0, _, hl, _ => absurd hl (Nat.not_lt_zero _)
  | limit + 1, i, hl, hu => by
    cases hu with
    | root hi => exact .inl (List.mem_singleton.mp hi)
    | @child p _ hp hi =>
      have hlink := (h.links i p).mpr hi
      simp only [climb, hlink, List.length_cons, Nat.add_lt_add_iff_right] at hl ⊢
      rcases h.mem_climb_of_under hl hp with rfl | ha
      · exact .inr (List.mem_cons_self ..)
      · exact .inr (List.mem_cons_of_mem _ ha)

/-- **A node is below another exactly if the walk upward meets that one.** -/
theorem under_iff (h : t.WellFormed) : Under t [a] i ↔ i = a ∨ a ∈ t.ancestors i := by
  constructor
  · intro hu
    rcases Nat.lt_or_ge i t.size with hi | hi
    · exact h.mem_climb_of_under (h.length_climb_lt hi _) hu
    · cases hu with
      | root hi => exact .inl (List.mem_singleton.mp hi)
      | child _ hi' => exact absurd (lt_size_of_up ((h.links _ _).mpr hi')) (Nat.not_lt.mpr hi)
  · rintro (rfl | ha)
    · exact .root (List.mem_singleton_self _)
    · exact h.linked.under_of_mem_climb ha

/-- **A node is attached exactly if it is part of the program.** -/
theorem isAttached_iff (h : t.WellFormed) : t.isAttached i = true ↔ t.InTree i := by
  rw [InTree, h.under_iff]
  simp [isAttached]

theorem isAttached_eq_false_iff (h : t.WellFormed) : t.isAttached i = false ↔ ¬ t.InTree i := by
  rw [← h.isAttached_iff, Bool.not_eq_true]

/-! ## 3. Above and below -/

/-- Below a node is the node itself, or something whose parent is below the node. -/
theorem under_cases (h : t.WellFormed) (hu : Under t ids i) :
    i ∈ ids ∨ ∃ p, t.parent? i = some p ∧ Under t ids p := by
  cases hu with
  | root hi => exact .inl hi
  | child hp hi => exact .inr ⟨_, (h.links _ _).mpr hi, hp⟩

theorem lt_size_of_under (h : t.WellFormed) (hids : ∀ k ∈ ids, k < t.size) (hu : Under t ids i) :
    i < t.size := by
  rcases h.under_cases hu with hi | ⟨p, hp, -⟩
  · exact hids i hi
  · exact lt_size_of_up hp

/-- Only the node itself is above a node without a parent. -/
theorem eq_of_under_parentless (h : t.WellFormed) (hp : t.parent? i = none) (hu : Under t [a] i) :
    i = a := by
  rcases h.under_cases hu with hi | ⟨p, hp', -⟩
  · exact List.mem_singleton.mp hi
  · rw [hp] at hp'
    cases hp'

/-- **Of two nodes above a third one is above the other.** -/
theorem comparable (h : t.WellFormed) (ha : Under t [a] i) (hb : Under t [b] i) :
    Under t [a] b ∨ Under t [b] a := by
  induction ha with
  | root hi =>
    rw [List.mem_singleton.mp hi] at hb
    exact .inr hb
  | child hp hi ih =>
    rcases h.under_cases hb with hib | ⟨p', hp', hb'⟩
    · rw [List.mem_singleton.mp hib] at hi
      exact .inl (.child hp hi)
    · rw [(h.links _ _).mpr hi] at hp'
      cases hp'
      exact ih hb'

/-- What is below a node is reached by links that lead to it. -/
theorem transGen_of_under (h : t.WellFormed) (hi : t.Up b i) (hu : Under t [a] i) :
    TransGen t.Up b a := by
  induction hu generalizing b with
  | root hi' =>
    rw [List.mem_singleton.mp hi'] at hi
    exact .single hi
  | child _ hi' ih => exact (TransGen.single hi).trans (ih ((h.links _ _).mpr hi'))

/-- **A parent is not below its child.** -/
theorem not_under_child (h : t.WellFormed) (hp : t.parent? i = some p) : ¬ Under t [i] p :=
  fun hu => h.acyclic i (h.transGen_of_under hp hu)

/-- A node is below one child of a node only. -/
theorem eq_of_under_siblings {j o : NodeId} (h : t.WellFormed) (hi : t.parent? i = some p)
    (hj : t.parent? j = some p) (ho : Under t [i] o) (ho' : Under t [j] o) : i = j := by
  have key : ∀ {i j}, t.parent? i = some p → t.parent? j = some p → Under t [i] j → i = j := by
    intro i j hi hj hu
    rcases h.under_cases hu with he | ⟨q, hq, hu⟩
    · exact (List.mem_singleton.mp he).symm
    · rw [hj] at hq
      cases hq
      exact absurd hu (h.not_under_child hi)
  rcases h.comparable ho ho' with hu | hu
  · exact key hi hj hu
  · exact (key hj hi hu).symm

/-- Detached trees are not part of the program. -/
theorem not_inTree_of_under (h : t.WellFormed)
    (hfree : ∀ s ∈ ids, t.parent? s = none ∧ s ≠ t.root) (hu : Under t ids i) : ¬ t.InTree i := by
  intro hi
  obtain ⟨s, hs, hsi⟩ := hu.exists_root
  obtain ⟨hps, hne⟩ := hfree s hs
  rcases h.comparable hsi hi with hr | hr
  · exact hne (h.eq_of_under_parentless h.top hr).symm
  · exact hne (h.eq_of_under_parentless hps hr)

end WellFormed

/-! ## 4. New nodes -/

/-- What is reachable stays reachable where the slots do not get fewer. -/
theorem Under.transfer (h : Under t ids i)
    (hc : ∀ q, Under u ids q → ∀ k ∈ t.children q, k ∈ u.children q) : Under u ids i := by
  induction h with
  | root hi => exact .root hi
  | child _ hi ih => exact .child ih (hc _ ih _ hi)

section Alloc

variable {c : Construct} {span : Span}

theorem up_alloc_cases (h : (t.alloc c span).2.Up i p) :
    (p = t.size ∧ i ∈ c.children) ∨ t.Up i p := by
  rw [Up, parent?_alloc] at h
  split at h
  · rename_i hi
    cases h
    exact .inl ⟨rfl, hi.1⟩
  · exact .inr h

theorem root_alloc (t : SyntaxTree) (c : Construct) (span : Span) :
    (t.alloc c span).2.root = t.root := by
  have hadopt : ∀ (ids : List NodeId) (t' : SyntaxTree) (n : NodeId),
      (t'.adopt n ids).root = t'.root := by
    intro ids
    induction ids with
    | nil => exact fun _ _ => rfl
    | cons k ids ih => exact fun t' n => ih (t'.setParent (some n) k) n
  exact hadopt c.children t t.size

/-- **A new node over distinct detached trees keeps a tree well-formed.** -/
theorem WellFormed.alloc (h : t.WellFormed) (hlt : ∀ k ∈ c.children, k < t.size)
    (hfree : ∀ k ∈ c.children, t.parent? k = none ∧ k ≠ t.root) (hnodup : c.children.Nodup)
    (span : Span) : (t.alloc c span).2.WellFormed := by
  have hnew : (t.alloc c span).2.parent? t.size = none := by
    rw [parent?_alloc_of_not_mem fun hk => Nat.lt_irrefl _ (hlt _ hk)]
    exact parent?_of_size_le (Nat.le_refl _)
  -- the new node has no parent, so a chain of links that does not end in it is an old one
  have hold : ∀ {i j : NodeId}, TransGen (t.alloc c span).2.Up i j → j ≠ t.size →
      TransGen t.Up i j := by
    intro i j hij hj
    induction hij with
    | single hup =>
      rcases up_alloc_cases hup with ⟨he, -⟩ | hup
      · exact absurd he hj
      · exact .single hup
    | @tail b j _ hup ih =>
      have hb : b ≠ t.size := by
        rintro rfl
        rw [Up, hnew] at hup
        cases hup
      rcases up_alloc_cases hup with ⟨he, -⟩ | hup
      · exact absurd he hj
      · exact (ih hb).tail hup
  refine ⟨fun i p => ⟨fun hup => ?_, fun hi => ?_⟩, fun p => ?_, ?_, fun i hi => ?_⟩
  · rw [children_alloc]
    rcases up_alloc_cases hup with ⟨rfl, hi⟩ | hup
    · rw [if_pos rfl]
      exact hi
    · have hi := (h.links i p).mp hup
      rw [if_neg (Nat.ne_of_lt (lt_size_of_mem_children hi))]
      exact hi
  · rw [children_alloc] at hi
    split at hi
    · rename_i hp
      rw [parent?_alloc, if_pos ⟨hi, hlt i hi⟩, hp]
    · have hup := (h.links i p).mpr hi
      rw [parent?_alloc_of_not_mem, hup]
      intro hk
      rw [(hfree i hk).1] at hup
      cases hup
  · rw [children_alloc]
    split
    · exact hnodup
    · exact h.nodup p
  · rw [root_alloc, parent?_alloc_of_not_mem fun hk => (hfree _ hk).2 rfl]
    exact h.top
  · by_cases he : i = t.size
    · subst he
      -- a chain that starts in the new node would need a link from it
      have hstart : ∀ {j : NodeId}, ¬ TransGen (t.alloc c span).2.Up t.size j := by
        intro j hj
        induction hj with
        | single hup =>
          rw [Up, hnew] at hup
          cases hup
        | tail _ _ ih => exact ih
      exact hstart hi
    · exact h.acyclic i (hold hi he)

/-- What can be reached from old nodes does not change when a node is added. -/
theorem under_alloc_iff (h : t.WellFormed) (hids : ∀ k ∈ ids, k < t.size) :
    Under (t.alloc c span).2 ids i ↔ Under t ids i := by
  have hlt : ∀ {q : NodeId}, Under t ids q → q ≠ t.size :=
    fun hq => Nat.ne_of_lt (h.lt_size_of_under hids hq)
  constructor
  · intro hu
    refine hu.transfer fun q hq k hk => ?_
    rwa [children_alloc, if_neg (hlt hq)] at hk
  · intro hu
    induction hu with
    | root hi => exact .root hi
    | child hp hi ih =>
      refine .child ih ?_
      rwa [children_alloc, if_neg (hlt hp)]

end Alloc

end Recast.SyntaxTree
