/-
# Forests in a table of nodes

Nodes are added to a table one after another, children before their parent.  So a tree that is
built in one go fills a stretch of the table, and the trees built one after another fill stretches
one after another.  This is what the relation `Grown` says.

* `Extends t u`: every node of `t` is in `u` with the same construct and span;
* `Grown t lo hi ids`: the nodes `ids` are the roots of trees that lie in the stretch from `lo` up to
  `hi`, in this order, and every link inside them points from a child to its parent;
* `Grown.of_under`: every node that is reachable from the roots is itself the root of a tree in the
  stretch, and `Grown.parent?_eq`: the link of a child leads to its parent;
* `Grown.alloc`: adding a node turns a forest without links at its roots into one tree.
-/
import Recast.Tree.Basic

namespace Recast

namespace SyntaxTree

variable {t u v : SyntaxTree}

/-! ## 1. Growth of a table -/

theorem construct?_eq_none_iff {i : NodeId} : t.construct? i = none ↔ t.size ≤ i := by
  simp [construct?, size]

theorem exists_construct? {i : NodeId} (h : i < t.size) : ∃ c, t.construct? i = some c :=
  Option.ne_none_iff_exists'.mp fun hn => Nat.not_le.mpr h (construct?_eq_none_iff.mp hn)

theorem lt_size_of_construct? {i : NodeId} {c : Construct} (h : t.construct? i = some c) :
    i < t.size := by
  rcases Nat.lt_or_ge i t.size with hi | hi
  · exact hi
  · rw [construct?_eq_none_iff.mpr hi] at h
    cases h

theorem parent?_of_size_le {i : NodeId} (h : t.size ≤ i) : t.parent? i = none := by
  have hi : t.nodes[i]? = none := Array.getElem?_eq_none h
  simp [parent?, hi]

theorem spanOf_of_size_le {i : NodeId} (h : t.size ≤ i) : t.spanOf i = default := by
  have hi : t.nodes[i]? = none := Array.getElem?_eq_none h
  simp [spanOf, hi]

theorem spanOf_setParent (t : SyntaxTree) (parent : Option NodeId) (id other : NodeId) :
    (t.setParent parent id).spanOf other = t.spanOf other := by
  simp only [spanOf, setParent, Array.getElem?_modify]
  split <;> cases t.nodes[other]? <;> rfl

theorem spanOf_adopt (parent other : NodeId) : ∀ (ids : List NodeId) (t : SyntaxTree),
    (t.adopt parent ids).spanOf other = t.spanOf other
  | [], _ => rfl
  | id :: ids, t => (spanOf_adopt parent other ids _).trans (spanOf_setParent t _ id other)

/-- Adding a node keeps the spans of all others. -/
theorem spanOf_alloc (t : SyntaxTree) (c : Construct) (span : Span) (id : NodeId) :
    (t.alloc c span).2.spanOf id = if id = t.size then span else t.spanOf id := by
  have hs := size_adopt t.size c.children t
  have hc := spanOf_adopt t.size id c.children t
  simp only [size, spanOf] at hs hc
  simp only [alloc, spanOf, size, Array.getElem?_push, hs]
  by_cases h : id = t.nodes.size
  · simp [h]
  · simp [h, hc]

/-- Every node of `t` is in `u` with the same construct and the same span. -/
structure Extends (t u : SyntaxTree) : Prop where
  size_le : t.size ≤ u.size
  construct_eq : ∀ i < t.size, u.construct? i = t.construct? i
  span_eq : ∀ i < t.size, u.spanOf i = t.spanOf i

namespace Extends

theorem refl (t : SyntaxTree) : Extends t t := ⟨Nat.le_refl _, fun _ _ => rfl, fun _ _ => rfl⟩

theorem trans (h : Extends t u) (h' : Extends u v) : Extends t v where
  size_le := Nat.le_trans h.size_le h'.size_le
  construct_eq i hi := by
    rw [h'.construct_eq i (Nat.lt_of_lt_of_le hi h.size_le), h.construct_eq i hi]
  span_eq i hi := by
    rw [h'.span_eq i (Nat.lt_of_lt_of_le hi h.size_le), h.span_eq i hi]

theorem construct?_eq_some (h : Extends t u) {i : NodeId} {c : Construct}
    (hc : t.construct? i = some c) : u.construct? i = some c := by
  rw [h.construct_eq i (lt_size_of_construct? hc), hc]

theorem alloc (t : SyntaxTree) (c : Construct) (span : Span) :
    Extends t (t.alloc c span).2 where
  size_le := by simp
  construct_eq i hi := by
    rw [construct?_alloc, if_neg (Nat.ne_of_lt hi)]
  span_eq i hi := by
    rw [spanOf_alloc, if_neg (Nat.ne_of_lt hi)]

end Extends

/-- Every link upward leads to a node that has the linked node among its children. -/
def Linked (t : SyntaxTree) : Prop := ∀ i p, t.parent? i = some p → i ∈ t.children p

/-- Adding a node keeps the links right, also if it takes children from other nodes. -/
theorem Linked.alloc (h : Linked t) (c : Construct) (span : Span) : Linked (t.alloc c span).2 := by
  intro i p hp
  rw [parent?_alloc] at hp
  split at hp
  · rename_i hi
    cases hp
    rw [children, construct?_alloc, if_pos rfl]
    exact hi.1
  · have hip := h i p hp
    have hne : p ≠ t.size := by
      rintro rfl
      rw [children, construct?_eq_none_iff.mpr (Nat.le_refl _)] at hip
      cases hip
    rw [children, construct?_alloc, if_neg hne]
    exact hip

/-- Every child of a node links back to it, comes before it in the table and sits in one of its slots
only. -/
structure Slotted (t : SyntaxTree) : Prop where
  parent_eq : ∀ p, ∀ c ∈ t.children p, t.parent? c = some p
  lt : ∀ p, ∀ c ∈ t.children p, c < p
  nodup : ∀ p, (t.children p).Nodup

theorem children_alloc (t : SyntaxTree) (c : Construct) (span : Span) (p : NodeId) :
    (t.alloc c span).2.children p = if p = t.size then c.children else t.children p := by
  rw [children, construct?_alloc]
  split <;> rfl

theorem parent?_alloc_of_not_mem {c : Construct} {i : NodeId} (h : i ∉ c.children) (span : Span) :
    (t.alloc c span).2.parent? i = t.parent? i := by
  rw [parent?_alloc, if_neg fun hi => h hi.1]

/-- A node over distinct nodes that have no parent yet keeps the slots right. -/
theorem Slotted.alloc (h : Slotted t) {c : Construct} (hnew : ∀ k ∈ c.children, k < t.size)
    (hfree : ∀ k ∈ c.children, t.parent? k = none) (hnodup : c.children.Nodup) (span : Span) :
    Slotted (t.alloc c span).2 where
  parent_eq p k hk := by
    rw [children_alloc] at hk
    split at hk
    · rename_i hp
      rw [parent?_alloc, if_pos ⟨hk, hnew k hk⟩, hp]
    · -- what is a child already has a parent, so the new node does not take it
      have hkp := h.parent_eq p k hk
      rw [parent?_alloc_of_not_mem, hkp]
      intro hkc
      rw [hfree k hkc] at hkp
      cases hkp
  lt p k hk := by
    rw [children_alloc] at hk
    split at hk
    · rename_i hp
      rw [hp]
      exact hnew k hk
    · exact h.lt p k hk
  nodup p := by
    rw [children_alloc]
    split
    · exact hnodup
    · exact h.nodup p

/-! ## 2. Forests -/

/-- The nodes `ids` are the roots of trees that lie in the stretch from `lo` up to `hi`, one after
another.  Inside each tree the children come before their parent and link to it. -/
inductive Grown (t : SyntaxTree) : Nat → Nat → List NodeId → Prop
  | nil {lo hi : Nat} : lo ≤ hi → Grown t lo hi []
  | cons {lo hi id : Nat} {ids : List NodeId} {c : Construct} :
      t.construct? id = some c → (∀ k ∈ c.children, t.parent? k = some id) →
      Grown t lo id c.children → Grown t (id + 1) hi ids → Grown t lo hi (id :: ids)

/-- Reachable from some nodes through the slots of constructs. -/
inductive Under (t : SyntaxTree) : List NodeId → NodeId → Prop
  | root {ids : List NodeId} {i : NodeId} : i ∈ ids → Under t ids i
  | child {ids : List NodeId} {p i : NodeId} : Under t ids p → i ∈ t.children p → Under t ids i

theorem children_of_construct? {i : NodeId} {c : Construct} (h : t.construct? i = some c) :
    t.children i = c.children := by
  simp [children, h]

namespace Under

variable {ids ids' : List NodeId} {i : NodeId}

theorem mono (h : Under t ids i) (hs : ∀ j ∈ ids, Under t ids' j) : Under t ids' i := by
  induction h with
  | root hi => exact hs _ hi
  | child _ hi ih => exact .child ih hi

/-- Below a root is the root itself or what is below its children. -/
theorem cases_root {r : NodeId} (h : Under t [r] i) : i = r ∨ Under t (t.children r) i := by
  induction h with
  | root hi => exact .inl (List.mem_singleton.mp hi)
  | child _ hi ih =>
    rcases ih with rfl | ih
    · exact .inr (.root hi)
    · exact .inr (.child ih hi)

/-- Below several roots is below one of them. -/
theorem exists_root (h : Under t ids i) : ∃ r ∈ ids, Under t [r] i := by
  induction h with
  | root hi => exact ⟨_, hi, .root (List.mem_singleton_self _)⟩
  | child _ hi ih =>
    obtain ⟨r, hr, h⟩ := ih
    exact ⟨r, hr, .child h hi⟩

/-- A slot of a node below is below. -/
theorem slot {p : NodeId} {c : Construct} (h : Under t ids p) (hc : t.construct? p = some c)
    (hi : i ∈ c.children) : Under t ids i :=
  .child h (by rwa [children_of_construct? hc])

end Under

namespace Grown

variable {lo mid hi i : Nat} {ids ids' : List NodeId}

theorem le (h : Grown t lo hi ids) : lo ≤ hi := by
  induction h with
  | nil h => exact h
  | cons _ _ _ _ ih₁ ih₂ => omega

/-- A longer stretch holds the same forest. -/
theorem weaken (h : Grown t lo hi ids) {lo' hi' : Nat} (hl : lo' ≤ lo) (hh : hi ≤ hi') :
    Grown t lo' hi' ids := by
  induction h generalizing lo' hi' with
  | nil h => exact .nil (by omega)
  | cons hc hp _ _ ih₁ ih₂ => exact .cons hc hp (ih₁ hl (Nat.le_refl _)) (ih₂ (Nat.le_refl _) hh)

/-- Forests one after another are one forest. -/
theorem append (h : Grown t lo mid ids) (h' : Grown t mid hi ids') :
    Grown t lo hi (ids ++ ids') := by
  induction h with
  | nil h => exact h'.weaken h (Nat.le_refl _)
  | cons hc hp hk _ _ ih => exact .cons hc hp hk (ih h')

/-- A forest can be cut between any two of its roots. -/
theorem split : ∀ {ids : List NodeId} {lo : Nat}, Grown t lo hi (ids ++ ids') →
    ∃ mid, Grown t lo mid ids ∧ Grown t mid hi ids'
  | [], lo, h => ⟨lo, .nil (Nat.le_refl _), h⟩
  | _ :: _, _, .cons hc hp hk h => by
    obtain ⟨mid, h₁, h₂⟩ := split h
    exact ⟨mid, .cons hc hp hk h₁, h₂⟩

/-- The roots lie in the stretch. -/
theorem root_mem (h : Grown t lo hi ids) : ∀ r : Nat, r ∈ ids → lo ≤ r ∧ r < hi := by
  induction h with
  | nil _ => simp
  | cons _ _ hk htail _ ih =>
    have := hk.le
    have := htail.le
    intro r hr
    rcases List.mem_cons.mp hr with rfl | hr
    · omega
    · have := ih r hr
      omega

/-- The roots come one after another in the table. -/
theorem increasing (h : Grown t lo hi ids) : ids.Pairwise (· < ·) := by
  induction h with
  | nil _ => exact .nil
  | cons _ _ _ htail _ ih => exact .cons (fun r hr => (htail.root_mem r hr).1) ih

theorem nodup (h : Grown t lo hi ids) : ids.Nodup := h.increasing.imp Nat.ne_of_lt

/-- The table may grow, as long as the links inside the forest stay. -/
theorem mono (h : Grown t lo hi ids) (he : Extends t u)
    (hp : ∀ i < hi, ∀ q, t.parent? i = some q → u.parent? i = some q) : Grown u lo hi ids := by
  induction h with
  | nil h => exact .nil h
  | @cons lo hi id ids c hc hl hk htail ih₁ ih₂ =>
    have hid : id < hi := htail.le
    refine .cons (he.construct?_eq_some hc) ?_ (ih₁ fun i hi' => hp i (Nat.lt_trans hi' hid))
      (ih₂ hp)
    intro k hk'
    exact hp k (Nat.lt_trans (hk.root_mem k hk').2 hid) id (hl k hk')

/-- A root with its construct and the forest of its children. -/
theorem of_mem (h : Grown t lo hi ids) (hi' : i ∈ ids) :
    ∃ (c : Construct) (lo' : Nat), lo ≤ lo' ∧ i < hi ∧ t.construct? i = some c ∧
      (∀ k ∈ c.children, t.parent? k = some i) ∧ Grown t lo' i c.children := by
  induction h with
  | nil _ => cases hi'
  | @cons lo hi id ids c hc hl hk htail _ ih =>
    rcases List.mem_cons.mp hi' with rfl | hi'
    · exact ⟨c, lo, Nat.le_refl _, htail.le, hc, hl, hk⟩
    · obtain ⟨c', lo', hlo, hlt, h'⟩ := ih hi'
      have := hk.le
      exact ⟨c', lo', by omega, hlt, h'⟩

/-- **Every node below a root is the root of a tree of its own**, inside the stretch. -/
theorem of_under (h : Grown t lo hi ids) (hu : Under t ids i) :
    ∃ (c : Construct) (lo' : Nat), lo ≤ lo' ∧ i < hi ∧ t.construct? i = some c ∧
      (∀ k ∈ c.children, t.parent? k = some i) ∧ Grown t lo' i c.children := by
  induction hu with
  | root hi' => exact h.of_mem hi'
  | child _ hi' ih =>
    obtain ⟨c, lo', hlo, hlt, hc, -, hk⟩ := ih
    rw [children_of_construct? hc] at hi'
    obtain ⟨c', lo'', hlo', hlt', h'⟩ := hk.of_mem hi'
    exact ⟨c', lo'', by omega, by omega, h'⟩

/-- What is below the roots lies in the stretch. -/
theorem under_mem (h : Grown t lo hi ids) (hu : Under t ids i) : lo ≤ i ∧ i < hi := by
  obtain ⟨c, lo', hlo, hlt, -, -, hk⟩ := h.of_under hu
  have := hk.le
  omega

/-- **Links inside a forest point to the parent.** -/
theorem parent?_eq (h : Grown t lo hi ids) {p : NodeId} (hu : Under t ids p)
    (hi' : i ∈ t.children p) : t.parent? i = some p := by
  obtain ⟨c, lo', -, -, hc, hl, -⟩ := h.of_under hu
  rw [children_of_construct? hc] at hi'
  exact hl i hi'

/-- **A new node makes one tree of a forest whose roots have no parent yet.** -/
theorem alloc {c : Construct} (h : Grown t lo t.size c.children)
    (hr : ∀ r ∈ c.children, t.parent? r = none) (span : Span) :
    Grown (t.alloc c span).2 lo (t.size + 1) [t.size] := by
  have hkeep : ∀ i < t.size, ∀ q, t.parent? i = some q →
      (t.alloc c span).2.parent? i = some q := by
    intro i _ q hq
    have hni : i ∉ c.children := by
      intro hi'
      rw [hr i hi'] at hq
      cases hq
    rw [parent?_alloc, if_neg (fun h => hni h.1), hq]
  refine .cons (c := c) ?_ ?_ (h.mono (.alloc t c span) hkeep) (.nil (Nat.le_refl _))
  · rw [construct?_alloc, if_pos rfl]
  · intro k hk
    rw [parent?_alloc, if_pos ⟨hk, (h.root_mem k hk).2⟩]

end Grown

end SyntaxTree

end Recast
