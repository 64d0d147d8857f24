/-
# Replacing a statement of the program

In a well-formed tree a node of the program gives its place to detached trees (`Grafts`).  The links
that are new all lead to the parent of that node, which is part of the program before and after, so
no cycle can arise, and what is part of the program can be said exactly.

* `Kept t o i`: the node `i` is part of the program and not below `o`.  Walks upward from such a node
  are the same before and after (`Grafts.kept_of_up`);
* `Grafts.inTree_iff`: **the program afterwards is what was kept, with the new trees**;
* `Grafts.wellFormed_after`: the tree is well-formed again;
* `replaceStatement_of_wellFormed`: **replacing a statement is such an edit**, be it in a statement list or
  by a new block, and it succeeds.
-/
import Recast.Proofs.Parser.Table
import Recast.Proofs.Tree.Swap

namespace Recast.SyntaxTree

open Relation (TransGen)

variable {t u : SyntaxTree} {p o i q : NodeId} {news : List NodeId}

/-! ## 1. Grafts -/

/-- A node of the program of a well-formed tree gives its place to detached trees. -/
structure Grafts (t : SyntaxTree) (p o : NodeId) (news : List NodeId) (u : SyntaxTree) : Prop where
  wellFormed : t.WellFormed
  swaps : Swaps t p o news u
  inTree : t.InTree o
  link : t.parent? o = some p
  free : ∀ s ∈ news, t.parent? s = none ∧ s ≠ t.root
  exist : ∀ s ∈ news, s < t.size
  distinct : news.Nodup

/-- Part of the program, but not below `o`. -/
def Kept (t : SyntaxTree) (o i : NodeId) : Prop := t.InTree i ∧ ¬ Under t [o] i

/-- A node of the program other than the root has its parent in the program. -/
theorem WellFormed.inTree_parent (h : t.WellFormed) (hi : t.InTree i) (hp : t.parent? i = some p) :
    t.InTree p := by
  rcases h.under_cases hi with hi | ⟨p', hp', hin⟩
  · rw [List.mem_singleton.mp hi, h.top] at hp
    cases hp
  · rw [hp] at hp'
    cases hp'
    exact hin

/-- A program with a node that has a parent has a root. -/
theorem root_lt_size (ho : t.InTree o) (hp : t.parent? o = some p) : t.root < t.size := by
  rcases Under.cases_root ho with rfl | hu
  · exact lt_size_of_up hp
  · obtain ⟨r, hr, -⟩ := hu.exists_root
    exact lt_size_of_mem_children hr

namespace Grafts

/-- The parent is kept. -/
theorem kept_parent (h : Grafts t p o news u) : Kept t o p :=
  ⟨h.wellFormed.inTree_parent h.inTree h.link, h.wellFormed.not_under_child h.link⟩

theorem not_mem_news (h : Grafts t p o news u) : o ∉ news := by
  intro ho
  have hlink := h.link
  rw [(h.free o ho).1] at hlink
  cases hlink

theorem not_inTree_of_under (h : Grafts t p o news u) (hu : Under t news i) : ¬ t.InTree i :=
  h.wellFormed.not_inTree_of_under h.free hu

/-- The old child is not above the root. -/
theorem kept_root (h : Grafts t p o news u) : Kept t o t.root := by
  refine ⟨inTree_root t, fun hu => ?_⟩
  have hlink := h.link
  rw [← h.wellFormed.eq_of_under_parentless h.wellFormed.top hu, h.wellFormed.top] at hlink
  cases hlink

/-- The children of the parent: the old child is not among them any more. -/
theorem mem_children_parent (h : Grafts t p o news u) {k : NodeId} :
    k ∈ u.children p ↔ k ∈ news ∨ (k ∈ t.children p ∧ k ≠ o) := by
  obtain ⟨before, after, hb, hold, hnew⟩ := h.swaps.slots
  have hnodup := h.wellFormed.nodup p
  rw [hold, List.nodup_append] at hnodup
  have ha : o ∉ after := (List.nodup_cons.mp hnodup.2.1).1
  rw [hold, hnew]
  simp only [List.mem_append, List.mem_cons]
  constructor
  · rintro (hk | hk | hk)
    · exact .inr ⟨.inl hk, fun he => hb (he ▸ hk)⟩
    · exact .inl hk
    · exact .inr ⟨.inr (.inr hk), fun he => ha (he ▸ hk)⟩
  · rintro (hk | ⟨hk | hk | hk, hne⟩)
    · exact .inr (.inl hk)
    · exact .inl hk
    · exact absurd hk hne
    · exact .inr (.inr hk)

/-- Every child of a node afterwards is one of the new trees or was its child before. -/
theorem mem_children_iff (h : Grafts t p o news u) {k : NodeId} :
    k ∈ u.children q ↔ (q = p ∧ k ∈ news) ∨ (k ∈ t.children q ∧ k ≠ o) := by
  by_cases hq : q = p
  · subst hq
    rw [h.mem_children_parent]
    simp
  · rw [h.swaps.children_eq hq]
    constructor
    · intro hk
      refine .inr ⟨hk, fun he => ?_⟩
      rw [he] at hk
      have hlink := (h.wellFormed.links o q).mpr hk
      rw [h.link] at hlink
      cases hlink
      exact hq rfl
    · rintro (⟨he, -⟩ | ⟨hk, -⟩)
      · exact absurd he hq
      · exact hk

/-! ## 2. The program afterwards -/

/-- What is kept and its children, the old child apart, are kept. -/
theorem kept_child (h : Grafts t p o news u) (hq : Kept t o q) {k : NodeId}
    (hk : k ∈ t.children q) (hne : k ≠ o) : Kept t o k := by
  refine ⟨.child hq.1 hk, fun hu => ?_⟩
  rcases h.wellFormed.under_cases hu with hko | ⟨q', hq', hu'⟩
  · exact hne (List.mem_singleton.mp hko)
  · rw [(h.wellFormed.links k q).mpr hk] at hq'
    cases hq'
    exact hq.2 hu'

/-- **The program afterwards is what was kept of it, with the new trees.** -/
theorem inTree_iff (h : Grafts t p o news u) : u.InTree i ↔ Kept t o i ∨ Under t news i := by
  constructor
  · intro hi
    induction hi with
    | root hi =>
      rw [List.mem_singleton.mp hi, h.swaps.root_eq]
      exact .inl h.kept_root
    | @child q k _ hk ih =>
      rcases h.mem_children_iff.mp hk with ⟨-, hk⟩ | ⟨hk, hne⟩
      · exact .inr (.root hk)
      · rcases ih with hq | hq
        · exact .inl (h.kept_child hq hk hne)
        · exact .inr (.child hq hk)
  · have hkept : ∀ {k : NodeId}, t.InTree k → ¬ Under t [o] k → u.InTree k := by
      intro k hk
      induction hk with
      | root hk =>
        intro _
        rw [List.mem_singleton.mp hk, ← h.swaps.root_eq]
        exact inTree_root u
      | child _ hk ih =>
        intro hu
        refine .child (ih fun hq => hu (.child hq hk)) (h.mem_children_iff.mpr (.inr ⟨hk, ?_⟩))
        rintro rfl
        exact hu (.root (List.mem_singleton_self _))
    rintro (⟨hi, hu⟩ | hi)
    · exact hkept hi hu
    · induction hi with
      | root hk =>
        exact .child (hkept h.kept_parent.1 h.kept_parent.2) (h.mem_children_iff.mpr (.inl ⟨rfl, hk⟩))
      | child hq hk ih =>
        refine .child ih (h.mem_children_iff.mpr (.inr ⟨hk, ?_⟩))
        rintro rfl
        exact h.not_inTree_of_under (.child hq hk) h.inTree

/-! ## 3. The links afterwards -/

/-- A link is new only if it starts in a new tree. -/
theorem up_cases (h : Grafts t p o news u) (hup : u.Up i q) : (i ∈ news ∧ q = p) ∨ t.Up i q := by
  rw [Up, h.swaps.parent_eq] at hup
  split at hup
  · rename_i hi
    cases hup
    exact .inl ⟨hi.1, rfl⟩
  · split at hup
    · cases hup
    · exact .inr hup

/-- From what is kept, the links lead the same way as before, to what is kept. -/
theorem kept_of_up (h : Grafts t p o news u) (hi : Kept t o i) (hup : u.Up i q) :
    Kept t o q ∧ t.Up i q := by
  rcases h.up_cases hup with ⟨hnew, -⟩ | hup
  · exact absurd hi.1 (h.not_inTree_of_under (.root hnew))
  · have hchild := (h.wellFormed.links i q).mp hup
    exact ⟨⟨h.wellFormed.inTree_parent hi.1 hup, fun hu => hi.2 (.child hu hchild)⟩, hup⟩

/-- **No cycle arises**: a chain of links that starts in what is kept stays there, and one that does
not come to it is made of old links. -/
theorem acyclic (h : Grafts t p o news u) (i : NodeId) : ¬ TransGen u.Up i i := by
  have hin : ∀ {i j : NodeId}, Kept t o i → TransGen u.Up i j → Kept t o j ∧ TransGen t.Up i j := by
    intro i j hi hij
    induction hij with
    | single hup =>
      obtain ⟨hj, hup⟩ := h.kept_of_up hi hup
      exact ⟨hj, .single hup⟩
    | tail _ hup ih =>
      obtain ⟨hj, hup⟩ := h.kept_of_up ih.1 hup
      exact ⟨hj, ih.2.tail hup⟩
  have hout : ∀ {i j : NodeId}, TransGen u.Up i j → ¬ Kept t o j → TransGen t.Up i j := by
    intro i j hij
    induction hij with
    | single hup =>
      intro hj
      rcases h.up_cases hup with ⟨-, rfl⟩ | hup
      · exact absurd h.kept_parent hj
      · exact .single hup
    | tail _ hup ih =>
      intro hj
      have hold := ih fun hb => hj (h.kept_of_up hb hup).1
      rcases h.up_cases hup with ⟨-, rfl⟩ | hup
      · exact absurd h.kept_parent hj
      · exact hold.tail hup
  intro hii
  by_cases hi : Kept t o i
  · exact h.wellFormed.acyclic i (hin hi hii).2
  · exact h.wellFormed.acyclic i (hout hii hi)

/-- **The tree is well-formed again.** -/
theorem wellFormed_after (h : Grafts t p o news u) : u.WellFormed where
  links i q := by
    constructor
    · intro hup
      rw [h.mem_children_iff]
      rcases h.up_cases hup with ⟨hi, rfl⟩ | hold
      · exact .inl ⟨rfl, hi⟩
      · refine .inr ⟨(h.wellFormed.links i q).mp hold, ?_⟩
        rintro rfl
        rw [h.swaps.parent_eq, if_neg fun hn => h.not_mem_news hn.1, if_pos rfl] at hup
        cases hup
    · intro hk
      rw [h.swaps.parent_eq]
      rcases h.mem_children_iff.mp hk with ⟨rfl, hi⟩ | ⟨hi, hne⟩
      · rw [if_pos ⟨hi, h.exist i hi⟩]
      · have hlink := (h.wellFormed.links i q).mpr hi
        rw [if_neg, if_neg hne, hlink]
        rintro ⟨hnew, -⟩
        rw [(h.free i hnew).1] at hlink
        cases hlink
  nodup q := by
    by_cases hq : q = p
    · subst hq
      obtain ⟨before, after, -, hold, hnew⟩ := h.swaps.slots
      have hnodup := h.wellFormed.nodup q
      rw [hold] at hnodup
      obtain ⟨hb, hoa, hdis⟩ := List.nodup_append.mp hnodup
      have hapart : ∀ s ∈ news, s ∉ t.children q := by
        intro s hs hk
        have hlink := (h.wellFormed.links s q).mpr hk
        rw [(h.free s hs).1] at hlink
        cases hlink
      rw [hold] at hapart
      rw [hnew, List.nodup_append]
      refine ⟨hb, List.nodup_append.mpr ⟨h.distinct, (List.nodup_cons.mp hoa).2, ?_⟩, ?_⟩
      · rintro s hs k hk rfl
        exact hapart s hs (List.mem_append_right _ (List.mem_cons_of_mem _ hk))
      · intro k hk s hs he
        subst he
        rcases List.mem_append.mp hs with hs | hs
        · exact hapart k hs (List.mem_append_left _ hk)
        · exact hdis k hk k (List.mem_cons_of_mem _ hs) rfl
    · rw [h.swaps.children_eq hq]
      exact h.wellFormed.nodup q
  top := by
    rw [h.swaps.root_eq, h.swaps.parent_eq, if_neg fun hn => (h.free _ hn.1).2 rfl]
    split
    · rfl
    · exact h.wellFormed.top
  acyclic := h.acyclic

end Grafts

/-! ## 4. Replacing a statement -/

/-- Where the statements `stmts` went that replaced `o` in its parent `p`: into the statement list, or
into a new block that took the one slot. -/
def PutAt (t : SyntaxTree) (p o : NodeId) (stmts : List NodeId) (u : SyntaxTree) : Placement → Prop
  | .spliced q count => q = p ∧ count = stmts.length ∧ u.size = t.size ∧ ∃ before after,
      (t.construct? p = some (.block (before ++ o :: after)) ∧
        u.construct? p = some (.block (before ++ stmts ++ after))) ∨
      (t.construct? p = some (.unit (before ++ o :: after)) ∧
        u.construct? p = some (.unit (before ++ stmts ++ after)))
  | .wrapped block => block = t.size ∧ u.size = t.size + 1 ∧ t.isBlock p = false ∧
      u.construct? block = some (.block stmts) ∧ ∃ c before after, t.construct? p = some c ∧
        c.children = before ++ o :: after ∧ u.children p = before ++ block :: after ∧
        u.construct? p = some (c.withChildren (before ++ block :: after))

/-- What becomes of the attachment of all nodes, if the program afterwards is what was kept, with the
new trees and the nodes that are `fresh`. -/
theorem attachment_of_inTree_iff {stmts : List NodeId} {fresh : NodeId → Prop} (ht : t.WellFormed)
    (hu : u.WellFormed) (ho : t.InTree o)
    (hfree : ∀ s ∈ stmts, t.parent? s = none ∧ s ≠ t.root) (hfresh : ∀ i, fresh i → ¬ t.InTree i)
    (h : ∀ i, u.InTree i ↔ Kept t o i ∨ Under t stmts i ∨ fresh i) :
    (∀ i, Under t [o] i → t.isAttached i = true ∧ u.isAttached i = false) ∧
    (∀ i, Under t stmts i → t.isAttached i = false ∧ u.isAttached i = true) ∧
    (∀ i, fresh i → t.isAttached i = false ∧ u.isAttached i = true) ∧
    ∀ i, ¬ Under t [o] i → ¬ Under t stmts i → ¬ fresh i → u.isAttached i = t.isAttached i := by
  have hout : ∀ {i}, Under t stmts i → ¬ t.InTree i := fun hi => ht.not_inTree_of_under hfree hi
  refine ⟨fun i hi => ?_, fun i hi => ?_, fun i hi => ?_, fun i ho' hs hf => ?_⟩
  · have hin : t.InTree i := hi.mono fun k hk => by rwa [List.mem_singleton.mp hk]
    refine ⟨ht.isAttached_iff.mpr hin, hu.isAttached_eq_false_iff.mpr fun hi' => ?_⟩
    rcases (h i).mp hi' with hk | hs | hf
    · exact hk.2 hi
    · exact hout hs hin
    · exact hfresh i hf hin
  · exact ⟨ht.isAttached_eq_false_iff.mpr (hout hi),
      hu.isAttached_iff.mpr ((h i).mpr (.inr (.inl hi)))⟩
  · exact ⟨ht.isAttached_eq_false_iff.mpr (hfresh i hi),
      hu.isAttached_iff.mpr ((h i).mpr (.inr (.inr hi)))⟩
  · rw [Bool.eq_iff_iff, ht.isAttached_iff, hu.isAttached_iff, h i]
    constructor
    · rintro (hk | hk | hk)
      · exact hk.1
      · exact absurd hk hs
      · exact absurd hk hf
    · exact fun hi => .inl ⟨hi, ho'⟩

section Wrapping

variable {stmts : List NodeId}

/-- A new block over detached statements, put into the slot of `o`, is a graft. -/
theorem grafts_wrapped (ht : t.WellFormed) (ho : t.InTree o) (hp : t.parent? o = some p)
    (hlt : ∀ s ∈ stmts, s < t.size) (hfree : ∀ s ∈ stmts, t.parent? s = none ∧ s ≠ t.root)
    (hdist : stmts.Nodup) (hs : Swaps (t.alloc (.block stmts) default).2 p o [t.size] u) :
    Grafts (t.alloc (.block stmts) default).2 p o [t.size] u := by
  have hroot := root_lt_size ho hp
  have hnot : o ∉ stmts := by
    intro hos
    rw [(hfree o hos).1] at hp
    cases hp
  refine ⟨WellFormed.alloc (c := .block stmts) ht hlt hfree hdist default, hs, ?_, ?_, ?_, ?_,
    by simp⟩
  · rw [InTree, root_alloc, under_alloc_iff ht]
    · exact ho
    · intro k hk
      rwa [List.mem_singleton.mp hk]
  · rw [parent?_alloc_of_not_mem hnot, hp]
  · intro s hs'
    rw [List.mem_singleton.mp hs', root_alloc,
      parent?_alloc_of_not_mem fun hk => Nat.lt_irrefl _ (hlt _ hk)]
    exact ⟨parent?_of_size_le (Nat.le_refl _), Nat.ne_of_gt hroot⟩
  · intro s hs'
    rw [List.mem_singleton.mp hs', size_alloc]
    exact Nat.lt_succ_self _

/-- The program after a new block was put in: what was kept, the block, and what is below it. -/
theorem inTree_wrapped_iff (ht : t.WellFormed) (ho : t.InTree o) (hp : t.parent? o = some p)
    (hlt : ∀ s ∈ stmts, s < t.size)
    (h : Grafts (t.alloc (.block stmts) default).2 p o [t.size] u) (i : NodeId) :
    u.InTree i ↔ Kept t o i ∨ Under t stmts i ∨ i = t.size := by
  have hroot : ∀ k ∈ [t.root], k < t.size := by
    intro k hk
    rw [List.mem_singleton.mp hk]
    exact root_lt_size ho hp
  have hold : ∀ k ∈ [o], k < t.size := by
    intro k hk
    rw [List.mem_singleton.mp hk]
    exact lt_size_of_up hp
  have hkept : Kept (t.alloc (.block stmts) default).2 o i ↔ Kept t o i := by
    rw [Kept, Kept, InTree, InTree, root_alloc, under_alloc_iff ht hroot, under_alloc_iff ht hold]
  have hblock : Under (t.alloc (.block stmts) default).2 [t.size] i ↔
      Under t stmts i ∨ i = t.size := by
    rw [← under_alloc_iff (c := .block stmts) (i := i) ht hlt]
    have hkids : (t.alloc (.block stmts) default).2.children t.size = stmts := by
      rw [children_alloc, if_pos rfl]
      rfl
    constructor
    · intro hu
      rcases Under.cases_root hu with rfl | hu
      · exact .inr rfl
      · rw [hkids] at hu
        exact .inl hu
    · rintro (hu | rfl)
      · refine hu.mono fun k hk => .child (.root (List.mem_singleton_self _)) ?_
        rwa [hkids]
      · exact .root (List.mem_singleton_self _)
  rw [h.inTree_iff, hkept, hblock]

end Wrapping

/-- **Replacing a statement is a structure-preserving edit.**  In a well-formed tree a statement of
the program is replaced by detached statements: the edit succeeds, puts them where the statement was
(`PutAt`), changes no other node, and leaves a well-formed tree.  What was below the statement is
detached afterwards, what is below the new ones is attached, and for all other nodes nothing
changes. -/
theorem replaceStatement_of_wellFormed (ht : t.WellFormed) (hstmt : t.isStatement o = true)
    (hatt : t.isAttached o = true) (hp : t.parent? o = some p)
    (hne : news.filter t.isStatement ≠ []) (hdist : (news.filter t.isStatement).Nodup)
    (hfree : ∀ s ∈ news.filter t.isStatement, t.parent? s = none ∧ s ≠ t.root) :
    ∃ placement u, t.replaceStatement o news = (.ok placement, u) ∧
      PutAt t p o (news.filter t.isStatement) u placement ∧
      (∀ i < t.size, i ≠ p → u.construct? i = t.construct? i) ∧
      (∀ i < t.size, u.spanOf i = t.spanOf i) ∧ u.WellFormed ∧
      (∀ i, Under t [o] i → t.isAttached i = true ∧ u.isAttached i = false) ∧
      (∀ i, Under t (news.filter t.isStatement) i → t.isAttached i = false ∧ u.isAttached i = true) ∧
      (∀ i, placement = .wrapped i → t.isAttached i = false ∧ u.isAttached i = true) ∧
      ∀ i, ¬ Under t [o] i → ¬ Under t (news.filter t.isStatement) i → placement ≠ .wrapped i →
        u.isAttached i = t.isAttached i := by
  have hin : t.InTree o := ht.isAttached_iff.mp hatt
  have hlt : ∀ s ∈ news.filter t.isStatement, s < t.size := by
    intro s hs
    obtain ⟨c, hc, -⟩ := (Option.any_eq_true ..).mp (List.mem_filter.mp hs).2
    exact lt_size_of_construct? hc
  rcases replaceStatement_succeeds ht.linked hstmt hp hatt hne with
    ⟨hblock, u, hu, he⟩ | ⟨hblock, u, hu, he⟩
  · obtain ⟨before, after, u', hb, hu', hs, hput⟩ :=
      exists_splice hblock (ht.linked o p hp) (news.filter t.isStatement)
    rw [hu] at hu'
    cases hu'
    have hg : Grafts t p o (news.filter t.isStatement) u := ⟨ht, hs, hin, hp, hfree, hlt, hdist⟩
    have hprogram : ∀ i, u.InTree i ↔
        Kept t o i ∨ Under t (news.filter t.isStatement) i ∨ False := by
      intro i
      rw [hg.inTree_iff, or_false]
    obtain ⟨hold, hnew, -, hother⟩ := attachment_of_inTree_iff ht hg.wellFormed_after hin hfree
      (fun _ hf => hf.elim) hprogram
    refine ⟨_, u, he, ⟨rfl, rfl, hs.size_eq, before, after, hput⟩,
      fun i _ hi => hs.construct_eq i hi, fun i _ => hs.span_eq i, hg.wellFormed_after, hold, hnew,
      fun i hi => ?_, fun i ho hn _ => hother i ho hn id⟩
    cases hi
  · have ho : o ∈ (t.alloc (.block (news.filter t.isStatement)) default).2.children p := by
      have hop := ht.linked o p hp
      rwa [children_alloc, if_neg (Nat.ne_of_lt (lt_size_of_mem_children hop))]
    obtain ⟨c, before, after, u', hc, hb, hkids, hu', hs, hput⟩ := exists_replaceChild ho t.size
    rw [hu] at hu'
    cases hu'
    have hg := grafts_wrapped ht hin hp hlt hfree hdist hs
    have hpsize : p < t.size := lt_size_of_mem_children (ht.linked o p hp)
    have hold : t.construct? p = some c := by
      rwa [construct?_alloc, if_neg (Nat.ne_of_lt hpsize)] at hc
    have hnew : u.children p = before ++ t.size :: after := by
      rw [children_of_construct? hput]
      refine Construct.children_withChildren ?_
      rw [hkids]
      simp
    have hfresh : u.construct? t.size = some (.block (news.filter t.isStatement)) := by
      rw [hs.construct_eq _ (Nat.ne_of_gt hpsize), construct?_alloc, if_pos rfl]
    have hnone : ∀ i, i = t.size → ¬ t.InTree i := by
      rintro i rfl hi
      refine Nat.lt_irrefl _ (ht.lt_size_of_under (fun k hk => ?_) hi)
      rw [List.mem_singleton.mp hk]
      exact root_lt_size hin hp
    obtain ⟨hdet, hatt', hblk, hother⟩ := attachment_of_inTree_iff ht hg.wellFormed_after hin hfree
      hnone (inTree_wrapped_iff ht hin hp hlt hg)
    refine ⟨_, u, he, ⟨rfl, by rw [hs.size_eq, size_alloc], hblock, hfresh, c, before, after, hold,
      hkids, hnew, hput⟩, fun i hi hip => ?_, fun i hi => ?_, hg.wellFormed_after, hdet, hatt',
      fun i hi => ?_, fun i ho hn hi => hother i ho hn fun he => hi (by rw [he])⟩
    · rw [hs.construct_eq i hip, construct?_alloc, if_neg (Nat.ne_of_lt hi)]
    · rw [hs.span_eq, spanOf_alloc, if_neg (Nat.ne_of_lt hi)]
    · cases hi
      exact hblk _ rfl

/-- The body of a loop is replaced by an empty statement; the condition, which is given as well, is no
statement and is left out. -/
theorem replaceStatement_of_loop_body :
    ∃ t : SyntaxTree, t = ((parseLenient "while (a) b = 1;").1.alloc .emptyStmt default).2 ∧
      t.construct? 5 = some (.whileStmt 0 4) ∧ [7, 0].filter t.isStatement = [7] ∧
      ∃ placement u, t.replaceStatement 4 [7, 0] = (.ok placement, u) ∧
        PutAt t 5 4 [7] u placement ∧ u.WellFormed ∧ u.isAttached 7 = true ∧
        u.isAttached 4 = false := by
  have ht : ((parseLenient "while (a) b = 1;").1.alloc .emptyStmt default).2.WellFormed :=
    (parseLenient_wellFormed _).alloc (by simp [Construct.children]) (by simp [Construct.children])
      (by simp [Construct.children]) default
  have hstmts : [7, 0].filter (((parseLenient "while (a) b = 1;").1.alloc .emptyStmt
      default).2).isStatement = [7] := by decide +kernel
  obtain ⟨placement, u, he, hput, -, -, hu, hdet, hatt, -⟩ :=
    @replaceStatement_of_wellFormed _ 5 4 [7, 0] ht (by decide +kernel) (by decide +kernel)
      (by decide +kernel) (by decide +kernel) (by decide +kernel) (by decide +kernel)
  rw [hstmts] at hput hatt
  exact ⟨_, rfl, by decide +kernel, hstmts, placement, u, he, hput, hu,
    (hatt 7 (.root (List.mem_singleton_self _))).2, (hdet 4 (.root (List.mem_singleton_self _))).2⟩

end Recast.SyntaxTree
