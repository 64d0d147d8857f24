/-
# One slot for others

Both edits of a tree, the one that puts a node into a slot and the one that puts several into a
statement list, do the same to links and slots: one child of a node gives its place to others.

* `Swaps t p o news u`: the tree `u` is `t` with `news` in the place of `o` among the children of `p`.
  The old child loses its parent, the new ones get it, and nothing else changes;
* `replaceChild_swaps`, `splice_swaps`: what the two edits do; they fail exactly where there is no
  such slot (`exists_replaceChild`, `exists_splice`);
* `Swaps.linked`: **links stay right**, whatever nodes are put in;
* `replaceStatement_succeeds`, `replaceStatement_cases`: **where links are right, replacing a statement
  is one of the edits, or it fails and changes nothing.**
-/
import Recast.Proofs.Tree.WellFormed
import Recast.Tree.Edit

namespace Recast.SyntaxTree

variable {t u : SyntaxTree} {p o n : NodeId} {news : List NodeId}

/-! ## 1. Other constructs -/

section SetConstruct

variable (t : SyntaxTree) (id other : NodeId) (c : Construct)

@[simp]
theorem size_setConstruct : (t.setConstruct id c).size = t.size := by
  simp [size, setConstruct]

@[simp]
theorem root_setConstruct : (t.setConstruct id c).root = t.root := rfl

theorem construct?_setConstruct : (t.setConstruct id c).construct? other =
    if id = other ∧ other < t.size then some c else t.construct? other := by
  simp only [construct?, setConstruct, Array.getElem?_modify, size]
  by_cases h : other < t.nodes.size
  · by_cases he : id = other <;> simp [h, he]
  · simp [h]

@[simp]
theorem parent?_setConstruct : (t.setConstruct id c).parent? other = t.parent? other := by
  simp only [parent?, setConstruct, Array.getElem?_modify]
  split <;> cases t.nodes[other]? <;> rfl

@[simp]
theorem spanOf_setConstruct : (t.setConstruct id c).spanOf other = t.spanOf other := by
  simp only [spanOf, setConstruct, Array.getElem?_modify]
  split <;> cases t.nodes[other]? <;> rfl

@[simp]
theorem root_setParent (parent : Option NodeId) : (t.setParent parent id).root = t.root := rfl

@[simp]
theorem root_adopt : ∀ (ids : List NodeId) (t : SyntaxTree), (t.adopt id ids).root = t.root
  | [], _ => rfl
  | k :: ids, t => root_adopt ids (t.setParent (some id) k)

end SetConstruct

/-! ## 2. Swaps -/

/-- The nodes `news` took the place of `o` among the children of `p`, and nothing else changed. -/
structure Swaps (t : SyntaxTree) (p o : NodeId) (news : List NodeId) (u : SyntaxTree) : Prop where
  size_eq : u.size = t.size
  root_eq : u.root = t.root
  span_eq : ∀ i, u.spanOf i = t.spanOf i
  construct_eq : ∀ i, i ≠ p → u.construct? i = t.construct? i
  slots : ∃ before after, o ∉ before ∧ t.children p = before ++ o :: after ∧
    u.children p = before ++ (news ++ after)
  parent_eq : ∀ i, u.parent? i =
    if i ∈ news ∧ i < t.size then some p else if i = o then none else t.parent? i

theorem Swaps.children_eq (h : Swaps t p o news u) {q : NodeId} (hq : q ≠ p) :
    u.children q = t.children q := by
  rw [children, children, h.construct_eq q hq]

/-- The changes that both edits make, one after another. -/
theorem swaps_of_construct {c d : Construct} {before after : List NodeId}
    (hc : t.construct? p = some c) (hslots : c.children = before ++ o :: after)
    (ho : o ∉ before) (hd : d.children = before ++ (news ++ after)) :
    Swaps t p o news (((t.setConstruct p d).setParent none o).adopt p news) := by
  have hp := lt_size_of_construct? hc
  refine ⟨by simp, by simp, fun i => ?_, fun i hi => ?_, ⟨before, after, ho, ?_, ?_⟩, fun i => ?_⟩
  · rw [spanOf_adopt, spanOf_setParent, spanOf_setConstruct]
  · rw [construct?_adopt, construct?_setParent, construct?_setConstruct,
      if_neg fun h => hi h.1.symm]
  · rw [children_of_construct? hc, hslots]
  · refine (children_of_construct? ?_).trans hd
    rw [construct?_adopt, construct?_setParent, construct?_setConstruct, if_pos ⟨rfl, hp⟩]
  · rw [parent?_adopt, parent?_setParent, size_setParent, size_setConstruct, parent?_setConstruct]
    split
    · rfl
    · by_cases hi : i = o
      · subst hi
        rw [if_pos rfl]
        split
        · rfl
        · rename_i hlt
          exact parent?_of_size_le (Nat.not_lt.mp fun h => hlt ⟨rfl, h⟩)
      · rw [if_neg fun h => hi h.1.symm, if_neg hi]

/-- A list with the first of two elements replaced. -/
theorem replace_eq_append (n : NodeId) : ∀ {ids : List NodeId}, o ∈ ids →
    ∃ before after, o ∉ before ∧ ids = before ++ o :: after ∧
      ids.replace o n = before ++ n :: after
  | id :: ids, h => by
    by_cases he : id = o
    · subst he
      exact ⟨[], ids, by simp, rfl, by simp⟩
    · have hmem : o ∈ ids := by
        rcases List.mem_cons.mp h with rfl | h
        · exact absurd rfl he
        · exact h
      obtain ⟨before, after, hb, hids, hr⟩ := replace_eq_append n hmem
      refine ⟨id :: before, after, ?_, by rw [hids, List.cons_append], ?_⟩
      · simp [hb, Ne.symm he]
      · have hbeq : (o == id) = false := beq_eq_false_iff_ne.mpr (Ne.symm he)
        rw [List.replace_cons, hbeq, hr, List.cons_append]

theorem spliceFirst_eq_append (news : List NodeId) : ∀ {ids : List NodeId}, o ∈ ids →
    ∃ before after, o ∉ before ∧ ids = before ++ o :: after ∧
      spliceFirst o news ids = before ++ (news ++ after)
  | id :: ids, h => by
    by_cases he : id = o
    · subst he
      exact ⟨[], ids, by simp, rfl, by simp [spliceFirst]⟩
    · have hmem : o ∈ ids := by
        rcases List.mem_cons.mp h with rfl | h
        · exact absurd rfl he
        · exact h
      obtain ⟨before, after, hb, hids, hr⟩ := spliceFirst_eq_append news hmem
      refine ⟨id :: before, after, ?_, by rw [hids, List.cons_append], ?_⟩
      · simp [hb, Ne.symm he]
      · rw [spliceFirst, if_neg he, hr, List.cons_append]

/-- Where there is a slot, a node can be put into it. -/
theorem exists_replaceChild (h : o ∈ t.children p) (n : NodeId) :
    ∃ c before after u, t.construct? p = some c ∧ o ∉ before ∧ c.children = before ++ o :: after ∧
      t.replaceChild p o n = .ok u ∧ Swaps t p o [n] u ∧
      u.construct? p = some (c.withChildren (before ++ n :: after)) := by
  obtain ⟨c, hc⟩ : ∃ c, t.construct? p = some c := by
    rcases hc : t.construct? p with _ | c
    · simp [children, hc] at h
    · exact ⟨c, rfl⟩
  have ho : o ∈ c.children := by rwa [children_of_construct? hc] at h
  obtain ⟨before, after, hb, hids, hr⟩ := replace_eq_append n ho
  have hd : (c.withChildren (before ++ n :: after)).children = before ++ ([n] ++ after) := by
    refine Construct.children_withChildren ?_
    rw [hids]
    simp
  refine ⟨c, before, after, _, hc, hb, hids, ?_, swaps_of_construct hc hids hb hd, ?_⟩
  · simp only [replaceChild, hc, if_pos ho, hr]
    rfl
  · rw [construct?_adopt, construct?_setParent, construct?_setConstruct,
      if_pos ⟨rfl, lt_size_of_construct? hc⟩]

theorem replaceChild_swaps (h : t.replaceChild p o n = .ok u) : Swaps t p o [n] u := by
  have ho : o ∈ t.children p := by
    rcases hc : t.construct? p with _ | c
    · simp [replaceChild, hc] at h
    · rw [children_of_construct? hc]
      rcases Decidable.em (o ∈ c.children) with ho | ho
      · exact ho
      · simp [replaceChild, hc, ho] at h
  obtain ⟨c, before, after, u', -, -, -, hu, hs, -⟩ := exists_replaceChild ho n
  rw [h] at hu
  cases hu
  exact hs

/-- What a statement list is. -/
theorem statements?_spec {c : Construct} {stmts : List NodeId} (h : c.statements? = some stmts) :
    c = .block stmts ∨ c = .unit stmts := by
  cases c with
  | block _ => exact .inl (by cases h; rfl)
  | unit _ => exact .inr (by cases h; rfl)
  | _ => cases h

/-- Where there is a statement in a list, others can be put into its place. -/
theorem exists_splice (hb : t.isBlock p = true) (h : o ∈ t.children p) (news : List NodeId) :
    ∃ before after u, o ∉ before ∧ t.splice p o news = .ok u ∧ Swaps t p o news u ∧
      ((t.construct? p = some (.block (before ++ o :: after)) ∧
          u.construct? p = some (.block (before ++ news ++ after))) ∨
        (t.construct? p = some (.unit (before ++ o :: after)) ∧
          u.construct? p = some (.unit (before ++ news ++ after)))) := by
  obtain ⟨c, hc, hblock⟩ := (Option.any_eq_true ..).mp hb
  obtain ⟨stmts, hstmts⟩ := Option.isSome_iff_exists.mp hblock
  have hkids : c.children = stmts := by
    rcases statements?_spec hstmts with rfl | rfl <;> rfl
  have ho : o ∈ stmts := by rwa [children_of_construct? hc, hkids] at h
  obtain ⟨before, after, hbef, hids, hr⟩ := spliceFirst_eq_append news ho
  have hd : (c.withStatements (before ++ (news ++ after))).children = before ++ (news ++ after) := by
    rcases statements?_spec hstmts with rfl | rfl <;> rfl
  refine ⟨before, after, _, hbef, ?_, swaps_of_construct hc (hkids.trans hids) hbef hd, ?_⟩
  · simp only [splice, hc, Option.bind_some, hstmts, Option.map_some, if_pos ho, hr]
  · have hnew : ((((t.setConstruct p (c.withStatements (before ++ (news ++ after)))).setParent none
        o).adopt p news).construct? p) =
        some (c.withStatements (before ++ (news ++ after))) := by
      rw [construct?_adopt, construct?_setParent, construct?_setConstruct,
        if_pos ⟨rfl, lt_size_of_construct? hc⟩]
    rw [hnew, hc, List.append_assoc]
    subst hids
    rcases statements?_spec hstmts with rfl | rfl
    · exact .inl ⟨rfl, rfl⟩
    · exact .inr ⟨rfl, rfl⟩

theorem splice_swaps (h : t.splice p o news = .ok u) : Swaps t p o news u := by
  have hslot : t.isBlock p = true ∧ o ∈ t.children p := by
    rcases hc : t.construct? p with _ | c
    · simp [splice, hc] at h
    · rcases hs : c.statements? with _ | stmts
      · simp [splice, hc, hs] at h
      · have hkids : c.children = stmts := by
          rcases statements?_spec hs with rfl | rfl <;> rfl
        refine ⟨by simp [isBlock, hc, Construct.isBlock, hs], ?_⟩
        rw [children_of_construct? hc, hkids]
        rcases Decidable.em (o ∈ stmts) with ho | ho
        · exact ho
        · simp [splice, hc, hs, ho] at h
  obtain ⟨before, after, u', -, hu, hs, -⟩ := exists_splice hslot.1 hslot.2 news
  rw [h] at hu
  cases hu
  exact hs

/-- **Links stay right when one child gives its place to others**, whatever those are. -/
theorem Swaps.linked (h : Swaps t p o news u) (hl : t.Linked) : u.Linked := by
  intro i q hq
  obtain ⟨before, after, -, hold, hnew⟩ := h.slots
  rw [h.parent_eq] at hq
  split at hq
  · rename_i hi
    cases hq
    rw [hnew]
    exact List.mem_append_right _ (List.mem_append_left _ hi.1)
  · split at hq
    · cases hq
    · rename_i hio
      have hi := hl i q hq
      by_cases hqp : q = p
      · subst hqp
        rw [hold] at hi
        rw [hnew]
        simp only [List.mem_append, List.mem_cons] at hi ⊢
        rcases hi with hi | rfl | hi
        · exact .inl hi
        · exact absurd rfl hio
        · exact .inr (.inr hi)
      · rwa [h.children_eq hqp]

/-! ## 3. Replacing a statement -/

/-- **Where links are right, a statement of the program is replaced**: in its statement list, or by a
new block. -/
theorem replaceStatement_succeeds (hl : t.Linked) (hstmt : t.isStatement o = true)
    (hp : t.parent? o = some p) (hatt : t.isAttached o = true)
    (hne : news.filter t.isStatement ≠ []) :
    (t.isBlock p = true ∧ ∃ u, t.splice p o (news.filter t.isStatement) = .ok u ∧
      t.replaceStatement o news = (.ok (.spliced p (news.filter t.isStatement).length), u)) ∨
    (t.isBlock p = false ∧ ∃ u,
      (t.alloc (.block (news.filter t.isStatement)) default).2.replaceChild p o t.size = .ok u ∧
      t.replaceStatement o news = (.ok (.wrapped t.size), u)) := by
  have ho : o ∈ t.children p := hl o p hp
  have hempty : (news.filter t.isStatement).isEmpty = false := by simpa using hne
  rcases hblock : t.isBlock p with _ | _
  · -- the new block takes statements from elsewhere, but no slot of the parent
    have ho' : o ∈ (t.alloc (.block (news.filter t.isStatement)) default).2.children p := by
      rwa [children_alloc, if_neg (Nat.ne_of_lt (lt_size_of_mem_children ho))]
    obtain ⟨-, -, -, u, -, -, -, hu, -⟩ := exists_replaceChild ho' t.size
    refine .inr ⟨rfl, u, hu, ?_⟩
    simp only [replaceStatement, hstmt, hp, hatt, hempty, hblock, alloc_fst, hu]
    rfl
  · obtain ⟨-, -, u, -, hu, -⟩ := exists_splice hblock ho (news.filter t.isStatement)
    refine .inl ⟨rfl, u, hu, ?_⟩
    simp only [replaceStatement, hstmt, hp, hatt, hempty, hblock, hu]
    rfl

/-- A statement that hangs nowhere is not replaced. -/
theorem replaceStatement_of_not_isAttached (news : List NodeId) (hstmt : t.isStatement o = true)
    (h : t.isAttached o = false) : t.replaceStatement o news = (.error (.detached o), t) := by
  cases hp : t.parent? o <;> simp [replaceStatement, hstmt, hp, h]

/-- **Otherwise the edit fails and nothing changes**; a missing slot is never the reason. -/
theorem replaceStatement_cases (t : SyntaxTree) (o : NodeId) (news : List NodeId) :
    (∃ e, t.replaceStatement o news = (.error e, t) ∧ ∀ p c, e ≠ .slotNotFound p c) ∨
    ∃ p, t.isStatement o = true ∧ t.parent? o = some p ∧ t.isAttached o = true ∧
      news.filter t.isStatement ≠ [] := by
  rcases hstmt : t.isStatement o with _ | _
  · exact .inl ⟨.notAStatement o, by simp [replaceStatement, hstmt], by simp⟩
  rcases hatt : t.isAttached o with _ | _
  · exact .inl ⟨.detached o, replaceStatement_of_not_isAttached news hstmt hatt, by simp⟩
  rcases hp : t.parent? o with _ | p
  · exact .inl ⟨.detached o, by simp [replaceStatement, hstmt, hp], by simp⟩
  by_cases hne : news.filter t.isStatement = []
  · refine .inl ⟨.emptyReplacement o, ?_, by simp⟩
    simp only [replaceStatement, hstmt, hp, hatt, hne]
    rfl
  · exact .inr ⟨p, rfl, rfl, rfl, hne⟩

end Recast.SyntaxTree
