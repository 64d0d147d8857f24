/-
# The statement at an offset

The search for a statement goes down from the root, each time to the first child that covers the
offset, and then up to the first convertible statement.  Since the spans of a program nest and those
of siblings are apart, this finds what a search through all nodes would find.

* `SyntaxTree.Nested`: the spans of a program nest, and siblings are apart; `parseLenient_nested`: so
  it is in every program that was read;
* `Nested.descend_innermost`: the walk down ends below every node that covers the offset;
* `parseLenient_convertible_unique`: at most one convertible statement covers an offset, since the
  parts of one are expressions;
* `parseLenient_locates`: **the search finds the innermost node and the one convertible statement.**
-/
import Recast.Proofs.Document.Spans
import Recast.Proofs.Fix.Statement

namespace Recast

open SyntaxTree (Under)
open Text (byteSize)

/-! ## 1. Spans that nest -/

namespace SyntaxTree

/-- The spans of the program nest, and of two children of a node the first ends before the second
starts. -/
structure Nested (t : SyntaxTree) : Prop where
  inside : ∀ {i k}, t.InTree i → k ∈ t.children i →
    (t.spanOf i).offset ≤ (t.spanOf k).offset ∧ (t.spanOf k).stop ≤ (t.spanOf i).stop
  apart : ∀ {i}, t.InTree i →
    (t.children i).Pairwise fun a b => (t.spanOf a).stop ≤ (t.spanOf b).offset

/-- The node is part of the program and covers the offset. -/
def Covers (t : SyntaxTree) (offset : Nat) (i : NodeId) : Prop :=
  t.InTree i ∧ (t.spanOf i).contains offset = true

namespace Nested

variable {t : SyntaxTree} (h : t.Nested) {offset : Nat} {i k m : NodeId}
include h

/-- What is above a node covers all that the node covers. -/
theorem contains_of_under (hk : t.InTree k) (hu : Under t [k] m)
    (hm : (t.spanOf m).contains offset = true) : (t.spanOf k).contains offset = true := by
  induction hu with
  | root hi => rwa [List.mem_singleton.mp hi] at hm
  | @child p m hp hi ih =>
    refine ih ?_
    have hin : t.InTree p := hp.mono fun j hj => by
      rw [List.mem_singleton.mp hj]
      exact hk
    obtain ⟨hoff, hstop⟩ := h.inside hin hi
    rw [Span.contains_eq_true_iff] at hm ⊢
    omega

/-- At most one child covers an offset. -/
theorem child_unique (hi : t.InTree i) (hk : k ∈ t.children i) (hm : m ∈ t.children i)
    (hck : (t.spanOf k).contains offset = true) (hcm : (t.spanOf m).contains offset = true) :
    k = m := by
  obtain ⟨before, after, hkids⟩ := List.append_of_mem hk
  have hpairs := h.apart hi
  rw [hkids] at hpairs hm
  obtain ⟨-, hlater, hearlier⟩ := List.pairwise_append.mp hpairs
  rw [Span.contains_eq_true_iff] at hck hcm
  rcases List.mem_append.mp hm with hm | hm
  · have hstop := hearlier m hm k (List.mem_cons_self ..)
    omega
  · rcases List.mem_cons.mp hm with rfl | hm
    · rfl
    · have hstop := List.rel_of_pairwise_cons hlater hm
      omega

/-- **The walk down ends below every node that covers the offset**, and covers it itself.  Every step
leads to an earlier node of the table, so that the walk is not cut off. -/
theorem descend_innermost (hlt : ∀ p k : Nat, k ∈ t.children p → k < p) :
    ∀ {limit i : Nat}, i < limit → t.Covers offset i → t.Covers offset (t.descend offset limit i) ∧
      ∀ m, Under t [i] m → (t.spanOf m).contains offset = true →
        Under t [m] (t.descend offset limit i)
  | 0, _, hlimit, _ => absurd hlimit (Nat.not_lt_zero _)
  | limit + 1, i, hlimit, ⟨hin, hci⟩ => by
    -- a node below `i` that covers the offset is `i` or below a child that covers it
    have hbelow : ∀ {m}, Under t [i] m → (t.spanOf m).contains offset = true →
        m = i ∨ ∃ k ∈ t.children i, (t.spanOf k).contains offset = true ∧ Under t [k] m := by
      intro m hm hcm
      rcases Under.cases_root hm with rfl | hm
      · exact .inl rfl
      · obtain ⟨k, hk, hkm⟩ := hm.exists_root
        exact .inr ⟨k, hk, h.contains_of_under (.child hin hk) hkm hcm, hkm⟩
    unfold descend
    split
    · rename_i hnone
      refine ⟨⟨hin, hci⟩, fun m hm hcm => ?_⟩
      rcases hbelow hm hcm with rfl | ⟨k, hk, hck, -⟩
      · exact .root (List.mem_singleton_self _)
      · exact absurd hck (List.find?_eq_none.mp hnone k hk)
    · rename_i c hfound
      have hc : c ∈ t.children i := List.mem_of_find?_eq_some hfound
      have hcc : (t.spanOf c).contains offset = true := by
        simpa using List.find?_some hfound
      have hclt : c < limit := Nat.lt_of_lt_of_le (hlt i c hc) (Nat.le_of_lt_succ hlimit)
      obtain ⟨hcovers, hinner⟩ := descend_innermost hlt hclt ⟨.child hin hc, hcc⟩
      refine ⟨hcovers, fun m hm hcm => ?_⟩
      rcases hbelow hm hcm with rfl | ⟨k, hk, hck, hkm⟩
      · exact under_descend offset limit (.child (.root (List.mem_singleton_self _)) hc)
      · rw [h.child_unique hin hk hc hck hcc] at hkm
        exact hinner m hkm hcm

end Nested

end SyntaxTree

/-- The tokens of the parts of a node of the program. -/
theorem parseLenient_parts (text : String) : ∃ ts, Ordered ts ∧
    ∀ i, (parseLenient text).1.InTree i → ∃ c us,
      (parseLenient text).1.construct? i = some c ∧ us.Sublist ts ∧
      Spells (parseLenient text).1 (Placed (parseLenient text).1) c.pieces us ∧
      (i ≠ (parseLenient text).1.root → (parseLenient text).1.spanOf i = cover us) ∧
      ∀ k ∈ c.children, ∀ vs,
        Spells (parseLenient text).1 (Placed (parseLenient text).1) [.node k] vs → vs ≠ [] := by
  have hwf := parseLenient_wellFormed text
  obtain ⟨toks, stop, rest, items, ts, hlex, -, hsub, -, hroot, hsp, hnodes⟩ :=
    parseLenient_tokens text
  refine ⟨ts, hlex.ordered.sublist hsub, fun i hi => ?_⟩
  have hchild : ∀ {c}, (parseLenient text).1.construct? i = some c → ∀ k ∈ c.children, ∀ vs,
      Spells (parseLenient text).1 (Placed (parseLenient text).1) [.node k] vs → vs ≠ [] := by
    intro c hc k hk
    refine (hnodes k (hi.slot hc hk) fun he => ?_).1
    have hlink := (hwf.links k i).mpr (by rwa [SyntaxTree.children_of_construct? hc])
    rw [he, hwf.top] at hlink
    cases hlink
  by_cases hr : i = (parseLenient text).1.root
  · subst hr
    exact ⟨_, ts, hroot, .refl _, hsp, fun hne => absurd rfl hne, hchild hroot⟩
  · obtain ⟨-, us, hus, hspell⟩ := hnodes i hi hr
    obtain ⟨c, hc, hk, hat⟩ := Spells.node_iff.mp hspell
    exact ⟨c, us, hc, hus.sublist, hk, fun _ => hat, hchild hc⟩

/-- **The spans of a program that was read nest.** -/
theorem parseLenient_nested (text : String) : (parseLenient text).1.Nested := by
  obtain ⟨ts, ho, hparts⟩ := parseLenient_parts text
  refine ⟨fun {i k} hi hk => ?_, fun {i} hi => ?_⟩
  · obtain ⟨c, us, hc, hsub, hspell, hspan, hne⟩ := hparts i hi
    have hk' := hk
    rw [SyntaxTree.children_of_construct? hc, ← c.nodes_pieces] at hk'
    obtain ⟨vs, hvs, hat⟩ := hspell.of_mem_nodes hk'
    have hplaced : (parseLenient text).1.spanOf k = cover vs := (Spells.node_iff.mp hat).choose_spec.2.2
    by_cases hr : i = (parseLenient text).1.root
    · have hkr : k ≠ (parseLenient text).1.root := fun he => by
        have hwf := parseLenient_wellFormed text
        have hlink := (hwf.links k i).mpr hk
        rw [he, hwf.top] at hlink
        cases hlink
      obtain ⟨before, mid, after, htext, -, -, hstop⟩ := parseLenient_cut text (.child hi hk) hkr
      rw [hr, parseLenient_rootSpan, hstop, htext]
      refine ⟨Nat.zero_le _, ?_⟩
      simp only [Span.stop, Text.byteSize_append]
      omega
    · rw [hspan hr, hplaced]
      rw [c.nodes_pieces] at hk'
      exact cover_subset (ho.sublist hsub) hvs.sublist (hne k hk' vs hat)
  · obtain ⟨c, us, hc, hsub, hspell, -, hne⟩ := hparts i hi
    have hpairs := hspell.spans_apart (ho.sublist hsub) (by rwa [c.nodes_pieces])
    rw [c.nodes_pieces, ← SyntaxTree.children_of_construct? hc] at hpairs
    exact hpairs.imp fun hab => hab.2

/-! ## 2. The node at an offset -/

variable {text : String} {offset : Nat} {n m m' : NodeId} {c c' : Convertible}

theorem parseLenient_nodeAt?_eq_none :
    (parseLenient text).1.nodeAt? offset = none ↔ ¬ offset < byteSize text.toList := by
  have hroot : ((parseLenient text).1.spanOf (parseLenient text).1.root).contains offset = true ↔
      offset < byteSize text.toList := by
    rw [Span.contains_eq_true_iff, parseLenient_rootSpan]
    simp [Span.stop]
  rw [← hroot, SyntaxTree.nodeAt?]
  split <;> simp_all

/-- **The node at an offset covers it and is below every node that covers it.** -/
theorem parseLenient_nodeAt?_eq_some (h : (parseLenient text).1.nodeAt? offset = some n) :
    (parseLenient text).1.Covers offset n ∧
      ∀ m, (parseLenient text).1.Covers offset m → Under (parseLenient text).1 [m] n := by
  unfold SyntaxTree.nodeAt? at h
  split at h
  · rename_i hroot
    cases h
    have hin := SyntaxTree.inTree_root (parseLenient text).1
    obtain ⟨hcovers, hinner⟩ := (parseLenient_nested text).descend_innermost
      (parseLenient_slotted text).lt ((parseLenient_rooted text).lt_size hin) ⟨hin, hroot⟩
    exact ⟨hcovers, fun m hm => hinner m hm.1 hm.2⟩
  · cases h

/-! ## 3. The convertible statement -/

/-- No convertible statement is a part of another one: the parts of such a statement are
expressions. -/
theorem parseLenient_convertible_of_under (hin : (parseLenient text).1.InTree m)
    (hu : Under (parseLenient text).1 [m] m') (hc : (parseLenient text).1.convertible? m = some c)
    (hc' : (parseLenient text).1.convertible? m' = some c') : m' = m := by
  obtain ⟨rfl, -⟩ := convertible?_stmt hc
  obtain ⟨-, s', hs', hstmt'⟩ := convertible?_stmt hc'
  obtain ⟨role, hf⟩ := parseLenient_fits text hin (parseLenient_convertible_ne_root hc)
  rcases (isConvertible_of_convertible? hc).isExpression_of_under hf hu with he | he
  · exact he
  · rw [SyntaxTree.isExpression, hs', Option.any_some] at he
    cases s' <;> simp [Construct.isStatement, Construct.isExpression] at hstmt' he

/-- **At most one convertible statement covers an offset.** -/
theorem parseLenient_convertible_unique (hm : (parseLenient text).1.Covers offset m)
    (hm' : (parseLenient text).1.Covers offset m')
    (hc : (parseLenient text).1.convertible? m = some c)
    (hc' : (parseLenient text).1.convertible? m' = some c') : m = m' := by
  cases hn : (parseLenient text).1.nodeAt? offset with
  | none =>
    have hroot := (parseLenient_nested text).contains_of_under (SyntaxTree.inTree_root _) hm.1 hm.2
    rw [SyntaxTree.nodeAt?, if_pos hroot] at hn
    cases hn
  | some n =>
    obtain ⟨-, hinner⟩ := parseLenient_nodeAt?_eq_some hn
    rcases (parseLenient_wellFormed text).comparable (hinner m hm) (hinner m' hm') with hu | hu
    · exact (parseLenient_convertible_of_under hm.1 hu hc hc').symm
    · exact parseLenient_convertible_of_under hm'.1 hu hc' hc

/-- The way up from the node at an offset meets exactly the nodes that cover it. -/
theorem parseLenient_mem_way_up (hn : (parseLenient text).1.nodeAt? offset = some n) :
    m ∈ n :: (parseLenient text).1.ancestors n ↔ (parseLenient text).1.Covers offset m := by
  obtain ⟨hcovers, hinner⟩ := parseLenient_nodeAt?_eq_some hn
  have hiff : m ∈ n :: (parseLenient text).1.ancestors n ↔ Under (parseLenient text).1 [m] n := by
    rw [(parseLenient_wellFormed text).under_iff, List.mem_cons, eq_comm]
  rw [hiff]
  constructor
  · intro hu
    have hin : (parseLenient text).1.InTree m := by
      rcases (parseLenient_wellFormed text).under_iff.mp hu with rfl | ha
      · exact hcovers.1
      · exact (parseLenient_rooted text).inTree_of_mem_climb hcovers.1 ha
    exact ⟨hin, (parseLenient_nested text).contains_of_under hin hu hcovers.2⟩
  · exact hinner m

/-- **What is located is the convertible statement that covers the offset.** -/
theorem parseLenient_convertibleAt?_eq_some :
    (parseLenient text).1.convertibleAt? offset = some c ↔
      ∃ m, (parseLenient text).1.Covers offset m ∧
        (parseLenient text).1.convertible? m = some c := by
  rw [SyntaxTree.convertibleAt?, Option.bind_eq_some_iff]
  constructor
  · rintro ⟨n, hn, hc⟩
    obtain ⟨m, hm, hc⟩ := List.exists_of_findSome?_eq_some hc
    exact ⟨m, (parseLenient_mem_way_up hn).mp hm, hc⟩
  · rintro ⟨m, hm, hc⟩
    obtain ⟨n, hn⟩ : ∃ n, (parseLenient text).1.nodeAt? offset = some n := by
      refine ⟨_, if_pos ?_⟩
      exact (parseLenient_nested text).contains_of_under (SyntaxTree.inTree_root _) hm.1 hm.2
    refine ⟨n, hn, ?_⟩
    cases hfound : (parseLenient text).1.convertibleAround? n with
    | none =>
      rw [List.findSome?_eq_none_iff.mp hfound m ((parseLenient_mem_way_up hn).mpr hm)] at hc
      cases hc
    | some c' =>
      -- the first one on the way up covers the offset too, so it is this one
      obtain ⟨m', hm', hc'⟩ := List.exists_of_findSome?_eq_some hfound
      rw [← parseLenient_convertible_unique hm ((parseLenient_mem_way_up hn).mp hm') hc hc', hc] at hc'
      exact hc'.symm

/-- **The search finds the innermost node that covers an offset, and the one convertible statement that
covers it.**  There is no such node exactly where the text has ended. -/
theorem parseLenient_locates (text : String) (offset : Nat) :
    ((parseLenient text).1.nodeAt? offset = none ↔ ¬ offset < byteSize text.toList) ∧
    (∀ n, (parseLenient text).1.nodeAt? offset = some n →
      (parseLenient text).1.isAttached n = true ∧
      ((parseLenient text).1.spanOf n).contains offset = true ∧
      ∀ m, (parseLenient text).1.isAttached m = true →
        ((parseLenient text).1.spanOf m).contains offset = true →
        m = n ∨ m ∈ (parseLenient text).1.ancestors n) ∧
    (∀ m m' c c', (parseLenient text).1.isAttached m = true →
      (parseLenient text).1.isAttached m' = true →
      ((parseLenient text).1.spanOf m).contains offset = true →
      ((parseLenient text).1.spanOf m').contains offset = true →
      (parseLenient text).1.convertible? m = some c →
      (parseLenient text).1.convertible? m' = some c' → m = m') ∧
    ∀ c, (parseLenient text).1.convertibleAt? offset = some c ↔
      ∃ m, (parseLenient text).1.isAttached m = true ∧
        ((parseLenient text).1.spanOf m).contains offset = true ∧
        (parseLenient text).1.convertible? m = some c := by
  have hattached : ∀ {m}, (parseLenient text).1.isAttached m = true ↔ (parseLenient text).1.InTree m :=
    (parseLenient_wellFormed text).isAttached_iff
  refine ⟨parseLenient_nodeAt?_eq_none, fun n hn => ?_, fun m m' c c' hm hm' hs hs' hc hc' => ?_,
    fun c => ?_⟩
  · obtain ⟨hcovers, -⟩ := parseLenient_nodeAt?_eq_some hn
    refine ⟨hattached.mpr hcovers.1, hcovers.2, fun m hm hs => ?_⟩
    exact List.mem_cons.mp ((parseLenient_mem_way_up hn).mpr ⟨hattached.mp hm, hs⟩)
  · exact parseLenient_convertible_unique ⟨hattached.mp hm, hs⟩ ⟨hattached.mp hm', hs'⟩ hc hc'
  · rw [parseLenient_convertibleAt?_eq_some]
    refine exists_congr fun m => ?_
    rw [hattached, SyntaxTree.Covers, and_assoc]

end Recast
