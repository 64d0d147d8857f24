/-
# Histories of a tree

A tree starts as the tree of the empty program or of a text.  Nodes are added to it, with any nodes
as children, and edits put nodes in, with success or without.  Nodes may be shared between parents
that way, or taken from one parent by another; even cycles can arise.

* `Edited`: the trees that some history leads to;
* `Edited.linked`: **every link leads to a node that has the linked node among its children**;
* `Edited.refusal_keeps`: hence replacing a statement never misses a slot, and **what is refused
  changes nothing.**
-/
import Recast.Proofs.Fix.TextEdit
import Recast.Proofs.Tree.Swap

namespace Recast.SyntaxTree

variable {t u : SyntaxTree}

/-! ## 1. Histories -/

/-- The trees that can be made from the empty program or from a text by adding nodes and by edits. -/
inductive Edited : SyntaxTree → Prop
  | new : Edited .new
  | parsed (text : String) : Edited (parseLenient text).1
  | alloc {t : SyntaxTree} (c : Construct) (span : Span) : Edited t → Edited (t.alloc c span).2
  | factory {t : SyntaxTree} {x : Build NodeId} : Edited t → Build.Factory x → Edited (x t).2
  | replaceChild {t u : SyntaxTree} {parent old new : NodeId} : Edited t →
      t.replaceChild parent old new = .ok u → Edited u
  | splice {t u : SyntaxTree} {parent old : NodeId} {news : List NodeId} : Edited t →
      t.splice parent old news = .ok u → Edited u
  | replaceStatement {t : SyntaxTree} (old : NodeId) (news : List NodeId) : Edited t →
      Edited (t.replaceStatement old news).2

theorem linked_new : new.Linked := by
  intro i p h
  have hempty : empty.Linked := by
    intro i p h
    simp [empty, parent?] at h
  exact hempty.alloc (.unit []) default i p h

/-- **No link dangles**, whatever the history of a tree is. -/
theorem Edited.linked (h : Edited t) : t.Linked := by
  induction h with
  | new => exact linked_new
  | parsed text => exact (parseLenient_rooted text).links
  | alloc c span _ ih => exact ih.alloc c span
  | factory _ hx ih => exact factory_keeps (fun _ c span hl => hl.alloc c span) hx ih
  | replaceChild _ hu ih => exact (replaceChild_swaps hu).linked ih
  | splice _ hu ih => exact (splice_swaps hu).linked ih
  | replaceStatement old news _ ih =>
    rcases replaceStatement_cases _ old news with ⟨e, he, -⟩ | ⟨p, hstmt, hp, hatt, hne⟩
    · rw [he]
      exact ih
    · rcases replaceStatement_succeeds ih hstmt hp hatt hne with ⟨-, u, hu, he⟩ | ⟨-, u, hu, he⟩
      · rw [he]
        exact (splice_swaps hu).linked ih
      · rw [he]
        exact (replaceChild_swaps hu).linked (ih.alloc _ _)

/-! ## 2. Refusals -/

/-- **Links never dangle, and a replacement that is refused changes nothing**: whatever the history of
a tree is, replacing a statement never fails for want of a slot, and if it fails, the tree is the one
before. -/
theorem Edited.refusal_keeps (h : Edited t) :
    (∀ c p, t.parent? c = some p → c ∈ t.children p) ∧
    ∀ old news,
      (∀ p c, (t.replaceStatement old news).1 ≠ .error (.slotNotFound p c)) ∧
      ∀ e, (t.replaceStatement old news).1 = .error e → (t.replaceStatement old news).2 = t := by
  refine ⟨h.linked, fun old news => ?_⟩
  rcases replaceStatement_cases t old news with ⟨e, he, hslot⟩ | ⟨p, hstmt, hp, hatt, hne⟩
  · rw [he]
    refine ⟨fun p c hpc => ?_, fun _ _ => rfl⟩
    cases hpc
    exact hslot p c rfl
  · have hok : ∃ placement u, t.replaceStatement old news = (.ok placement, u) := by
      rcases replaceStatement_succeeds h.linked hstmt hp hatt hne with
        ⟨-, u, -, he⟩ | ⟨-, u, -, he⟩
      · exact ⟨_, u, he⟩
      · exact ⟨_, u, he⟩
    obtain ⟨placement, u, he⟩ := hok
    rw [he]
    refine ⟨fun p c hpc => ?_, fun e hpc => ?_⟩ <;> cases hpc

/-- A branch that a new block has taken sits in two slots; it cannot be replaced, and trying to do so
changes nothing. -/
theorem refusal_keeps_stolen_branch :
    ∃ t : SyntaxTree, t = ((parseLenient "if (a) b = 1; else c = 2;").1.alloc (.block [4]) default).2 ∧
      4 ∈ t.children 9 ∧ 4 ∈ t.children 11 ∧
      (t.replaceStatement 4 [8]).1 = .error (.detached 4) ∧ (t.replaceStatement 4 [8]).2 = t := by
  obtain ⟨t, ht⟩ : ∃ t, t = ((parseLenient "if (a) b = 1; else c = 2;").1.alloc (.block [4])
    default).2 := ⟨_, rfl⟩
  have hstmt : t.isStatement 4 = true := by rw [ht]; decide +kernel
  have hatt : t.isAttached 4 = false := by rw [ht]; decide +kernel
  have hedited : Edited t := by rw [ht]; exact .alloc (.block [4]) default (.parsed _)
  have hrefused : (t.replaceStatement 4 [8]).1 = .error (.detached 4) := by
    rw [replaceStatement_of_not_isAttached [8] hstmt hatt]
  exact ⟨t, ht, by rw [ht]; decide +kernel, by rw [ht]; decide +kernel, hrefused,
    ((Edited.refusal_keeps hedited).2 4 [8]).2 _ hrefused⟩

end Recast.SyntaxTree
