/-
# Deep copies

A copy of a subtree is a tree of its own: it has as many nodes as the subtree, it hangs nowhere, and
what was there before is left as it was.  The copy has the shape of the original and its text.

* `Printer.PrintsAlike`: two nodes are printed alike, each in its own tree; `Copies.printsAlike`:
  **a copy is printed as the original**;
* `DeepCopy t id u b`: what is to be said of a copy of a subtree, all at once;
* `deepCopy_copy`: **copying makes a deep copy.**
-/
import Recast.Proofs.Parser.Table
import Recast.Proofs.Tree.Copy
import Recast.Tree.Printer

namespace Recast

open SyntaxTree (HeightLe Sprouts Copied Extends PostOrder Under children_of_construct?)
open Printer (exprText declaratorText bracedText isBraced branchText lines inline)

/-! ## 1. Copies are printed alike -/

variable {t u : SyntaxTree} {a b : NodeId}

/-- Expressions are printed alike if their parts are. -/
theorem Printer.exprText_map_eq {c : Construct} {f : NodeId → NodeId} {l m : Nat}
    (hc : t.construct? a = some c) (hd : u.construct? b = some (c.mapNodes f))
    (hk : ∀ k ∈ c.children, exprText t l k = exprText u m (f k)) :
    exprText t (l + 1) a = exprText u (m + 1) b := by
  have list : ∀ ids : List NodeId, (∀ k ∈ ids, k ∈ c.children) →
      ids.map (exprText t l) = (ids.map f).map (exprText u m) := by
    intro ids hids
    rw [List.map_map]
    exact List.map_congr_left fun k hmem => hk k (hids k hmem)
  rw [exprText, exprText, hc, hd]
  cases c with
  | member object _ | cast _ object | unary _ object | paren object =>
    simp only [Construct.mapNodes, hk object (by simp [Construct.children])]
  | call callee args =>
    simp only [Construct.mapNodes, hk callee (by simp [Construct.children]),
      list args (by simp +contextual [Construct.children])]
  | newObject _ args =>
    simp only [Construct.mapNodes, list args (by simp [Construct.children])]
  | assign _ x y | binary _ x y =>
    simp only [Construct.mapNodes, hk x (by simp [Construct.children]),
      hk y (by simp [Construct.children])]
  | _ => rfl

/-- A copy of an expression is printed as the original, within limits that are not below its height. -/
theorem Copies.exprText_eq (ht : t.WellFormed) (h : Copies t u [a] [b]) : ∀ {n l m : Nat},
    HeightLe t n a → n ≤ l → n ≤ m → exprText t l a = exprText u m b := by
  refine h.induct (P := fun a b => ∀ {n l m : Nat}, HeightLe t n a → n ≤ l → n ≤ m →
    exprText t l a = exprText u m b) ht fun {a b c f} hc hd hk n l m hn hl hm => ?_
  obtain ⟨n, rfl, hbelow⟩ := hn.exists_succ
  obtain ⟨l, rfl⟩ := Nat.exists_eq_succ_of_ne_zero (Nat.ne_zero_of_lt hl)
  obtain ⟨m, rfl⟩ := Nat.exists_eq_succ_of_ne_zero (Nat.ne_zero_of_lt hm)
  rw [children_of_construct? hc] at hbelow
  exact Printer.exprText_map_eq hc hd fun k hmem =>
    (hk k hmem).2 (hbelow k hmem) (Nat.le_of_succ_le_succ hl) (Nat.le_of_succ_le_succ hm)

/-- The node `a` of `t` and the node `b` of `u` are printed alike in every place, within limits that
allow for `n` nodes on the way down. -/
structure Printer.PrintsAlike (t u : SyntaxTree) (n : Nat) (a b : NodeId) : Prop where
  lines_eq : ∀ {l m : Nat} (depth : Nat), 2 * n ≤ l → 2 * n ≤ m →
    lines t l depth a = lines u m depth b
  inline_eq : ∀ {l m : Nat} (depth : Nat), 2 * n ≤ l + 1 → 2 * n ≤ m + 1 →
    inline t l depth a = inline u m depth b
  isBraced_eq : isBraced t a = isBraced u b
  bracedText_eq : ∀ {l m : Nat} (depth : Nat), 2 * n ≤ l + 2 → 2 * n ≤ m + 2 →
    bracedText (lines t l) depth (t.children a) = bracedText (lines u m) depth (u.children b)

namespace Printer

variable {n l m : Nat} {c : Construct} {f : NodeId → NodeId} {ids : List NodeId}

namespace PrintsAlike

theorem map_lines_eq (h : ∀ k ∈ ids, PrintsAlike t u n k (f k)) (depth : Nat) (hl : 2 * n ≤ l)
    (hm : 2 * n ≤ m) : ids.map (lines t l depth) = (ids.map f).map (lines u m depth) := by
  rw [List.map_map]
  exact List.map_congr_left fun k hmem => (h k hmem).lines_eq depth hl hm

theorem map_bracedText_eq (h : ∀ k ∈ ids, PrintsAlike t u n k (f k)) (depth : Nat) (hl : 2 * n ≤ l)
    (hm : 2 * n ≤ m) :
    bracedText (lines t l) depth ids = bracedText (lines u m) depth (ids.map f) := by
  rw [bracedText, bracedText, List.isEmpty_map, map_lines_eq h (depth + 1) hl hm]

theorem branchText_eq (h : PrintsAlike t u n a b) (depth : Nat) (hl : 2 * n ≤ l) (hm : 2 * n ≤ m) :
    branchText t (lines t l) (inline t l) depth a = branchText u (lines u m) (inline u m) depth b := by
  have hbelow := h.bracedText_eq (l := l) (m := m) depth (by omega) (by omega)
  have hnext := h.inline_eq (l := l) (m := m) (depth + 1) (by omega) (by omega)
  rw [branchText, branchText, h.isBraced_eq, hbelow, hnext]

end PrintsAlike

/-- Declarators are printed alike if their initializers are. -/
theorem declaratorText_map {x y : NodeId → String} {v : Declarator}
    (h : ∀ e, v.init = some e → x e = y (f e)) :
    declaratorText x v = declaratorText y ⟨v.name, v.init.map f⟩ := by
  rcases v with ⟨name, _ | init⟩
  · rfl
  · simp only [declaratorText, Option.map_some, h init rfl]

/-- Statements are printed alike if their parts are. -/
theorem inline_map_eq (hc : t.construct? a = some c) (hd : u.construct? b = some (c.mapNodes f))
    (hexpr : ∀ k ∈ c.children, exprText t t.size k = exprText u u.size (f k))
    (hk : ∀ k ∈ c.children, PrintsAlike t u n k (f k)) (depth : Nat) (hl : 2 * n ≤ l)
    (hm : 2 * n ≤ m) : inline t (l + 1) depth a = inline u (m + 1) depth b := by
  have branch : ∀ k ∈ c.children, branchText t (lines t l) (inline t l) depth k =
      branchText u (lines u m) (inline u m) depth (f k) := fun k hmem =>
    (hk k hmem).branchText_eq depth hl hm
  rw [inline, inline, hc, hd]
  cases c with
  | block stmts =>
    exact PrintsAlike.map_bracedText_eq hk depth hl hm
  | exprStmt e | yieldStmt e =>
    simp only [Construct.mapNodes, hexpr e (by simp [Construct.children])]
  | localDecl type vars =>
    have hvars : vars.map (declaratorText (exprText t t.size)) =
        (vars.map fun v => (⟨v.name, v.init.map f⟩ : Declarator)).map
          (declaratorText (exprText u u.size)) := by
      rw [List.map_map]
      refine List.map_congr_left fun v hv => declaratorText_map fun e he => hexpr e ?_
      exact List.mem_filterMap.mpr ⟨v, hv, he⟩
    simp only [Construct.mapNodes, hvars]
  | returnStmt value =>
    cases value with
    | none => rfl
    | some value =>
      simp only [Construct.mapNodes, Option.map_some, hexpr value (by simp [Construct.children])]
  | ifStmt condition thenBranch elseBranch =>
    have hcondition := hexpr condition (by simp [Construct.children])
    have hthen := branch thenBranch (by simp [Construct.children])
    have hbraced := (hk thenBranch (by simp [Construct.children])).isBraced_eq
    cases elseBranch with
    | none => simp only [Construct.mapNodes, Option.map_none, hcondition, hthen]
    | some elseBranch =>
      have helse := branch elseBranch (by simp [Construct.children])
      simp only [Construct.mapNodes, Option.map_some, hcondition, hthen, hbraced, helse]
  | whileStmt condition body =>
    simp only [Construct.mapNodes, hexpr condition (by simp [Construct.children]),
      branch body (by simp [Construct.children])]
  | doStmt body condition =>
    simp only [Construct.mapNodes, hexpr condition (by simp [Construct.children]),
      branch body (by simp [Construct.children]),
      (hk body (by simp [Construct.children])).isBraced_eq]
  | _ => rfl

/-- Declarations are printed alike if their parts are, and other constructs if they are where a
statement and where an expression stands. -/
theorem lines_map_eq (hc : t.construct? a = some c) (hd : u.construct? b = some (c.mapNodes f))
    (hself : exprText t t.size a = exprText u u.size b)
    (hexpr : ∀ k ∈ c.children, exprText t t.size k = exprText u u.size (f k))
    (hk : ∀ k ∈ c.children, PrintsAlike t u n k (f k)) (depth : Nat) (hl : 2 * n ≤ l)
    (hm : 2 * n ≤ m) (hinline : inline t l depth a = inline u m depth b) :
    lines t (l + 1) depth a = lines u (m + 1) depth b := by
  have other : (if c.isExpression then exprText t t.size a
      else indent depth ++ inline t l depth a ++ "\n") = if (c.mapNodes f).isExpression
      then exprText u u.size b else indent depth ++ inline u m depth b ++ "\n" := by
    rw [Construct.isExpression_mapNodes, hself, hinline]
  rw [lines, lines, hc, hd]
  cases c with
  | unit items =>
    simp only [Construct.mapNodes, PrintsAlike.map_lines_eq (show ∀ k ∈ items, _ from hk) depth hl hm]
  | classDecl name members =>
    simp only [Construct.mapNodes, PrintsAlike.map_lines_eq (show ∀ k ∈ members, _ from hk) (depth + 1)
      hl hm]
  | field type name init =>
    have hinit := declaratorText_map (v := ⟨name, init⟩) (f := f) (x := exprText t t.size)
      (y := exprText u u.size) fun e he => hexpr e (by simpa [Construct.children] using he)
    simp only [Construct.mapNodes, hinit]
  | function returnType name params body =>
    have hbody := (hk body (by simp [Construct.children])).bracedText_eq (l := l) (m := m) depth
      (by omega) (by omega)
    simp only [Construct.mapNodes, hbody]
  | property _ _ _ => rfl
  | _ => exact other

end Printer

/-- **A copy is printed as the original.** -/
theorem Copies.printsAlike (ht : t.WellFormed) (h : Copies t u [a] [b]) : ∀ {n : Nat},
    HeightLe t n a → n ≤ t.size → n ≤ u.size → Printer.PrintsAlike t u n a b := by
  refine h.induct (P := fun a b => ∀ {n : Nat}, HeightLe t n a → n ≤ t.size → n ≤ u.size →
    Printer.PrintsAlike t u n a b) ht fun {a b c f} hc hd hk n hn htn hun => ?_
  obtain ⟨n, rfl, hbelow⟩ := hn.exists_succ
  rw [children_of_construct? hc] at hbelow
  have hself : exprText t t.size a = exprText u u.size b := by
    obtain ⟨l, hl⟩ := Nat.exists_eq_succ_of_ne_zero (show t.size ≠ 0 by omega)
    obtain ⟨m, hm⟩ := Nat.exists_eq_succ_of_ne_zero (show u.size ≠ 0 by omega)
    rw [hl, hm]
    exact Printer.exprText_map_eq hc hd fun k hmem =>
      (hk k hmem).1.exprText_eq ht (hbelow k hmem) (by omega) (by omega)
  have hexpr : ∀ k ∈ c.children, exprText t t.size k = exprText u u.size (f k) := fun k hmem =>
    (hk k hmem).1.exprText_eq ht (hbelow k hmem) (by omega) (by omega)
  have hparts : ∀ k ∈ c.children, Printer.PrintsAlike t u n k (f k) := fun k hmem =>
    (hk k hmem).2 (hbelow k hmem) (by omega) (by omega)
  have hinline : ∀ {l m : Nat} (depth : Nat), 2 * (n + 1) ≤ l + 1 → 2 * (n + 1) ≤ m + 1 →
      inline t l depth a = inline u m depth b := by
    intro l m depth hl hm
    obtain ⟨l, rfl⟩ := Nat.exists_eq_succ_of_ne_zero (show l ≠ 0 by omega)
    obtain ⟨m, rfl⟩ := Nat.exists_eq_succ_of_ne_zero (show m ≠ 0 by omega)
    exact Printer.inline_map_eq hc hd hexpr hparts depth (by omega) (by omega)
  refine ⟨fun {l m} depth hl hm => ?_, hinline, ?_, fun depth hl hm => ?_⟩
  · obtain ⟨l, rfl⟩ := Nat.exists_eq_succ_of_ne_zero (show l ≠ 0 by omega)
    obtain ⟨m, rfl⟩ := Nat.exists_eq_succ_of_ne_zero (show m ≠ 0 by omega)
    exact Printer.lines_map_eq hc hd hself hexpr hparts depth (by omega) (by omega)
      (hinline depth (by omega) (by omega))
  · rw [isBraced, isBraced, hc, hd]
    cases c <;> rfl
  · rw [children_of_construct? hc, children_of_construct? hd, Construct.children_mapNodes]
    exact Printer.PrintsAlike.map_bracedText_eq hparts depth (by omega) (by omega)

/-! ## 2. Deep copies -/

/-- Copies of single nodes are copies of several. -/
theorem Copies.of_forall : ∀ {ids : List NodeId}, (∀ k ∈ ids, Copies t u [k] [k]) →
    Copies t u ids ids
  | [], _ => .nil
  | k :: ids, h => by
    obtain ⟨c, ks, hc, hks, hd⟩ := Copies.node_iff.mp (h k (List.mem_cons_self ..))
    exact .cons hc hks hd (of_forall fun j hj => h j (List.mem_cons_of_mem _ hj))

namespace SyntaxTree

variable {id : NodeId}

/-- A node of a table that grows is a copy of itself. -/
theorem HeightLe.copies_self {n : Nat} (h : HeightLe t n id) (ht : t.WellFormed) (hid : id < t.size)
    (hu : t.Extends u) : Copies t u [id] [id] := by
  induction h with
  | @node n id _ ih =>
    obtain ⟨c, hc⟩ := exists_construct? hid
    rw [children_of_construct? hc] at ih
    refine Copies.node_iff.mpr ⟨c, c.children, hc, .of_forall fun k hk => ih k hk ?_, ?_⟩
    · exact lt_size_of_up ((ht.links k id).mpr (by rwa [children_of_construct? hc]))
    · rw [Construct.withChildren_children, hu.construct?_eq_some hc]

/-- A copy of a subtree has the text of the original. -/
theorem WellFormed.printNode_eq (ht : t.WellFormed) (hid : id < t.size) (hsize : t.size ≤ u.size)
    (h : Copies t u [id] [b]) : u.printNode b = t.printNode id := by
  have hweight := t.weight_le_size id
  have halike := h.printsAlike ht (ht.heightLe_weight (Nat.le_refl _) hid) hweight (by omega)
  have hlines := halike.lines_eq (l := t.printLimit) (m := u.printLimit) 0
    (by rw [printLimit]; omega) (by rw [printLimit]; omega)
  rw [printNode, printNode, hlines]

/-- The tree `u` is `t` with a deep copy of the subtree at `id`, and `b` is the copy of `id`. -/
structure DeepCopy (t : SyntaxTree) (id : NodeId) (u : SyntaxTree) (b : NodeId) : Prop where
  /-- As many nodes are added as the subtree has. -/
  size_eq : u.size = t.size + t.weight id
  /-- The new nodes are those of the copy, in post-order. -/
  order : PostOrder u [b] (List.range' t.size (t.weight id))
  /-- The copy of the node itself is the last of them. -/
  last : b + 1 = u.size
  span_eq_default : ∀ i, t.size ≤ i → u.spanOf i = default
  construct_eq : ∀ i < t.size, u.construct? i = t.construct? i
  span_eq : ∀ i < t.size, u.spanOf i = t.spanOf i
  parent_eq : ∀ i < t.size, u.parent? i = t.parent? i
  root_eq : u.root = t.root
  /-- The copy hangs nowhere. -/
  free : u.parent? b = none
  detached : ∀ i, Under u [b] i → u.isAttached i = false
  /-- The copy and the original have no node in common. -/
  apart : ∀ i, Under u [b] i → ¬ Under u [id] i
  wellFormed : u.WellFormed
  sameShape : SameShape t u [id] [b]
  printNode_eq : u.printNode b = t.printNode id
  /-- The text of the original is what it was. -/
  printNode_self : u.printNode id = t.printNode id

/-- The last node of a subtree in post-order is its root. -/
theorem PostOrder.eq_of_range' {start count : Nat}
    (h : PostOrder u [b] (List.range' start count)) : b + 1 = start + count := by
  generalize hks : List.range' start count = ks at h
  cases h with
  | @cons _ _ ks ls _ hl =>
    cases hl
    cases count with
    | zero => simp at hks
    | succ count =>
      rw [List.range'_concat, Nat.one_mul] at hks
      obtain ⟨-, hb⟩ := List.append_inj' hks rfl
      rw [← (List.cons.inj hb).1, Nat.add_assoc]

/-- **Copying makes a deep copy of a subtree**, in a well-formed tree whose root is one of its nodes. -/
theorem deepCopy_copy (t : SyntaxTree) (id : NodeId) (ht : t.WellFormed) (hroot : t.root < t.size)
    (hid : id < t.size) : DeepCopy t id (Build.copy id t).2 (Build.copy id t).1 := by
  have hspan : ∀ i, t.size ≤ i → (Build.copy id t).2.spanOf i = default := by
    refine copyTo_keeps (P := fun w => ∀ i, t.size ≤ i → w.spanOf i = default)
      (fun w c h i hi => ?_) t.size id t fun i hi => ?_
    · rw [spanOf_alloc]
      split
      · rfl
      · exact h i hi
    · exact spanOf_of_size_le hi
  obtain ⟨b, u, hcopy, hcopied⟩ := (Sprouts.refl ht hroot).copied hid
  rw [hcopy] at hspan ⊢
  obtain ⟨ks, hks, horder, hsize⟩ := hcopied.order
  rw [ht.length_postOrder hid hks] at horder hsize
  have hsprouts := hcopied.sprouts
  have hnew : ∀ {i}, Under u [b] i → t.size ≤ i := fun hu =>
    (List.mem_range'_1.mp (horder.mem_iff.mpr hu)).1
  have hb : t.size ≤ b := hnew (.root (List.mem_singleton_self _))
  have hfree : u.parent? b = none := hsprouts.free b (List.mem_singleton_self _)
  have hself : Copies t u [id] [id] :=
    (ht.heightLe_weight (Nat.le_refl _) hid).copies_self ht hid hcopied.grows
  exact {
    size_eq := hsize
    order := horder
    last := by rw [horder.eq_of_range', hsize]
    span_eq_default := hspan
    construct_eq := hcopied.grows.construct_eq
    span_eq := hcopied.grows.span_eq
    parent_eq := hsprouts.parent_eq
    root_eq := hsprouts.root_eq
    free := hfree
    detached := fun i hi => by
      refine hsprouts.wellFormed.isAttached_eq_false_iff.mpr
        (hsprouts.wellFormed.not_inTree_of_under (fun s hs => ?_) hi)
      rw [List.mem_singleton.mp hs, hsprouts.root_eq]
      exact ⟨hfree, Nat.ne_of_gt (Nat.lt_of_lt_of_le hroot hb)⟩
    apart := fun i hi hi' => by
      have hold := (hsprouts.under_iff (by simpa using hid)).mp hi'
      exact Nat.not_lt.mpr (hnew hi) (ht.lt_size_of_under (by simpa using hid) hold)
    wellFormed := hsprouts.wellFormed
    sameShape := hcopied.copies.sameShape
    printNode_eq := ht.printNode_eq hid hcopied.grows.size_le hcopied.copies
    printNode_self := ht.printNode_eq hid hcopied.grows.size_le hself }

/-- A loop of eleven nodes in a program of fourteen. -/
theorem deepCopy_loop :
    ∃ t : SyntaxTree, t = (parseLenient "int a, b = x; do a = g(b, 1L); while (b > 0);").1 ∧
      t.root < t.size ∧ 12 < t.size ∧ t.weight 12 = 11 ∧ (Build.copy 12 t).1 = 24 ∧
      t.printNode 12 = "do\n    a = g(b, 1L);\nwhile (b > 0);" ∧
      DeepCopy t 12 (Build.copy 12 t).2 (Build.copy 12 t).1 := by
  obtain ⟨t, ht⟩ : ∃ t, t = (parseLenient "int a, b = x; do a = g(b, 1L); while (b > 0);").1 :=
    ⟨_, rfl⟩
  have hfacts : t.root < t.size ∧ 12 < t.size ∧ t.weight 12 = 11 ∧ (Build.copy 12 t).1 = 24 ∧
      t.printNode 12 = "do\n    a = g(b, 1L);\nwhile (b > 0);" := by
    rw [ht]
    decide +kernel
  obtain ⟨hroot, hid, hweight, hcopy, htext⟩ := hfacts
  have hwf : t.WellFormed := ht ▸ parseLenient_wellFormed _
  exact ⟨t, ht, hroot, hid, hweight, hcopy, htext, deepCopy_copy t 12 hwf hroot hid⟩

end SyntaxTree

end Recast
