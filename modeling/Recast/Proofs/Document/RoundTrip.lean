/-
# Printing and reading

A tree that was read from a text, with or without errors, is printed as a text that is read as a tree
of the same shape.  Floating-point literals are left out: their text is not always read as the same
kind of literal.

* `parseLenient_ready`: what lies below a node of the program can be written;
* `Spells.kind_ne_error`: tokens that spell something are no errors;
* `parseLenient_of_reads`: a text that is read as the tokens of a program is read as that program;
* `parse_print`: **printing undoes parsing**.
-/
import Recast.Proofs.Document.History
import Recast.Proofs.Parser.RereadProgram
import Recast.Proofs.Tree.Printed

namespace Recast

/-! ## 1. A program that was read can be written -/

theorem Piece.not_mem_separated {p : Piece} (hp : p ≠ .sign .comma) :
    ∀ {pss : List (List Piece)}, (∀ ps ∈ pss, p ∉ ps) → p ∉ separated pss
  | [], _ => by simp [separated]
  | [ps], h => h ps (List.mem_singleton_self _)
  | ps :: qs :: rest, h => by
    have ih := not_mem_separated hp fun rs hrs => h rs (List.mem_cons_of_mem ps hrs)
    simp [separated, h ps (List.mem_cons_self ..), ih, hp]

/-- Only a literal has a literal among its pieces, and no construct has an error. -/
theorem Construct.pieces_spec {c : Construct} {p : Piece} (h : p ∈ c.pieces) :
    p ≠ .sign .error ∧ ∀ v, p = .literal v → c = .literal v := by
  suffices hall : p = .sign .error ∨ (∃ v, p = .literal v) → ∃ v, p = .literal v ∧ c = .literal v by
    refine ⟨fun hp => ?_, fun v hp => ?_⟩
    · obtain ⟨v, hv, -⟩ := hall (.inl hp)
      rw [hp] at hv
      cases hv
    · obtain ⟨w, hw, hc⟩ := hall (.inr ⟨v, hp⟩)
      rw [hp] at hw
      cases hw
      exact hc
  intro hp
  have hcomma : p ≠ .sign .comma := by
    rcases hp with rfl | ⟨v, rfl⟩ <;> simp
  have hargs : ∀ ids : List NodeId, p ∉ Piece.separated (ids.map fun id => [.node id]) := by
    intro ids
    refine Piece.not_mem_separated hcomma fun ps hps => ?_
    obtain ⟨id, -, rfl⟩ := List.mem_map.mp hps
    rcases hp with rfl | ⟨v, rfl⟩ <;> simp
  have hvar : ∀ var : Declarator, p ∉ var.pieces := by
    rintro ⟨name, _ | init⟩ <;> rcases hp with rfl | ⟨v, rfl⟩ <;> simp [Declarator.pieces]
  have hvars : ∀ vars : List Declarator, p ∉ Piece.separated (vars.map Declarator.pieces) := by
    intro vars
    refine Piece.not_mem_separated hcomma fun ps hps => ?_
    obtain ⟨var, -, rfl⟩ := List.mem_map.mp hps
    exact hvar var
  have hparams : ∀ params : List Param, p ∉ Piece.separated (params.map Param.pieces) := by
    intro params
    refine Piece.not_mem_separated hcomma fun ps hps => ?_
    obtain ⟨q, -, rfl⟩ := List.mem_map.mp hps
    rcases hp with rfl | ⟨v, rfl⟩ <;> simp [Param.pieces]
  rcases hp with rfl | ⟨v, rfl⟩
  · cases c with
    | returnStmt value => cases value <;> simp [pieces] at h
    | ifStmt e a b => cases b <;> simp [pieces] at h
    | assign op _ _ | binary op _ _ | unary op _ =>
      cases op <;> simp [pieces, AssignOp.kind, BinaryOp.kind, UnaryOp.kind] at h
    | _ => simp [pieces, Piece.arguments, hargs, hvar, hvars, hparams] at h
  · cases c with
    | literal w =>
      simp only [pieces, List.mem_singleton, Piece.literal.injEq] at h
      exact ⟨v, rfl, by rw [h]⟩
    | returnStmt value => cases value <;> simp [pieces] at h
    | ifStmt e a b => cases b <;> simp [pieces] at h
    | _ => simp [pieces, Piece.arguments, hargs, hvar, hvars, hparams] at h

/-- The pieces of a node that was read can be written, if it is no floating-point literal. -/
theorem parseLenient_writable (text : String) {i : NodeId} {c : Construct}
    (hi : (parseLenient text).1.InTree i) (hc : (parseLenient text).1.construct? i = some c)
    (hexact : ∀ v, c = .literal v → v.isExact = true) : ∀ p ∈ c.pieces, p.Writable := by
  obtain ⟨toks, stop, rest, items, ts, hlex, -, hroot, hs, -, hsub, -⟩ := parseLenient_sound text
  rcases SyntaxTree.Under.cases_root hi with rfl | hu
  · rw [hroot] at hc
    cases hc
    intro p hp
    obtain ⟨id, -, rfl⟩ := List.mem_map.mp hp
    trivial
  · rw [SyntaxTree.children_of_construct? hroot] at hu
    obtain ⟨us, hus, hnode⟩ := hs.of_under (by rwa [Piece.nodes_map_node])
    have hpieces := hnode.pieces hc
    refine hpieces.writable (fun a ha => ?_) fun v hv => ?_
    · exact hlex.genuine a (hsub.subset (hus.subset ha))
    · exact hexact v ((Construct.pieces_spec hv).2 v rfl)

/-- **What was read from a text can be written**, where it has no floating-point literal. -/
theorem parseLenient_ready (text : String) {ids : List NodeId}
    (hids : ∀ k ∈ ids, (parseLenient text).1.InTree k)
    (hexact : ∀ i v, (parseLenient text).1.Under ids i →
      (parseLenient text).1.construct? i = some (.literal v) → v.isExact = true) :
    Ready (parseLenient text).1 ids := by
  have hrooted := parseLenient_rooted text
  have hin : ∀ {i}, (parseLenient text).1.Under ids i → (parseLenient text).1.InTree i :=
    fun hi => hi.mono hids
  refine ⟨fun i c hi hc => ?_, fun i c hi hc k hk => ?_⟩
  · exact parseLenient_writable text (hin hi) hc fun v hv => hexact i v hi (hv ▸ hc)
  · obtain ⟨d, lo, -, -, hd, -, hgrown⟩ := hrooted.grown.of_under (hin hi)
    rw [hc] at hd
    cases hd
    exact (hgrown.root_mem k hk).2

/-! ## 2. Reading a program again -/

theorem Brackets.kind_ne_error {n : Nat} {ts : List Token} (h : Brackets n ts) :
    ∀ a ∈ ts, a.kind ≠ .error := by
  induction h with
  | none => simp
  | pair ha hb _ ih =>
    simp only [List.mem_cons, forall_eq_or_imp]
    exact ⟨by simp [ha], by simp [hb], ih⟩

theorem SpellsType.kind_ne_error {ph : TypePhrase} {ts : List Token} (h : SpellsType ph ts) :
    ∀ a ∈ ts, a.kind ≠ .error := by
  induction h with
  | plain hk hb =>
    simp only [List.mem_cons, forall_eq_or_imp]
    exact ⟨by simp [hk], hb.kind_ne_error⟩
  | applied hk hl _ hg hb ih =>
    simp only [List.mem_cons, List.mem_append, forall_eq_or_imp]
    refine ⟨by simp [hk], by simp [hl], ?_⟩
    rintro a (ha | rfl | ha)
    · exact ih a ha
    · simp [hg]
    · exact hb.kind_ne_error a ha
  | single _ ih => exact ih
  | more _ hc _ ih₁ ih₂ =>
    simp only [List.mem_append, List.mem_cons]
    rintro a (ha | rfl | ha)
    · exact ih₁ a ha
    · simp [hc]
    · exact ih₂ a ha

theorem Accessors.kind_ne_error {b : Bool} {ts : List Token} (h : Accessors b ts) :
    ∀ a ∈ ts, a.kind ≠ .error := by
  induction h with
  | none => simp
  | one hk _ hs _ ih =>
    simp only [List.mem_cons, forall_eq_or_imp]
    exact ⟨by simp [hk], by simp [hs], ih⟩

theorem Piece.Spelled.kind_ne_error {p : Piece} {ts : List Token} (h : p.Spelled ts)
    (hp : p ≠ .sign .error) : ∀ a ∈ ts, a.kind ≠ .error := by
  cases p with
  | node _ => cases h
  | type w => exact SpellsType.kind_ne_error h
  | accessors b => exact Accessors.kind_ne_error h
  | sign k =>
    obtain ⟨a, rfl, rfl⟩ := h
    intro b hb
    rw [List.mem_singleton.mp hb]
    exact fun hk => hp (congrArg _ hk)
  | name n =>
    obtain ⟨a, rfl, hk, -⟩ := h
    simp [hk]
  | literal v =>
    obtain ⟨a, rfl, ha⟩ := h
    intro b hb hk
    rw [List.mem_singleton.mp hb] at hk
    simp [Token.literal?, hk] at ha

/-- **Tokens that spell something are no errors.** -/
theorem Spells.kind_ne_error {t : SyntaxTree} {At : NodeId → List Token → Prop} {ps : List Piece}
    {ts : List Token} (h : Spells t At ps ts) :
    .sign .error ∉ ps → ∀ a ∈ ts, a.kind ≠ .error := by
  induction h with
  | nil => simp
  | leaf hp _ ih =>
    intro hne a ha
    simp only [List.mem_cons, not_or] at hne
    rcases List.mem_append.mp ha with ha | ha
    · exact hp.kind_ne_error (Ne.symm hne.1) a ha
    · exact ih hne.2 a ha
  | node _ _ _ _ ih₁ ih₂ =>
    intro hne a ha
    simp only [List.mem_cons, not_or] at hne
    rcases List.mem_append.mp ha with ha | ha
    · exact ih₁ (fun h => (Construct.pieces_spec h).1 rfl) a ha
    · exact ih₂ hne.2 a ha

/-- **A text that is read as the tokens of a program is read as that program, without errors.** -/
theorem parseLenient_of_reads {t : SyntaxTree} {root : NodeId} {items : List NodeId} {text : String}
    {ts : List Token} (hroot : t.construct? root = some (.unit items))
    (hall : ∀ id ∈ items, Fits t .item id) (hreads : Reads text.toList ts)
    (hs : Spells t Anywhere (items.map .node) ts) :
    (parseLenient text).2 = [] ∧
      SameShape t (parseLenient text).1 [root] [(parseLenient text).1.root] := by
  obtain ⟨toks, stop, rest, hlex, hspent, hbare⟩ := hreads.2 .start
  have hs' : Spells t Anywhere (items.map .node) toks := hs.of_bare hbare.symm
  exact parseLenient_of_spells hroot hall hlex hspent (hs'.kind_ne_error (by simp)) hs'

/-! ## 3. The round trip -/

/-- No node of the program is a floating-point literal. -/
def SyntaxTree.Exact (t : SyntaxTree) : Prop :=
  ∀ i v, t.isAttached i = true → t.construct? i = some (.literal v) → v.isExact = true

/-- Whether a node is not a floating-point literal of the program. -/
def SyntaxTree.isExactAt (t : SyntaxTree) (i : NodeId) : Bool :=
  match t.construct? i with
  | some (.literal v) => !t.isAttached i || v.isExact
  | _ => true

theorem SyntaxTree.exact_iff {t : SyntaxTree} :
    (List.range t.size).all t.isExactAt = true ↔ t.Exact := by
  rw [List.all_eq_true]
  constructor
  · intro h i v hi hv
    have := h i (List.mem_range.mpr (lt_size_of_construct? hv))
    simpa [isExactAt, hv, hi] using this
  · intro h i _
    unfold isExactAt
    split
    · rename_i v hv
      cases hi : t.isAttached i with
      | false => rfl
      | true => exact h i v hi hv
    · rfl

instance (t : SyntaxTree) : Decidable t.Exact := decidable_of_iff _ SyntaxTree.exact_iff

/-- **Printing undoes parsing**: the tree of any text, read with or without errors, is printed as a
text that has no errors and is read as a tree of the same shape, if no node of the program is a
floating-point literal. -/
theorem parse_print (text : String) (hexact : (parseLenient text).1.Exact) :
    (∃ u, parse (parseLenient text).1.print = .ok u ∧
      SameShape (parseLenient text).1 u [(parseLenient text).1.root] [u.root]) ∧
    ∀ t, parse text = .ok t → t = (parseLenient text).1 := by
  refine ⟨?_, fun t ht => (parse_eq_ok_iff.mp ht).1.symm⟩
  obtain ⟨-, -, -, items, -, -, -, hroot, -, hall, -⟩ := parseLenient_sound text
  have hready : Ready (parseLenient text).1 [(parseLenient text).1.root] :=
    parseLenient_ready text (fun k hk => .root hk)
      fun i v hi => hexact i v ((parseLenient_rooted text).isAttached_iff.mpr hi)
  obtain ⟨ts, hs, hp⟩ := Printer.filled_print hroot hall hready
  have hreads := @hp [] [] [] (List.forall_mem_nil _) .nil
  rw [indentLines_nil, List.append_nil, List.append_nil] at hreads
  obtain ⟨herr, hshape⟩ := parseLenient_of_reads hroot hall hreads hs
  exact ⟨_, parse_eq_ok_iff.mpr ⟨rfl, herr⟩, hshape⟩

end Recast
