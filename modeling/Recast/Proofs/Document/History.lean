/-
# Histories of documents

A document is parsed, edited and parsed again, in any order.  Whatever its history is, a document
whose spans are current has the tree of its text, and every node of this tree but the root covers a
range of whole characters of the text.

* `Reachable`: the documents that some history leads to; `Reachable.tree_eq` is the invariant;
* `parseLenient_rooted`: the table of a text holds one tree up to its root;
* `parseLenient_cut`: **the span of a node cuts the text between characters**.
-/
import Recast.Document
import Recast.Proofs.Parser.SoundProgram
import Recast.Proofs.Tree.Walk

namespace Recast

open Text (byteSize splitAtByte?)

/-! ## 1. Reachable documents -/

/-- The documents that can be made by parsing, editing and parsing again. -/
inductive Document.Reachable : Document → Prop
  | parse {name text : String} {d : Document} : Document.parse name text = .ok d → Reachable d
  | parseLenient (name text : String) : Reachable (Document.parseLenient name text).1
  | withTree {d : Document} (tree : SyntaxTree) : Reachable d → Reachable (d.withTree tree)
  | withReplacement {d : Document} (tree : SyntaxTree) (span : Span) (nodes : List NodeId) :
      Reachable d → Reachable (d.withReplacement tree span nodes)
  | reparse {d d' : Document} : Reachable d → d.reparse = .ok d' → Reachable d'

/-- A text without errors has the tree of the lenient parser. -/
theorem parse_eq_ok_iff {text : String} {tree : SyntaxTree} :
    parse text = .ok tree ↔ (parseLenient text).1 = tree ∧ (parseLenient text).2 = [] := by
  simp only [parse]
  cases he : (parseLenient text).2 with
  | nil => simp
  | cons e es => simp

theorem Document.parse_eq_ok_iff {name text : String} {d : Document} :
    Document.parse name text = .ok d ↔
      (Recast.parseLenient text).2 = [] ∧
        d = ⟨name, text, (Recast.parseLenient text).1, 0, true⟩ := by
  unfold Document.parse
  cases hp : Recast.parse text with
  | ok tree =>
    obtain ⟨rfl, he⟩ := Recast.parse_eq_ok_iff.mp hp
    simp [Except.map, he, eq_comm]
  | error es =>
    have hne : (Recast.parseLenient text).2 ≠ [] := by
      intro he
      rw [Recast.parse_eq_ok_iff.mpr ⟨rfl, he⟩] at hp
      cases hp
    simp [Except.map, hne]

theorem Document.reparse_eq_ok_iff {d d' : Document} : d.reparse = .ok d' ↔
    (Recast.parseLenient d.text).2 = [] ∧
      d' = { d with tree := (Recast.parseLenient d.text).1, spansCurrent := true } := by
  unfold Document.reparse
  cases hp : Recast.parse d.text with
  | ok tree =>
    obtain ⟨rfl, he⟩ := Recast.parse_eq_ok_iff.mp hp
    simp [Except.map, he, eq_comm]
  | error es =>
    have hne : (Recast.parseLenient d.text).2 ≠ [] := by
      intro he
      rw [Recast.parse_eq_ok_iff.mpr ⟨rfl, he⟩] at hp
      cases hp
    simp [Except.map, hne]

/-- **A document whose spans are current has the tree of its text**, whatever its history is. -/
theorem Document.Reachable.tree_eq {d : Document} (h : Reachable d) (hs : d.spansCurrent = true) :
    d.tree = (Recast.parseLenient d.text).1 := by
  cases h with
  | parse hp =>
    obtain ⟨-, rfl⟩ := Document.parse_eq_ok_iff.mp hp
    simp only
  | parseLenient name text => simp only [Document.parseLenient]
  | withTree tree _ => simp [Document.withTree, edited] at hs
  | withReplacement tree span nodes _ =>
    unfold Document.withReplacement at hs
    split at hs <;> simp [Document.withTree, edited] at hs
  | reparse _ hr =>
    obtain ⟨-, rfl⟩ := Document.reparse_eq_ok_iff.mp hr
    simp only

/-! ## 2. Spans -/

theorem parseLenient_rooted (text : String) : (parseLenient text).1.Rooted := by
  obtain ⟨hg, hp, -, hl⟩ := parseLenient_grown text
  exact ⟨hg, hp, hl⟩

/-- Of two starts of one text the one of fewer bytes is a start of the other. -/
theorem isPrefix_of_byteSize_le {cs xs ys : List Char} (hx : xs <+: cs) (hy : ys <+: cs)
    (h : byteSize xs ≤ byteSize ys) : xs <+: ys := by
  rcases List.prefix_or_prefix_of_prefix hx hy with hp | ⟨zs, rfl⟩
  · exact hp
  · have hz : zs = [] := by
      cases zs with
      | nil => rfl
      | cons z zs =>
        have hpos := byteSize_pos (List.cons_ne_nil z zs)
        rw [Text.byteSize_append] at h
        omega
    subst hz
    exact ⟨[], by simp⟩

/-- What some tokens of a text cover is a range of whole characters. -/
theorem Lexed.cover_cut {pos stop : Position} {cs rest : List Char} {toks us : List Token}
    (h : Lexed pos cs toks stop rest) (hp : pos.offset = 0) (hs : us.Sublist toks) (hne : us ≠ []) :
    ∃ before mid after, cs = before ++ (mid ++ after) ∧ mid ≠ [] ∧
      (cover us).offset = byteSize before ∧ (cover us).stop = byteSize (before ++ mid) := by
  obtain ⟨a, b, ha, hb, ham, hbm⟩ := exists_ends hne
  obtain ⟨hoff, hstop, hpos⟩ := cover_spec (h.ordered.sublist hs) ha hb
  obtain ⟨xs, xs', hxs, hxoff, -⟩ := h.aligned (hs.subset ham)
  obtain ⟨ys, ys', hys, hyoff, hylen, -⟩ := h.aligned (hs.subset hbm)
  rw [hp, Nat.zero_add] at hxoff hyoff
  have hend : (cover us).stop = byteSize (ys ++ b.lexeme.toList) := by
    rw [hstop, Text.byteSize_append, Span.stop, hyoff, hylen]
  have hle : (cover us).offset < (cover us).stop := by
    simp only [Span.stop]
    omega
  obtain ⟨mid, hmid⟩ : xs <+: ys ++ b.lexeme.toList := by
    refine isPrefix_of_byteSize_le ⟨_, hxs.symm⟩ ⟨ys', ?_⟩ (by omega)
    rw [hys, List.append_assoc]
  refine ⟨xs, mid, ys', ?_, ?_, hoff.trans hxoff, ?_⟩
  · rw [← List.append_assoc, hmid, hys, List.append_assoc]
  · rintro rfl
    rw [List.append_nil] at hmid
    rw [hend, ← hmid] at hle
    omega
  · rw [hmid, hend]

/-- The tokens of a text that its tree is spelled by, and those of each node among them. -/
theorem parseLenient_tokens (text : String) :
    ∃ toks stop rest items ts, Lexed .start text.toList toks stop rest ∧ Spent rest ∧
      ts.Sublist toks ∧ (∀ a ∈ ts, a.kind ≠ .error) ∧
      (parseLenient text).1.construct? (parseLenient text).1.root = some (.unit items) ∧
      Spells (parseLenient text).1 (Placed (parseLenient text).1) (items.map .node) ts ∧
      ∀ i, (parseLenient text).1.InTree i → i ≠ (parseLenient text).1.root →
        (∀ us, Spells (parseLenient text).1 (Placed (parseLenient text).1) [.node i] us →
          us ≠ []) ∧
        ∃ us, us <:+: ts ∧
          Spells (parseLenient text).1 (Placed (parseLenient text).1) [.node i] us := by
  obtain ⟨toks, stop, rest, items, ts, hlex, hspent, hroot, hsp, hfit, hsub, hkind, -⟩ :=
    parseLenient_sound text
  refine ⟨toks, stop, rest, items, ts, hlex, hspent, hsub, hkind, hroot, hsp, fun i hi hr => ?_⟩
  have hu : (parseLenient text).1.Under items i := by
    rcases SyntaxTree.Under.cases_root hi with rfl | hu
    · exact absurd rfl hr
    · rwa [SyntaxTree.children_of_construct? hroot] at hu
  obtain ⟨us, hus, hspell⟩ := hsp.of_under (by rwa [Piece.nodes_map_node])
  obtain ⟨role, hf⟩ := Fits.of_under (fun k hk => ⟨_, hfit k hk⟩) hu
  exact ⟨fun vs hvs => hvs.node_ne_nil hf.construct?_ne_unit, us, hus, hspell⟩

/-- Every node of the program of a text, the root apart, fits a role. -/
theorem parseLenient_fits (text : String) {i : NodeId} (hi : (parseLenient text).1.InTree i)
    (hr : i ≠ (parseLenient text).1.root) : ∃ role, Fits (parseLenient text).1 role i := by
  obtain ⟨toks, stop, rest, items, ts, -, -, hroot, -, hfit, -⟩ := parseLenient_sound text
  rcases SyntaxTree.Under.cases_root hi with rfl | hu
  · exact absurd rfl hr
  · rw [SyntaxTree.children_of_construct? hroot] at hu
    exact Fits.of_under (fun k hk => ⟨_, hfit k hk⟩) hu

/-- **The span of a node of the program, the root apart, cuts the text between characters.** -/
theorem parseLenient_cut (text : String) {i : NodeId} (hi : (parseLenient text).1.InTree i)
    (hr : i ≠ (parseLenient text).1.root) :
    ∃ before mid after, text.toList = before ++ (mid ++ after) ∧ mid ≠ [] ∧
      ((parseLenient text).1.spanOf i).offset = byteSize before ∧
      ((parseLenient text).1.spanOf i).stop = byteSize (before ++ mid) := by
  obtain ⟨toks, stop, rest, items, ts, hlex, -, hsub, -, -, -, hnodes⟩ := parseLenient_tokens text
  obtain ⟨hne, us, hus, hspell⟩ := hnodes i hi hr
  obtain ⟨-, -, -, hat⟩ := Spells.node_iff.mp hspell
  rw [show (parseLenient text).1.spanOf i = cover us from hat]
  exact hlex.cover_cut rfl (hus.sublist.trans hsub) (hne us hspell)

end Recast
