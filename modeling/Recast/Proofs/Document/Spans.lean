/-
# Spans of parsed trees

A node that was parsed covers the text from its first token through its last.  So the spans of a
tree nest as its nodes do, and the spans of the children of a node follow one another.

* `Lexed.position`: a token lies at the place of its first character;
* `cover_subset`: some tokens of a stretch cover a part of what the stretch covers;
* `Spells.spans_apart`: the nodes of a text that is spelled out follow one another;
* `parseLenient_spans`: **spans are exact, nest, and are in the order of the children.**
-/
import Recast.Proofs.Document.History
import Recast.Proofs.Parser.Table
import Recast.Proofs.Token.Tiles

namespace Recast

open Text (byteSize lastLine)

/-! ## 1. Places of tokens -/

/-- A token lies at the place of its first character. -/
theorem Lexed.position {pos stop : Position} {cs rest : List Char} {toks : List Token}
    (h : Lexed pos cs toks stop rest) {t : Token} (ht : t ∈ toks) :
    ∃ before after, cs = before ++ after ∧ t.span.offset = (pos.after before).offset ∧
      t.span.line = (pos.after before).line ∧ t.span.col = (pos.after before).col := by
  induction h with
  | nil => cases ht
  | @cons pos stop cs skipped tail rest c toks htriv _ ih =>
    have hcs := cons_eq htriv
    rcases List.mem_cons.mp ht with rfl | ht
    · exact ⟨skipped, _, hcs, rfl, rfl, rfl⟩
    · obtain ⟨before, after, hrest, hplace⟩ := ih ht
      refine ⟨skipped ++ ((Scan.token c tail).lexeme ++ before), after, ?_, ?_⟩
      · rw [List.append_assoc, List.append_assoc, ← hrest]
        exact hcs
      · simpa using hplace

/-! ## 2. Stretches of tokens -/

/-- What ordered tokens cover begins where one of them begins and ends where one of them ends. -/
theorem exists_cover_ends {ts : List Token} (ho : Ordered ts) (h : ts ≠ []) :
    ∃ a ∈ ts, ∃ b ∈ ts, (cover ts).offset = a.span.offset ∧ (cover ts).stop = b.span.stop ∧
      (cover ts).line = a.span.line ∧ (cover ts).col = a.span.col ∧ 0 < (cover ts).len := by
  obtain ⟨a, b, ha, hb, ham, hbm⟩ := exists_ends h
  obtain ⟨hoff, hstop, hlen⟩ := cover_spec ho ha hb
  refine ⟨a, ham, b, hbm, hoff, hstop, ?_, ?_, hlen⟩ <;> rw [cover_of ha hb] <;> rfl

/-- The tokens of a stretch lie in what it covers. -/
theorem Ordered.mem_cover {ts : List Token} (ho : Ordered ts) {a : Token} (ha : a ∈ ts) :
    (cover ts).offset ≤ a.span.offset ∧ a.span.stop ≤ (cover ts).stop := by
  have hne : ts ≠ [] := List.ne_nil_of_mem ha
  obtain ⟨hoff, hstop, -⟩ :=
    cover_spec ho (List.head?_eq_some_head hne) (List.getLast?_eq_some_getLast hne)
  rw [hoff, hstop]
  constructor
  · rw [← List.cons_head_tail hne] at ho ha
    exact ho.offset_head_le ha
  · rw [← List.dropLast_concat_getLast hne] at ho ha
    exact ho.stop_le_last ha

/-- **Some tokens of a stretch cover a part of what the stretch covers.** -/
theorem cover_subset {us ts : List Token} (ho : Ordered ts) (hs : us.Sublist ts) (hne : us ≠ []) :
    (cover ts).offset ≤ (cover us).offset ∧ (cover us).stop ≤ (cover ts).stop := by
  obtain ⟨a, ha, b, hb, hoff, hstop, -⟩ := exists_cover_ends (ho.sublist hs) hne
  rw [hoff, hstop]
  exact ⟨(ho.mem_cover (hs.subset ha)).1, (ho.mem_cover (hs.subset hb)).2⟩

/-- Of two stretches one after another, the first ends before the second begins. -/
theorem cover_apart {us vs : List Token} (ho : Ordered (us ++ vs)) (hus : us ≠ []) (hvs : vs ≠ []) :
    (cover us).stop ≤ (cover vs).offset := by
  obtain ⟨-, -, b, hb, -, hstop, -⟩ := exists_cover_ends ho.left hus
  obtain ⟨c, hc, -, -, hoff, -⟩ := exists_cover_ends ho.right hvs
  rw [hstop, hoff]
  exact ho.stop_le_offset hb hc

/-- **The nodes among pieces that are spelled out follow one another.** -/
theorem Spells.spans_apart {t : SyntaxTree} {ps : List Piece} {ts : List Token}
    (h : Spells t (Placed t) ps ts) (ho : Ordered ts)
    (hne : ∀ k ∈ Piece.nodes ps, ∀ us, Spells t (Placed t) [.node k] us → us ≠ []) :
    (Piece.nodes ps).Pairwise fun a b => (t.spanOf a).Before (t.spanOf b) := by
  induction h with
  | nil => exact .nil
  | @leaf p ps us ts hp _ ih =>
    cases p with
    | node _ => cases hp
    | _ => exact ih ho.right hne
  | @node id c ps us ts hc hk hat hrest _ ih =>
    have hspell : Spells t (Placed t) [.node id] us := Spells.node_iff.mpr ⟨c, hc, hk, hat⟩
    have hus : us ≠ [] := hne id (List.mem_cons_self ..) us hspell
    refine .cons (fun k hkp => ?_) (ih ho.right fun k hkp => hne k (List.mem_cons_of_mem _ hkp))
    -- a later node has its tokens among those that come after
    obtain ⟨vs, hvs, hspell'⟩ := hrest.of_mem_nodes hkp
    obtain ⟨-, -, -, hat'⟩ := Spells.node_iff.mp hspell'
    have hvs' : vs ≠ [] := hne k (List.mem_cons_of_mem _ hkp) vs hspell'
    have hapart : (cover us).stop ≤ (cover vs).offset :=
      cover_apart (ho.sublist ((List.Sublist.refl us).append hvs.sublist)) hus hvs'
    obtain ⟨-, -, -, -, -, -, -, -, hlen⟩ := exists_cover_ends ho.left hus
    rw [show t.spanOf id = cover us from hat, show t.spanOf k = cover vs from hat']
    refine ⟨?_, hapart⟩
    simp only [Span.stop] at hapart
    omega

/-! ## 3. Whole texts -/

/-- The span of a node is exact in a text with some tokens: it is not empty, reaches from the first
byte of a token to the last byte of one, and its line and column are those of its first byte. -/
structure Span.Exact (toks : List Token) (text : String) (s : Span) : Prop where
  nonempty : 0 < s.len
  first : ∃ a ∈ toks, a.kind ≠ .error ∧ a.kind ≠ .eof ∧ s.offset = a.span.offset
  last : ∃ b ∈ toks, b.kind ≠ .error ∧ b.kind ≠ .eof ∧ s.stop = b.span.stop
  place : ∃ before after, text.toList = before ++ after ∧ s.offset = byteSize before ∧
    s.line = 1 + before.count '\n' ∧ s.col = 1 + byteSize (lastLine before)

/-- What some tokens of a text cover is an exact span of it. -/
theorem cover_exact {text : String} {toks us : List Token} {stop : Position} {rest : List Char}
    (hlex : Lexed .start text.toList toks stop rest) (hspent : Spent rest) (hs : us.Sublist toks)
    (hne : us ≠ []) (hkind : ∀ a ∈ us, a.kind ≠ .error) :
    (cover us).Exact (tokenize text).1 text := by
  obtain ⟨toks', stop', rest', last, hlex', hspent', htok, -⟩ := tokenize_spec text
  have htoks : ∀ a ∈ us, a ∈ (tokenize text).1 := by
    intro a ha
    rw [htok, ← hlex.unique hlex' hspent hspent']
    exact List.mem_append_left _ (hs.subset ha)
  have heof : ∀ a ∈ us, a.kind ≠ .eof := fun a ha => hlex.kind_ne_eof (hs.subset ha)
  obtain ⟨a, ha, b, hb, hoff, hstop, hline, hcol, hlen⟩ :=
    exists_cover_ends (hlex.ordered.sublist hs) hne
  obtain ⟨before, after, htext, hplace⟩ := hlex.position (hs.subset ha)
  refine ⟨hlen, ⟨a, htoks a ha, hkind a ha, heof a ha, hoff⟩,
    ⟨b, htoks b hb, hkind b hb, heof b hb, hstop⟩, before, after, htext, ?_, ?_, ?_⟩
  · rw [hoff, hplace.1, Position.offset_after]
    exact Nat.zero_add _
  · rw [hline, hplace.2.1, Position.line_after]
    rfl
  · rw [hcol, hplace.2.2, Position.col_after]

theorem parseLenient_rootSpan (text : String) :
    (parseLenient text).1.spanOf (parseLenient text).1.root = ⟨0, byteSize text.toList, 1, 1⟩ := by
  obtain ⟨items, q, hi, -, htree⟩ := parseLenient_apply text
  have hb := Parse.builds_itemsUntilEnd Parse.builds_item 0 (Parser.ofText text)
    (pending_nil (Nat.zero_le _))
  rw [hi] at hb
  have hsize : q.textSize = byteSize text.toList := hb.1.textSize
  rw [htree, ← hsize]
  exact (SyntaxTree.spanOf_alloc _ _ _ _).trans (if_pos rfl)

/-- **The spans of a parsed tree are exact and nest**: every node of the program but the root has an
exact span inside that of its parent, the spans of the children of a node follow one another, and
the root covers the whole text. -/
theorem parseLenient_spans (text : String) :
    (parseLenient text).1.spanOf (parseLenient text).1.root = ⟨0, byteSize text.toList, 1, 1⟩ ∧
    (∀ n, (parseLenient text).1.isAttached n = true → n ≠ (parseLenient text).1.root →
      ((parseLenient text).1.spanOf n).Exact (tokenize text).1 text ∧
      ∃ p, (parseLenient text).1.parent? n = some p ∧
        ((parseLenient text).1.spanOf p).offset ≤ ((parseLenient text).1.spanOf n).offset ∧
        ((parseLenient text).1.spanOf n).stop ≤ ((parseLenient text).1.spanOf p).stop) ∧
    ∀ n, (parseLenient text).1.isAttached n = true →
      ((parseLenient text).1.children n).Pairwise fun a b =>
        ((parseLenient text).1.spanOf a).Before ((parseLenient text).1.spanOf b) := by
  have hwf := parseLenient_wellFormed text
  have hrooted := parseLenient_rooted text
  obtain ⟨toks, stop, rest, items, ts, hlex, hspent, hsub, hkind, hroot, hsp, hnodes⟩ :=
    parseLenient_tokens text
  have ho : Ordered ts := hlex.ordered.sublist hsub
  have hspan : ∀ {i us}, Spells (parseLenient text).1 (Placed (parseLenient text).1) [.node i] us →
      (parseLenient text).1.spanOf i = cover us := fun h => (Spells.node_iff.mp h).choose_spec.2.2
  -- a child is a node of the program and not the root, so that its tokens are known
  have hchild : ∀ {i k}, (parseLenient text).1.InTree i → k ∈ (parseLenient text).1.children i →
      ∀ us, Spells (parseLenient text).1 (Placed (parseLenient text).1) [.node k] us → us ≠ [] := by
    intro i k hi hk
    refine (hnodes k (.child hi hk) fun he => ?_).1
    have hlink := (hwf.links k i).mpr hk
    rw [he, hwf.top] at hlink
    cases hlink
  refine ⟨parseLenient_rootSpan text, fun n hn hr => ?_, fun n hn => ?_⟩
  · have hin := hwf.isAttached_iff.mp hn
    obtain ⟨hne, us, hus, hspell⟩ := hnodes n hin hr
    have hexact : (cover us).Exact _ text := cover_exact hlex hspent (hus.sublist.trans hsub)
      (hne us hspell) fun a ha => hkind a (hus.subset ha)
    refine ⟨hspan hspell ▸ hexact, ?_⟩
    rcases hrooted.parent hin with he | ⟨p, hp, hpin, hnp, -⟩
    · exact absurd he hr
    refine ⟨p, hp, ?_⟩
    by_cases hpr : p = (parseLenient text).1.root
    · obtain ⟨before, mid, after, htext, -, -, hend⟩ := parseLenient_cut text hin hr
      rw [hpr, parseLenient_rootSpan, hend, htext]
      refine ⟨Nat.zero_le _, ?_⟩
      simp only [Span.stop, Text.byteSize_append]
      omega
    · obtain ⟨-, vs, hvs, hspell'⟩ := hnodes p hpin hpr
      obtain ⟨c, hc, hk, -⟩ := Spells.node_iff.mp hspell'
      rw [SyntaxTree.children_of_construct? hc, ← c.nodes_pieces] at hnp
      obtain ⟨ws, hws, hspell''⟩ := hk.of_mem_nodes hnp
      rw [hspan hspell', hspan hspell'']
      exact cover_subset (ho.sublist hvs.sublist) hws.sublist (hne ws hspell'')
  · have hin := hwf.isAttached_iff.mp hn
    by_cases hr : n = (parseLenient text).1.root
    · have hpairs := hsp.spans_apart ho
      rw [Piece.nodes_map_node, ← show (parseLenient text).1.children n = items by
        rw [hr, SyntaxTree.children_of_construct? hroot]; rfl] at hpairs
      exact hpairs fun k hk => hchild hin hk
    · obtain ⟨-, us, hus, hspell⟩ := hnodes n hin hr
      obtain ⟨c, hc, hk, -⟩ := Spells.node_iff.mp hspell
      have hpairs := hk.spans_apart (ho.sublist hus.sublist)
      rw [c.nodes_pieces, ← SyntaxTree.children_of_construct? hc] at hpairs
      exact hpairs fun k hk' => hchild hin hk'

end Recast
