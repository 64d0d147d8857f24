/-
# Texts that fit into 32 bits

The places of a small text are numbers of 32 bits, so that nothing is cut from them: the lexer with
places of 32 bits gives what the lexer without a bound gives, and what holds of the tokens of all
texts without the bound holds of small texts with it.  In a text of one byte more the end has no
column any longer.

* `Position.line_col_after`: line and column grow together by the bytes that are read at most;
* `HandedOut cs toks toks'`: the tokens `toks'` are what is handed out for `toks`; `readAll?_eq_some`
  and `readAll?_of_placed`: **the lexer hands out every token, and does so exactly if it can**;
* `tokenize_of_small`: **the tokens of a small text are the same with and without the bound**;
* `tokenize_tiles_of_small`: they tile it;
* `tokenize_eq_none_of_not_cut`: nothing is handed out for a text whose end falls inside a character
  when it is cut;
* `Lexed.after_blanks`, `Lexed.after_comment`, `tokenize_of_handedOut`: how the tokens of a text with
  many blanks are found.
-/
import Mathlib.Data.List.Forall2
import Recast.Narrow.Lexer
import Recast.Proofs.Token.Tiles

namespace Recast

open Text (byteSize lastLine splitAtByte?)

/-! ## 1. Parts of a text and places in it -/

/-- Taking a part out of a text succeeds exactly where both ends fall between characters. -/
theorem Text.slice?_eq_some_iff {cs mid : List Char} {start stop : Nat} :
    slice? cs start stop = some mid ↔ ∃ before after, cs = before ++ (mid ++ after) ∧
      byteSize before = start ∧ byteSize (before ++ mid) = stop := by
  simp only [slice?, Option.bind_eq_bind, Option.bind_eq_some_iff, Option.pure_def,
    Option.some.injEq, Prod.exists, splitAtByte?_eq_some_iff]
  constructor
  · rintro ⟨upTo, after, ⟨rfl, rfl⟩, before, part, ⟨rfl, rfl⟩, rfl⟩
    exact ⟨before, after, List.append_assoc .., rfl, rfl⟩
  · rintro ⟨before, after, rfl, rfl, rfl⟩
    exact ⟨before ++ mid, after, ⟨List.append_assoc .., rfl⟩, before, mid, ⟨rfl, rfl⟩, rfl⟩

namespace Position

theorem line_col_step {p : Position} (h : 1 ≤ p.line ∧ 1 ≤ p.col) (c : Char) :
    (1 ≤ (p.step c).line ∧ 1 ≤ (p.step c).col) ∧
      (p.step c).line + (p.step c).col ≤ p.line + p.col + c.utf8Size := by
  have := c.utf8Size_pos
  rw [step]
  split <;> simp only <;> omega

/-- **Line and column grow together by the bytes that are read at most**: a line feed adds one to the
line and leaves no more than one of the column. -/
theorem line_col_after {p : Position} (h : 1 ≤ p.line ∧ 1 ≤ p.col) (cs : List Char) :
    (1 ≤ (p.after cs).line ∧ 1 ≤ (p.after cs).col) ∧
      (p.after cs).line + (p.after cs).col ≤ p.line + p.col + byteSize cs := by
  induction cs generalizing p with
  | nil => exact ⟨h, Nat.le_refl _⟩
  | cons c cs ih =>
    obtain ⟨hone, hle⟩ := line_col_step h c
    obtain ⟨hmore, hsum⟩ := ih hone
    rw [after_cons, Text.byteSize_cons]
    exact ⟨hmore, by omega⟩

end Position

namespace Narrow

variable {text : String} {cs : List Char} {t t' : Token} {s s' : Span} {limit : Nat} {l l' : Lexer}
  {toks : List Token} {errors : List LexError}

/-! ## 2. What is handed out -/

theorem cut_of_lt {n : Nat} (h : n < size) : cut n = n := Nat.mod_eq_of_lt h

theorem placed_of_lt {line col : Nat} (hline : line < size) (hcol : 1 ≤ col ∧ col < size) :
    Placed line col := by
  refine ⟨hline, ?_⟩
  rw [cut_of_lt (by omega), Nat.sub_add_cancel hcol.1]
  exact hcol.2

theorem span?_eq_some_iff : span? s = some s' ↔
    (Placed s.line s.col ∧ cut s.offset ≤ cut s.stop) ∧
      ⟨cut s.offset, cut s.stop - cut s.offset, s.line, cut (s.col - 1) + 1⟩ = s' := by
  rw [span?, Option.ite_none_right_eq_some, Option.some.injEq]

theorem token?_eq_some_iff : token? cs t = some t' ↔ ∃ span lexeme, span? t.span = some span ∧
    Text.slice? cs span.offset t.span.stop = some lexeme ∧
    ⟨t.kind, String.ofList lexeme, span⟩ = t' := by
  simp only [token?, Option.bind_eq_bind, Option.bind_eq_some_iff, Option.pure_def,
    Option.some.injEq]
  exact exists_congr fun _ => exists_and_left.symm

/-- A token is handed out if its span is and the text can be split there; it is spelled as what lies
between. -/
theorem token?_of_append {before mid after : List Char} (hspan : span? t.span = some s)
    (hcs : cs = before ++ (mid ++ after)) (hstart : byteSize before = s.offset)
    (hstop : byteSize (before ++ mid) = t.span.stop) :
    token? cs t = some ⟨t.kind, String.ofList mid, s⟩ :=
  token?_eq_some_iff.mpr
    ⟨s, mid, hspan, Text.slice?_eq_some_iff.mpr ⟨before, after, hcs, hstart, hstop⟩, rfl⟩

/-- A token is handed out with its kind. -/
theorem kind_of_token? (h : token? cs t = some t') : t'.kind = t.kind := by
  obtain ⟨span, lexeme, -, -, rfl⟩ := token?_eq_some_iff.mp h
  rfl

/-- A span whose numbers have 32 bits is handed out as it is. -/
theorem span?_of_lt (hstop : s.stop < size) (hline : s.line < size)
    (hcol : 1 ≤ s.col ∧ s.col < size) : span? s = some s := by
  have hle : s.offset ≤ s.stop := Nat.le_add_right ..
  rw [span?, cut_of_lt hstop, cut_of_lt (by omega), cut_of_lt (n := s.col - 1) (by omega),
    if_pos ⟨placed_of_lt hline hcol, hle⟩, Nat.sub_add_cancel hcol.1]
  congr 2
  exact Nat.add_sub_cancel_left ..

/-- The line and the column of a place in a small text are numbers of 32 bits. -/
theorem Small.line_col {before after : List Char} (h : Small text)
    (ht : text.toList = before ++ after) :
    (Position.start.after before).line < size ∧ 1 ≤ (Position.start.after before).col ∧
      (Position.start.after before).col < size := by
  obtain ⟨⟨hline, hcol⟩, hsum⟩ := Position.line_col_after (p := .start) (by decide) before
  have hstart : Position.start.line + Position.start.col = 2 := rfl
  rw [Small, ht, Text.byteSize_append] at h
  omega

theorem Small.span?_eq (h : Small text) (ht : t.LiesIn text.toList) :
    span? t.span = some t.span := by
  obtain ⟨before, after, htext, hspan⟩ := ht
  obtain ⟨hline, hcol⟩ := h.line_col htext
  have hstop : t.span.stop < size := by
    rw [Small, htext, Text.byteSize_append, Text.byteSize_append] at h
    rw [hspan]
    change byteSize before + byteSize t.lexeme.toList < size
    omega
  rw [← Span.between_after] at hspan
  exact span?_of_lt hstop (by rwa [hspan]) (by rwa [hspan])

/-- **A token that lies in a small text is handed out as it is.** -/
theorem Small.token?_eq (h : Small text) (ht : t.LiesIn text.toList) :
    token? text.toList t = some t := by
  obtain ⟨before, after, htext, hspan⟩ := id ht
  have hstop : byteSize (before ++ t.lexeme.toList) = t.span.stop := by
    rw [hspan, Text.byteSize_append]
    rfl
  rw [token?_of_append (h.span?_eq ht) htext (by rw [hspan]; rfl) hstop, String.ofList_toList]

/-! ## 3. Reading -/

/-- Every comment starts with a slash. -/
theorem mem_commentStarts : ∀ {limit : Nat} {pos start : Position} {cs : List Char},
    start ∈ commentStarts limit pos cs → ∃ before after, cs = before ++ '/' :: after ∧
      start = pos.after before
  | limit + 1, pos, start, cs, h => by
    have hcs := Scan.blanks_append cs
    unfold commentStarts at h
    rcases hb : Scan.blanks cs with ⟨blank, rest⟩
    rw [hb] at h hcs
    subst hcs
    dsimp only at h
    split at h
    · rename_i tail
      rcases List.mem_cons.mp h with rfl | h
      · exact ⟨blank, '/' :: tail, rfl, rfl⟩
      · obtain ⟨before, after, hdrop, rfl⟩ := mem_commentStarts h
        refine ⟨blank ++ (('/' :: '/' :: tail).takeWhile (· ≠ '\n') ++ before), after, ?_, by simp⟩
        rw [List.append_assoc, List.append_assoc, ← hdrop, List.takeWhile_append_dropWhile]
    · rename_i body
      split at h
      · rename_i comment after hc
        rcases List.mem_cons.mp h with rfl | h
        · exact ⟨blank, '*' :: body, rfl, rfl⟩
        · obtain ⟨before, after', rfl, rfl⟩ := mem_commentStarts h
          refine ⟨blank ++ ('/' :: '*' :: comment ++ before), after', ?_, by simp⟩
          rw [← Scan.eq_append_of_blockComment? hc]
          simp
      · cases h
    · cases h

/-- Every slash that is left has a line and a column, and so has every comment. -/
def SlashesPlaced (l : Lexer) : Prop := ∀ before after, l.rest = before ++ '/' :: after →
  Placed (l.position.after before).line (l.position.after before).col

theorem SlashesPlaced.nextToken (h : SlashesPlaced l) : SlashesPlaced l.nextToken.2 := by
  rcases l.nextToken_spec with ⟨hs, -⟩ | ⟨skipped, c, tail, ht, -, hrest, hpos, -⟩
  · have hnil : l.nextToken.2.rest = [] := by
      rcases ht : Scan.trivia l.rest with ⟨skipped, tail⟩
      rw [Spent, ht] at hs
      dsimp only at hs
      subst hs
      simp [Lexer.nextToken, ht]
    intro before after he
    simp [hnil] at he
  · intro before after he
    have hcs : l.rest = skipped ++ (Scan.token c tail).lexeme ++ before ++ '/' :: after := by
      rw [Lexed.cons_eq ht, ← hrest, he]
      simp
    rw [hpos]
    simpa using h _ _ hcs

theorem nextToken?_eq_some (h : nextToken? cs l = some (t, l')) :
    token? cs l.nextToken.1 = some t ∧ l' = l.nextToken.2 := by
  unfold nextToken? at h
  split at h
  · obtain ⟨t', ht, he⟩ := Option.map_eq_some_iff.mp h
    cases he
    exact ⟨ht, rfl⟩
  · cases h

theorem nextToken?_of_placed (hl : SlashesPlaced l) (h : token? cs l.nextToken.1 = some t) :
    nextToken? cs l = some (t, l.nextToken.2) := by
  have hplaced : ∀ start ∈ commentStarts l.rest.length l.position l.rest,
      Placed start.line start.col := by
    intro start hstart
    obtain ⟨before, after, hrest, rfl⟩ := mem_commentStarts hstart
    exact hl before after hrest
  rw [nextToken?, if_pos hplaced, h]
  rfl

/-- Tokens of a text, and what is handed out for them. -/
abbrev HandedOut (cs : List Char) (toks toks' : List Token) : Prop :=
  List.Forall₂ (fun t t' => token? cs t = some t') toks toks'

theorem HandedOut.map_kind {toks' : List Token} (h : HandedOut cs toks toks') :
    toks'.map (·.kind) = toks.map (·.kind) := by
  induction h with
  | nil => rfl
  | cons ht _ ih => rw [List.map_cons, List.map_cons, kind_of_token? ht, ih]

/-- **What the lexer hands out are its tokens**, each as it is handed out. -/
theorem readAll?_eq_some : ∀ {limit : Nat} {l l' : Lexer} {toks : List Token},
    readAll? cs limit l = some (toks, l') →
      HandedOut cs (Lexer.readAll limit l).1 toks ∧ l' = (Lexer.readAll limit l).2
  | 0, l, l', toks, h => by
    cases h
    exact ⟨.nil, rfl⟩
  | limit + 1, l, l', toks, h => by
    simp only [readAll?, Option.bind_eq_bind, Option.bind_eq_some_iff, Prod.exists] at h
    obtain ⟨t, l₁, hnext, h⟩ := h
    obtain ⟨ht, rfl⟩ := nextToken?_eq_some hnext
    have hk := kind_of_token? ht
    simp only [Lexer.readAll]
    by_cases heof : t.kind = .eof
    · rw [if_pos heof] at h
      rw [if_pos (hk ▸ heof)]
      cases h
      exact ⟨.cons ht .nil, rfl⟩
    · rw [if_neg heof] at h
      rw [if_neg (hk ▸ heof)]
      simp only [Option.bind_eq_some_iff, Prod.exists] at h
      obtain ⟨more, l₂, hmore, h⟩ := h
      cases h
      obtain ⟨htoks, rfl⟩ := readAll?_eq_some hmore
      exact ⟨.cons ht htoks, rfl⟩

/-- **If all tokens can be handed out, the lexer does so**, as long as its comments have places. -/
theorem readAll?_of_placed : ∀ {limit : Nat} {l : Lexer} {toks : List Token}, SlashesPlaced l →
    HandedOut cs (Lexer.readAll limit l).1 toks →
    readAll? cs limit l = some (toks, (Lexer.readAll limit l).2)
  | 0, l, toks, _, h => by
    cases h
    rfl
  | limit + 1, l, toks, hl, h => by
    simp only [Lexer.readAll] at h
    by_cases heof : l.nextToken.1.kind = .eof
    · rw [if_pos heof] at h
      obtain ⟨t, _, ht, hnil, rfl⟩ := List.forall₂_cons_left_iff.mp h
      cases hnil
      have hk : t.kind = .eof := (kind_of_token? ht).trans heof
      simp [readAll?, nextToken?_of_placed hl ht, hk, Lexer.readAll, heof]
    · rw [if_neg heof] at h
      obtain ⟨t, more, ht, hmore, rfl⟩ := List.forall₂_cons_left_iff.mp h
      have hk : t.kind ≠ .eof := fun h => heof ((kind_of_token? ht).symm.trans h)
      have ih := readAll?_of_placed hl.nextToken hmore
      simp [readAll?, nextToken?_of_placed hl ht, hk, Lexer.readAll, heof, ih]

/-! ## 4. Whole texts -/

/-- A list is mapped if each of its elements is. -/
theorem mapM_eq_some_iff {α β : Type} {f : α → Option β} : ∀ {as : List α} {bs : List β},
    as.mapM f = some bs ↔ List.Forall₂ (fun a b => f a = some b) as bs
  | [], bs => by
    rw [List.mapM_nil, List.forall₂_nil_left_iff]
    simp [eq_comm]
  | a :: as, bs => by
    rw [List.mapM_cons, List.forall₂_cons_left_iff]
    simp only [Option.bind_eq_bind, Option.bind_eq_some_iff, Option.pure_def, Option.some.injEq,
      mapM_eq_some_iff]
    constructor
    · rintro ⟨b, hb, bs, hbs, rfl⟩
      exact ⟨b, bs, hb, hbs, rfl⟩
    · rintro ⟨b, bs, hb, hbs, rfl⟩
      exact ⟨b, hb, bs, hbs, rfl⟩

theorem tokenize_eq_some (h : tokenize text = some (toks, errors)) :
    HandedOut text.toList (Recast.tokenize text).1 toks ∧
      List.Forall₂ (fun e e' => lexError? e = some e') (Recast.tokenize text).2 errors := by
  simp only [tokenize, Option.bind_eq_bind, Option.bind_eq_some_iff, Prod.exists, Option.pure_def,
    Option.some.injEq, Prod.mk.injEq] at h
  obtain ⟨toks', l, hread, errors', herrors, rfl, rfl⟩ := h
  obtain ⟨htoks, rfl⟩ := readAll?_eq_some hread
  exact ⟨htoks, mapM_eq_some_iff.mp herrors⟩

theorem tokenize_of_placed (hslash : SlashesPlaced (Lexer.ofText text))
    (htoks : HandedOut text.toList (Recast.tokenize text).1 toks)
    (herrors : List.Forall₂ (fun e e' => lexError? e = some e') (Recast.tokenize text).2 errors) :
    tokenize text = some (toks, errors) := by
  have hread : readAll? text.toList (text.toList.length + 1) (Lexer.ofText text) = _ :=
    readAll?_of_placed hslash htoks
  have herr := mapM_eq_some_iff.mpr herrors
  simp only [Recast.tokenize] at herr
  simp [tokenize, hread, herr]

/-- **The tokens of a small text are the same with and without the bound.** -/
theorem tokenize_of_small (h : Small text) : tokenize text = some (Recast.tokenize text) := by
  obtain ⟨-, hlies, -, -, hspans⟩ := tokenize_tiles text
  refine tokenize_of_placed ?_ ?_ ?_
  · intro before after hrest
    obtain ⟨hline, hcol⟩ := h.line_col hrest
    exact placed_of_lt hline hcol
  · exact List.forall₂_same.mpr fun t ht => h.token?_eq (hlies t ht)
  · refine List.forall₂_same.mpr fun e he => ?_
    -- an error is at the place of a token
    have hmem : e.span ∈ ((Recast.tokenize text).1.filter (·.kind = .error)).map (·.span) :=
      hspans ▸ List.mem_map_of_mem he
    obtain ⟨t, ht, hspan⟩ := List.mem_map.mp hmem
    have hsome := h.span?_eq (hlies t (List.mem_of_mem_filter ht))
    rw [hspan] at hsome
    rw [lexError?, hsome]
    rfl

theorem Small.exists_tokens (h : Small text) : ∃ toks errors, tokenize text = some (toks, errors) :=
  ⟨(Recast.tokenize text).1, (Recast.tokenize text).2, by rw [tokenize_of_small h]⟩

theorem Small.tokenize_eq (hsmall : Small text) (h : tokenize text = some (toks, errors)) :
    (Recast.tokenize text).1 = toks ∧ (Recast.tokenize text).2 = errors := by
  rw [tokenize_of_small hsmall, Option.some.injEq] at h
  exact Prod.ext_iff.mp h

/-- The end of a text is handed out, if anything is. -/
theorem exists_token?_endOf {lexed : List Token × List LexError} (h : tokenize text = some lexed) :
    ∃ t, token? text.toList (.endOf text) = some t := by
  obtain ⟨htoks, -⟩ := tokenize_eq_some h
  obtain ⟨init, heof, -⟩ := (tiles_tokenize text).exists_eof
  have hlast := List.forall₂_reverse_iff.mpr htoks
  rw [heof, List.reverse_append, List.reverse_singleton, List.singleton_append] at hlast
  obtain ⟨t, _, ht, -⟩ := List.forall₂_cons_left_iff.mp hlast
  exact ⟨t, ht⟩

/-- Nothing is handed out for a text whose end, as it is handed out, falls inside a character. -/
theorem tokenize_eq_none_of_not_cut
    (h : Text.splitAtByte? text.toList (cut (byteSize text.toList)) = none) : tokenize text = none := by
  refine Option.eq_none_iff_forall_ne_some.mpr fun lexed hlexed => ?_
  obtain ⟨t, ht⟩ := exists_token?_endOf hlexed
  obtain ⟨span, lexeme, hspan, hslice, -⟩ := token?_eq_some_iff.mp ht
  obtain ⟨-, rfl⟩ := span?_eq_some_iff.mp hspan
  obtain ⟨before, after, htext, hbefore, -⟩ := Text.slice?_eq_some_iff.mp hslice
  have hsplit := Text.splitAtByte?_byteSize before (lexeme ++ after)
  rw [hbefore, ← htext] at hsplit
  exact Option.some_ne_none _ (hsplit.symm.trans h)

end Narrow

/-! ## 5. Texts with many blanks -/

theorem Position.after_blanks (p : Position) (n : Nat) :
    p.after (List.replicate n ' ') = ⟨p.offset + n, p.line, p.col + n⟩ := by
  induction n generalizing p with
  | zero => rfl
  | succ n ih =>
    have hone : p.step ' ' = ⟨p.offset + 1, p.line, p.col + 1⟩ := rfl
    rw [List.replicate_succ, after_cons, ih, hone]
    simp only [Nat.add_assoc, Nat.add_comm 1]

theorem Text.byteSize_blanks (n : Nat) : byteSize (List.replicate n ' ') = n := by
  have h := Position.offset_after .start (List.replicate n ' ')
  rw [Position.after_blanks] at h
  exact (Nat.add_left_cancel h).symm

theorem Scan.head?_blanks {cs : List Char} (h : cs.head? ≠ some byteOrderMark) (n : Nat) :
    (List.replicate n ' ' ++ cs).head? ≠ some byteOrderMark := by
  cases n with
  | zero => exact h
  | succ n => simp [List.replicate_succ, byteOrderMark]

/-- Blanks in front are skipped first. -/
theorem Scan.trivia_blanks {cs : List Char} (h : cs.head? ≠ some byteOrderMark) (n : Nat) :
    trivia (List.replicate n ' ' ++ cs) =
      (List.replicate n ' ' ++ (trivia cs).1, (trivia cs).2) := by
  induction n with
  | zero => rfl
  | succ n ih =>
    rw [List.replicate_succ, List.cons_append, trivia_blank rfl (head?_blanks h n), ih]
    rfl

theorem Scan.opens_cons {c : Char} {cs : List Char}
    (h : Text.isAsciiBlank c = false ∧ c ≠ byteOrderMark ∧ c ≠ '/') : Opens (c :: cs) :=
  ⟨c, cs, rfl, h.1, h.2.1, fun hc => absurd hc h.2.2⟩

/-- **A token after many blanks is read first.** -/
theorem Lexed.after_blanks {p stop : Position} {c : Char} {tail rest : List Char}
    {toks : List Token} {s : Scan.Scanned} (n : Nat) (ho : Scan.Opens (c :: tail))
    (hs : Scan.token c tail = s)
    (h : Lexed (Position.after ⟨p.offset + n, p.line, p.col + n⟩ s.lexeme) s.rest toks stop rest) :
    Lexed p (List.replicate n ' ' ++ c :: tail)
      (⟨(Token.scanned p s).kind, String.ofList s.lexeme,
        ⟨p.offset + n, byteSize s.lexeme, p.line, p.col + n⟩⟩ :: toks) stop rest := by
  have htriv : Scan.trivia (List.replicate n ' ' ++ c :: tail) =
      (List.replicate n ' ', c :: tail) := by
    rw [Scan.trivia_blanks (fun h => (ho.head h).2 rfl), ho.trivia_eq, List.append_nil]
  subst hs
  rw [← Position.after_blanks] at h
  have hone := Lexed.cons htriv h
  rw [Token.scanned, Span.between, Position.offset_after _ (Scan.token c tail).lexeme,
    Nat.add_sub_cancel_left, Position.after_blanks] at hone
  exact hone

/-- **Tokens after a comment on a line of its own are read first.** -/
theorem Lexed.after_comment {p stop : Position} (line : List Char) {cs rest : List Char}
    {toks : List Token} (hline : '\n' ∉ line) (hcs : cs.head? ≠ some Scan.byteOrderMark)
    (hne : toks ≠ [])
    (h : Lexed (p.after ('/' :: '/' :: line ++ ['\n'])) cs toks stop rest) :
    Lexed p ('/' :: '/' :: line ++ '\n' :: cs) toks stop rest := by
  cases h with
  | nil => exact absurd rfl hne
  | @cons _ _ _ skipped tail _ c _ ht hl =>
    have hbreak : Scan.trivia ('\n' :: cs) = ('\n' :: skipped, c :: tail) := by
      rw [Scan.trivia_blank rfl hcs, ht]
    have hends : Scan.EndsLine ('\n' :: cs) := by
      rintro d ⟨⟩
      rfl
    have hblanks : Scan.blanks ('/' :: '/' :: (line ++ '\n' :: cs)) =
        ([], '/' :: '/' :: (line ++ '\n' :: cs)) := rfl
    have hskips := Scan.Skips.line hblanks hline hends (Scan.trivia_eq_iff.mp hbreak)
    have hmove : (p.after ('/' :: '/' :: line ++ ['\n'])).after skipped =
        p.after ([] ++ '/' :: '/' :: line ++ '\n' :: skipped) := by
      rw [← Position.after_append, List.append_assoc]
      rfl
    rw [hmove] at hl ⊢
    exact .cons (Scan.trivia_eq_iff.mpr hskips) hl

/-- Nothing but blanks is left. -/
theorem spent_blanks (n : Nat) : Spent (List.replicate n ' ') := by
  have h : Scan.trivia (List.replicate n ' ' ++ []) = _ := Scan.trivia_blanks (by simp) n
  rw [List.append_nil] at h
  rw [Spent, h]
  rfl

/-- The tokens of a text are those that it is read as, with the end of the text after them. -/
theorem tokenize_of_lexed {text : String} {toks : List Token} {stop : Position} {rest : List Char}
    (h : Lexed .start text.toList toks stop rest) (hs : Spent rest) :
    (tokenize text).1 = toks ++ [Token.endOf text] ∧
      ((tokenize text).2 = [] ↔ ∀ a ∈ toks, a.kind ≠ .error) := by
  obtain ⟨toks', stop', rest', hlex, hspent, htoks, herr⟩ := tokenize_eq text
  obtain rfl := hlex.unique h hspent hs
  exact ⟨htoks, herr⟩

/-- The end of a text is where all its characters are read. -/
theorem Token.span_endOf (text : String) : (endOf text).span =
    .between (Position.start.after text.toList) (Position.start.after text.toList) :=
  (Span.between_after text.toList []).symm

namespace Narrow

/-- Characters, so many blanks, and more characters. -/
def apart (front : List Char) (n : Nat) (back : List Char) : String :=
  String.ofList (front ++ (List.replicate n ' ' ++ back))

@[simp] theorem toList_apart (front : List Char) (n : Nat) (back : List Char) :
    (apart front n back).toList = front ++ (List.replicate n ' ' ++ back) := by
  rw [apart, String.toList_ofList]

theorem byteSize_apart (front : List Char) (n : Nat) (back : List Char) :
    byteSize (apart front n back).toList = byteSize front + (n + byteSize back) := by
  rw [toList_apart, Text.byteSize_append, Text.byteSize_append, Text.byteSize_blanks]

/-- The place after characters, blanks and more characters. -/
theorem start_after_apart (front : List Char) (n : Nat) (back : List Char) :
    Position.start.after (apart front n back).toList =
      Position.after ⟨(Position.start.after front).offset + n, (Position.start.after front).line,
        (Position.start.after front).col + n⟩ back := by
  rw [toList_apart, Position.after_append, Position.after_append, Position.after_blanks]

/-- What is handed out for a token that ends after the blanks, but starts, as it is handed out, before
them. -/
theorem token?_apart (before front : List Char) (n : Nat) (back after : List Char)
    (hspan : span? t.span = some s) (hstart : byteSize before = s.offset)
    (hstop : byteSize before + byteSize front + n + byteSize back = t.span.stop) :
    token? (apart (before ++ front) n (back ++ after)).toList t =
      some ⟨t.kind, apart front n back, s⟩ := by
  have htext : (apart (before ++ front) n (back ++ after)).toList =
      before ++ ((apart front n back).toList ++ after) := by simp
  have hsize : byteSize (before ++ (apart front n back).toList) = t.span.stop := by
    rw [Text.byteSize_append, byteSize_apart, ← hstop]
    simp only [Nat.add_assoc]
  rw [token?_of_append hspan htext hstart hsize, String.ofList_toList]

/-- Without a slash there is no comment. -/
theorem slashesPlaced_of_not_mem (h : '/' ∉ text.toList) : SlashesPlaced (Lexer.ofText text) := by
  intro before after hrest
  refine absurd ?_ h
  rw [show text.toList = before ++ '/' :: after from hrest]
  simp

/-- The slashes of a comment at the start of a text have places, and without more of them all have. -/
theorem slashesPlaced_of_comment {cs : List Char} (htext : text.toList = '/' :: '/' :: cs)
    (h : '/' ∉ cs) : SlashesPlaced (Lexer.ofText text) := by
  intro before after hrest
  have he : '/' :: '/' :: cs = before ++ '/' :: after := htext.symm.trans hrest
  match before with
  | [] => exact show Placed 1 1 by decide
  | [_] =>
    cases he
    exact show Placed 1 2 by decide
  | _ :: _ :: before =>
    cases he
    exact absurd (List.mem_append_right before (List.mem_cons_self ..)) h

/-- The end of a text has a place, and the characters from there on are its spelling. -/
theorem token?_endOf {before after : List Char} (htext : text.toList = before ++ after)
    (hcut : cut (byteSize text.toList) = byteSize before)
    (hplaced : Placed (Token.endOf text).span.line (Token.endOf text).span.col) :
    token? text.toList (.endOf text) = some ⟨.eof, String.ofList after, ⟨byteSize before, 0,
      (Token.endOf text).span.line, cut ((Token.endOf text).span.col - 1) + 1⟩⟩ := by
  have hspan : span? (Token.endOf text).span = some ⟨byteSize before, 0,
      (Token.endOf text).span.line, cut ((Token.endOf text).span.col - 1) + 1⟩ := by
    refine span?_eq_some_iff.mpr ⟨⟨hplaced, Nat.le_refl _⟩, ?_⟩
    rw [← hcut]
    simp [Token.endOf, Span.ofText, Span.stop]
  refine token?_of_append hspan (by rwa [List.append_nil]) rfl ?_
  rw [← htext]
  rfl

/-- The same of a text with many blanks, whose size and end can be computed. -/
theorem token?_endOf_apart {front back before after : List Char} {n : Nat}
    (htext : (apart front n back).toList = before ++ after)
    (hcut : cut (byteSize front + (n + byteSize back)) = byteSize before)
    (hplaced : Placed
      (Position.after ⟨(Position.start.after front).offset + n, (Position.start.after front).line,
        (Position.start.after front).col + n⟩ back).line
      (Position.after ⟨(Position.start.after front).offset + n, (Position.start.after front).line,
        (Position.start.after front).col + n⟩ back).col) :
    ∃ s, token? (apart front n back).toList (.endOf (apart front n back)) =
      some ⟨.eof, String.ofList after, s⟩ := by
  refine ⟨_, token?_endOf htext ?_ ?_⟩
  · rw [byteSize_apart, hcut]
  · rw [Token.span_endOf, start_after_apart]
    exact hplaced

/-- What is handed out for a text whose tokens are known. -/
theorem tokenize_of_handedOut {toks' : List Token} {stop : Position} {rest : List Char}
    (hlex : Lexed .start text.toList toks stop rest) (hspent : Spent rest)
    (hslash : SlashesPlaced (Lexer.ofText text)) (htoks : HandedOut text.toList toks toks')
    (hend : token? text.toList (.endOf text) = some t)
    (herrors : List.Forall₂ (fun e e' => lexError? e = some e') (Recast.tokenize text).2 errors) :
    tokenize text = some (toks' ++ [t], errors) := by
  refine tokenize_of_placed hslash ?_ herrors
  rw [(tokenize_of_lexed hlex hspent).1]
  exact List.rel_append htoks (.cons hend .nil)

theorem errors_of_lexed {stop : Position} {rest : List Char}
    (hlex : Lexed .start text.toList toks stop rest) (hspent : Spent rest)
    (hok : ∀ a ∈ toks, a.kind ≠ .error) :
    List.Forall₂ (fun e e' => lexError? e = some e') (Recast.tokenize text).2 [] := by
  rw [(tokenize_of_lexed hlex hspent).2.mpr hok]
  exact .nil

/-- What is handed out for two characters of which the second one stands `2 ^ 32` bytes after the
first: its spelling is taken from the start of the text. -/
theorem handedOut_apart {a b : Char} (ha : a.utf8Size = 1) (hb : b.utf8Size = 1) (back : List Char)
    (k k' : TokenKind) : HandedOut (apart [a] (size - 1) (b :: back)).toList
      [⟨k, String.ofList [a], ⟨0, 1, 1, 1⟩⟩,
        ⟨k', String.ofList [b], ⟨1 + (size - 1), 1, 1, 2 + (size - 1)⟩⟩]
      [⟨k, String.ofList [a], ⟨0, 1, 1, 1⟩⟩, ⟨k', apart [a] (size - 1) [b], ⟨0, 1, 1, 1⟩⟩] := by
  have hfirst : span? ⟨0, 1, 1, 1⟩ = some ⟨0, 1, 1, 1⟩ := by decide
  have hsecond : span? ⟨1 + (size - 1), 1, 1, 2 + (size - 1)⟩ = some ⟨0, 1, 1, 1⟩ := by decide
  refine .cons ?_ (.cons (token?_apart [] [a] (size - 1) [b] back hsecond rfl ?_) .nil)
  · exact token?_of_append hfirst ((toList_apart ..).trans (List.nil_append _).symm) rfl
      (by simp [Span.stop, ha])
  · simp [Span.stop, ha, hb]

/-! ## 6. The tokens of a small text -/

/-- **The tokens of a small text tile it.**  The last token is the end of the text, at its size, and no
other is.  Every token lies on its own characters, with the line and the column of the first of
them, and all but the last have one at least.  Each starts where the one before it has ended, or at
the start of the text, but for a gap.  The errors are at the tokens that are none. -/
theorem tokenize_tiles_of_small (text : String) (h : Small text) :
    ∃ toks errors, tokenize text = some (toks, errors) ∧
      (∃ (init : List Token) (eof : Token), toks = init ++ [eof] ∧ eof.kind = .eof ∧
        eof.span.offset = byteSize text.toList ∧ eof.span.len = 0 ∧
        ∀ t ∈ init, t.kind ≠ .eof ∧ t.lexeme ≠ "" ∧ 0 < t.span.len) ∧
      (∀ t ∈ toks, t.LiesIn text.toList) ∧
      (toks.Pairwise fun a b => a.span.Before b.span) ∧
      (∀ (earlier : List Token) (t : Token) (later : List Token), toks = earlier ++ t :: later →
        GapFrom text.toList (lastStop 0 earlier) t.span.offset) ∧
      errors.map (·.span) = (toks.filter (·.kind = .error)).map (·.span) :=
  ⟨(Recast.tokenize text).1, (Recast.tokenize text).2, by rw [tokenize_of_small h],
    tokenize_tiles text⟩

/-- A text of two lines, with a comment and an error. -/
theorem tokenize_tiles_of_two_lines : ∃ toks errors,
    tokenize "y /* é */
  = #" = some (toks, errors) ∧ (∀ t ∈ toks, t.LiesIn "y /* é */
  = #".toList) ∧
      errors.map (·.span) = [⟨15, 1, 2, 5⟩] := by
  obtain ⟨toks, errors, h, -, hlies, -⟩ :=
    tokenize_tiles_of_small "y /* é */
  = #" (by decide +kernel)
  refine ⟨toks, errors, h, hlies, ?_⟩
  rw [← (Small.tokenize_eq (by decide +kernel) h).2]
  decide +kernel

/-- **The text that is one byte larger has no end**: after as many blanks as the greatest number of
32 bits, the column of the end of the text is not one of them. -/
theorem tokenize_blanks_overflows : byteSize (apart [] (size - 1) []).toList < size ∧
    tokenize (apart [] (size - 1) []) = none := by
  have hsize : byteSize (apart [] (size - 1) []).toList = size - 1 := by
    rw [byteSize_apart]
    exact Nat.zero_add _
  refine ⟨by rw [hsize]; decide, Option.eq_none_iff_forall_ne_some.mpr fun lexed h => ?_⟩
  obtain ⟨t, ht⟩ := exists_token?_endOf h
  obtain ⟨span, lexeme, hspan, -⟩ := token?_eq_some_iff.mp ht
  obtain ⟨⟨hplaced, -⟩, -⟩ := span?_eq_some_iff.mp hspan
  rw [Token.span_endOf, start_after_apart] at hplaced
  revert hplaced
  decide

end Narrow

end Recast
