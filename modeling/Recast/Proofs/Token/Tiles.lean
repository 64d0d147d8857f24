/-
# How tokens tile a text

The tokens of a text lie in it one after another, each on its own characters, and only blanks and
comments are left between them.  The end of the text is a token of its own, on no characters.

* `Position.line_after`, `Position.col_after`: the line and the column of a place, counted in the
  text before it;
* `Gap gap rest`: what may stand between tokens, in front of the rest of the text.  A comment to
  the end of its line ends there, and a block comment ends at its first closing;
* `Tiles before cs toks`: after the characters `before`, the characters `cs` are tiled by `toks`;
* `Lexer.readAll_tiles`: **the lexer tiles a text from wherever it stands**;
* `tokenize_of_lexes`: what the lexer gives for a text whose tokens are known;
* `tokenize_tiles`: the same for a whole text, with its errors.
-/
import Recast.Proofs.Token.Reads
import Recast.Text.Lines

namespace Recast

open Text (byteSize lastLine)

/-! ## 1. Lines and columns -/

namespace Text

/-- Characters without a line feed lengthen the last line. -/
theorem lastLine_append (before : List Char) {line : List Char} (h : '\n' ∉ line) :
    lastLine (before ++ line) = lastLine before ++ line := by
  have hall : ∀ c ∈ line.reverse, decide (c ≠ '\n') = true := by
    intro c hc
    rw [List.mem_reverse] at hc
    exact decide_eq_true fun he => h (he ▸ hc)
  rw [lastLine, List.reverse_append, List.takeWhile_append_of_pos hall, List.reverse_append,
    List.reverse_reverse]
  rfl

theorem lastLine_newline (before : List Char) : lastLine (before ++ ['\n']) = [] := by
  simp [lastLine]

end Text

namespace Position

theorem line_after (p : Position) (cs : List Char) :
    (p.after cs).line = p.line + cs.count '\n' := by
  induction cs generalizing p with
  | nil => rfl
  | cons c cs ih =>
    rw [after_cons, ih, step]
    split
    · rename_i hc
      rw [hc, List.count_cons_self, Nat.add_comm (cs.count _), Nat.add_assoc]
    · rename_i hc
      rw [List.count_cons_of_ne hc]

/-- Inside a line the column grows by the bytes read. -/
theorem col_after_of_not_mem (p : Position) {cs : List Char} (h : '\n' ∉ cs) :
    (p.after cs).col = p.col + byteSize cs := by
  induction cs generalizing p with
  | nil => rfl
  | cons c cs ih =>
    simp only [List.mem_cons, not_or] at h
    rw [after_cons, ih _ h.2, step, if_neg (Ne.symm h.1), Text.byteSize_cons, Nat.add_assoc]

/-- A text without a line feed, or the part before its last line feed and the line after it. -/
theorem exists_last_newline : ∀ cs : List Char,
    '\n' ∉ cs ∨ ∃ before line, cs = before ++ ['\n'] ++ line ∧ '\n' ∉ line
  | [] => .inl (by simp)
  | c :: cs => by
    rcases exists_last_newline cs with h | ⟨before, line, rfl, h⟩
    · by_cases hc : c = '\n'
      · exact .inr ⟨[], cs, by rw [hc]; rfl, h⟩
      · refine .inl fun hm => ?_
        rcases List.mem_cons.mp hm with he | hm
        · exact hc he.symm
        · exact h hm
    · exact .inr ⟨c :: before, line, rfl, h⟩

/-- **The column counts the bytes since the last line feed.** -/
theorem col_after (cs : List Char) : (start.after cs).col = 1 + byteSize (lastLine cs) := by
  rcases exists_last_newline cs with h | ⟨before, line, rfl, h⟩
  · have hline := Text.lastLine_append [] h
    rw [List.nil_append] at hline
    rw [col_after_of_not_mem _ h, hline]
    rfl
  · rw [after_append, col_after_of_not_mem _ h, Text.lastLine_append _ h, Text.lastLine_newline,
      after_append, after_cons, step, if_pos rfl]
    rfl

end Position

/-- The characters `lexeme` after the characters `before`: how many bytes come before them, how
many they take, and the line and column of the first. -/
def Span.ofText (before lexeme : List Char) : Span :=
  ⟨byteSize before, byteSize lexeme, 1 + before.count '\n', 1 + byteSize (lastLine before)⟩

/-- Positions measure the text between them. -/
theorem Span.between_after (before lexeme : List Char) :
    Span.between (Position.start.after before) ((Position.start.after before).after lexeme) =
      Span.ofText before lexeme := by
  have hoffset : (Position.start.after before).offset = byteSize before := by
    simp [Position.offset_after, Position.start]
  have hline : (Position.start.after before).line = 1 + before.count '\n' := by
    simp [Position.line_after, Position.start]
  rw [between, Position.offset_after _ lexeme, Nat.add_sub_cancel_left, hoffset, hline,
    Position.col_after]
  rfl

/-- The first span starts before the second and has ended where the second starts. -/
def Span.Before (a b : Span) : Prop := a.offset < b.offset ∧ a.stop ≤ b.offset

/-! ## 2. Between tokens -/

/-- **What may stand between tokens**, in front of the rest of a text: byte-order marks, ASCII
blanks, comments up to the end of their line, and block comments up to their first closing. -/
inductive Gap : List Char → List Char → Prop
  | nil {rest : List Char} : Gap [] rest
  | mark {gap rest : List Char} : Gap gap rest → Gap (Scan.byteOrderMark :: gap) rest
  | blank {c : Char} {gap rest : List Char} :
      Text.isAsciiBlank c = true → Gap gap rest → Gap (c :: gap) rest
  | line {line gap rest : List Char} : '\n' ∉ line → (∀ c ∈ (gap ++ rest).head?, c = '\n') →
      Gap gap rest → Gap ('/' :: '/' :: line ++ gap) rest
  | block {body gap rest : List Char} : ¬ ['*', '/'] <:+: body →
      Gap gap rest → Gap ('/' :: '*' :: body ++ ('*' :: '/' :: gap)) rest

namespace Gap

theorem blanks_append {blanks gap rest : List Char}
    (h : ∀ c ∈ blanks, Text.isAsciiBlank c = true) (hg : Gap gap rest) :
    Gap (blanks ++ gap) rest := by
  induction blanks with
  | nil => exact hg
  | cons c cs ih =>
    have hcs : ∀ c ∈ cs, Text.isAsciiBlank c = true := fun d hd => h d (List.mem_cons_of_mem _ hd)
    exact .blank (h c List.mem_cons_self) (ih hcs)

end Gap

namespace Scan

/-- A stretch of blanks, in front of a gap. -/
theorem blanks_gap (cs : List Char) {gap rest : List Char} (hg : Gap gap rest) :
    Gap ((blanks cs).1 ++ gap) rest := by
  have hblank : ∀ ds : List Char, ∀ c ∈ ds.takeWhile Text.isAsciiBlank,
      Text.isAsciiBlank c = true := by
    intro ds c hc
    exact List.all_eq_true.mp List.all_takeWhile c hc
  cases cs with
  | nil => exact hg
  | cons c cs =>
    simp only [blanks]
    split
    · rename_i hc
      rw [hc]
      exact .mark (.blanks_append (hblank cs) hg)
    · exact .blanks_append (hblank (c :: cs)) hg

/-- A block comment ends at its first closing. -/
theorem blockComment?_spec : ∀ {cs comment rest : List Char},
    blockComment? cs = some (comment, rest) →
    ∃ body, comment = body ++ ['*', '/'] ∧ ¬ ['*', '/'] <:+: body
  | [], _, _, h => by cases h
  | c :: cs, comment, rest, h => by
    have happ := eq_append_of_blockComment? h
    unfold blockComment? at h
    split at h
    · cases h
    · cases h
      exact ⟨[], rfl, by simp⟩
    · rename_i hopen heq
      cases heq
      obtain ⟨⟨inner, after⟩, hin, he⟩ := Option.map_eq_some_iff.mp h
      cases he
      obtain ⟨body, rfl, hbody⟩ := blockComment?_spec hin
      refine ⟨c :: body, rfl, fun hinfix => ?_⟩
      -- a closing that starts at `c` is one that the first clause would have taken
      rcases List.infix_cons_iff.mp hinfix with ⟨more, hmore⟩ | hinfix
      · simp only [List.cons_append, List.nil_append, List.cons.injEq] at hmore happ
        obtain ⟨hc, hmore⟩ := hmore
        refine hopen (more ++ ['*', '/'] ++ rest) hc.symm ?_
        rw [← happ.2, ← hmore]
        rfl
      · exact hbody hinfix

/-- What is skipped, stretch by stretch, is a gap. -/
theorem Skips.gap {cs skipped rest : List Char} (h : Skips cs skipped rest) : Gap skipped rest := by
  induction h with
  | @last cs blank rest hb _ =>
    have := blanks_gap cs (.nil : Gap [] rest)
    rwa [hb, List.append_nil] at this
  | @line cs blank line after more rest hb hline hends hmore ih =>
    have hgap : Gap ('/' :: '/' :: line ++ more) rest :=
      .line hline (by rw [hmore.append_eq]; exact hends) ih
    have := blanks_gap cs hgap
    rwa [hb, ← List.append_assoc] at this
  | @block cs blank body comment after more rest hb hc _ ih =>
    obtain ⟨inner, rfl, hinner⟩ := blockComment?_spec hc
    have := blanks_gap cs (Gap.block hinner ih)
    rw [hb] at this
    simpa using this

/-- **What is skipped before a token is a gap.** -/
theorem trivia_gap (cs : List Char) : Gap (trivia cs).1 (trivia cs).2 :=
  (trivia_eq_iff.mp rfl).gap

end Scan

/-! ## 3. Tiles -/

/-- **Tokens tile the characters `cs`**, which stand after the characters `before`: in front of
each token there is a gap, the token lies on its own characters, of which there is one at least,
and the end of the text comes last. -/
inductive Tiles : List Char → List Char → List Token → Prop
  | eof {before gap : List Char} : Gap gap [] →
      Tiles before gap [⟨.eof, "", Span.ofText (before ++ gap) []⟩]
  | cons {before gap lexeme rest : List Char} {kind : TokenKind} {toks : List Token} :
      Gap gap (lexeme ++ rest) → lexeme ≠ [] → kind ≠ .eof →
      Tiles (before ++ (gap ++ lexeme)) rest toks →
      Tiles before (gap ++ (lexeme ++ rest))
        (⟨kind, String.ofList lexeme, Span.ofText (before ++ gap) lexeme⟩ :: toks)

/-- A token lies in a text: its lexeme is what its span covers, and its line and column are those
of its first character. -/
def Token.LiesIn (t : Token) (cs : List Char) : Prop :=
  ∃ before after, cs = before ++ (t.lexeme.toList ++ after) ∧
    t.span = Span.ofText before t.lexeme.toList

/-- The bytes from `start` up to `stop` of a text are a gap. -/
def GapFrom (cs : List Char) (start stop : Nat) : Prop :=
  ∃ before gap after, cs = before ++ (gap ++ after) ∧ byteSize before = start ∧
    byteSize (before ++ gap) = stop ∧ Gap gap after

/-- Where the last of some tokens ends, or `start` if there is none. -/
def lastStop (start : Nat) (toks : List Token) : Nat :=
  (toks.getLast?.map fun t => t.span.stop).getD start

theorem lastStop_cons (start : Nat) (t : Token) (toks : List Token) :
    lastStop start (t :: toks) = lastStop t.span.stop toks := by
  unfold lastStop
  rw [List.getLast?_cons]
  cases toks.getLast? <;> rfl

namespace Tiles

variable {before cs : List Char} {toks : List Token}

/-- The end of the text is the last token and no other. -/
theorem exists_eof (h : Tiles before cs toks) :
    ∃ init, toks = init ++ [⟨.eof, "", Span.ofText (before ++ cs) []⟩] ∧
      ∀ t ∈ init, t.kind ≠ .eof ∧ t.lexeme ≠ "" ∧ 0 < t.span.len := by
  induction h with
  | eof _ => exact ⟨[], rfl, by simp⟩
  | @cons before gap lexeme rest kind toks _ hne hk _ ih =>
    obtain ⟨init, rfl, hinit⟩ := ih
    refine ⟨⟨kind, String.ofList lexeme, Span.ofText (before ++ gap) lexeme⟩ :: init, by simp,
      fun t ht => ?_⟩
    rcases List.mem_cons.mp ht with rfl | ht
    · exact ⟨hk, by simpa using hne, byteSize_pos hne⟩
    · exact hinit t ht

theorem liesIn (h : Tiles before cs toks) {t : Token} (ht : t ∈ toks) : t.LiesIn (before ++ cs) := by
  induction h with
  | @eof before gap _ =>
    cases List.mem_singleton.mp ht
    exact ⟨before ++ gap, [], by simp, by simp⟩
  | @cons before gap lexeme rest kind toks _ _ _ _ ih =>
    rcases List.mem_cons.mp ht with rfl | ht
    · exact ⟨before ++ gap, rest, by simp, by simp⟩
    · have := ih ht
      rwa [List.append_assoc, List.append_assoc] at this

theorem le_offset (h : Tiles before cs toks) {t : Token} (ht : t ∈ toks) :
    byteSize before ≤ t.span.offset := by
  induction h with
  | eof _ =>
    cases List.mem_singleton.mp ht
    simp [Span.ofText]
  | cons _ _ _ _ ih =>
    rcases List.mem_cons.mp ht with rfl | ht
    · simp [Span.ofText]
    · have := ih ht
      rw [Text.byteSize_append] at this
      omega

/-- Tokens follow one another. -/
theorem apart (h : Tiles before cs toks) : toks.Pairwise fun a b => a.span.Before b.span := by
  induction h with
  | eof _ => exact List.pairwise_singleton _ _
  | @cons before gap lexeme rest kind toks _ hne _ hl ih =>
    refine List.pairwise_cons.mpr ⟨fun t ht => ?_, ih⟩
    have hpos := byteSize_pos hne
    have hle := hl.le_offset ht
    simp only [Text.byteSize_append] at hle
    simp only [Span.Before, Span.ofText, Span.stop, Text.byteSize_append]
    omega

/-- In front of every token, from the end of the one before it on, there is a gap. -/
theorem gapFrom (h : Tiles before cs toks) {earlier later : List Token} {t : Token}
    (ht : toks = earlier ++ t :: later) :
    GapFrom (before ++ cs) (lastStop (byteSize before) earlier) t.span.offset := by
  induction h generalizing earlier with
  | @eof before gap hg =>
    obtain ⟨rfl, rfl⟩ : earlier = [] ∧ t = ⟨.eof, "", Span.ofText (before ++ gap) []⟩ := by
      cases earlier with
      | nil =>
        cases ht
        exact ⟨rfl, rfl⟩
      | cons e earlier => simp at ht
    exact ⟨before, gap, [], by simp, rfl, rfl, hg⟩
  | @cons before gap lexeme rest kind toks hg _ _ _ ih =>
    cases earlier with
    | nil =>
      cases ht
      exact ⟨before, gap, lexeme ++ rest, rfl, rfl, rfl, hg⟩
    | cons e earlier =>
      cases ht
      have hstop : (Span.ofText (before ++ gap) lexeme).stop =
          byteSize (before ++ (gap ++ lexeme)) := by
        simp [Span.ofText, Span.stop, Nat.add_assoc]
      rw [lastStop_cons, hstop]
      have := ih rfl
      rwa [List.append_assoc, List.append_assoc] at this

end Tiles

/-! ## 4. The lexer -/

namespace Lexer

/-- With nothing but a gap left, the end of the text is read. -/
theorem nextToken_of_spent {l : Lexer} (h : Spent l.rest) :
    l.nextToken.1 = ⟨.eof, "", .between (l.position.after l.rest) (l.position.after l.rest)⟩ := by
  have happ := Scan.trivia_append l.rest
  rw [Spent] at h
  rw [h, List.append_nil] at happ
  have ht : Scan.trivia l.rest = (l.rest, []) := Prod.ext happ h
  simp [nextToken, ht]

/-- An error is recorded for a token exactly if it is none, at its place. -/
theorem nextToken_errors (l : Lexer) : l.nextToken.2.errors.map (·.span) =
    l.errors.map (·.span) ++ ([l.nextToken.1].filter (·.kind = .error)).map (·.span) := by
  rcases ht : Scan.trivia l.rest with ⟨skipped, tail⟩
  cases tail with
  | nil => simp [nextToken, ht]
  | cons c tail =>
    cases hr : (Scan.token c tail).result with
    | ok k =>
      have hk := (Scan.token_kind hr).2.1
      simp [nextToken, ht, hr, hk]
    | error e => simp [nextToken, ht, hr]

/-- **The lexer tiles a text from wherever it stands.** -/
theorem readAll_tiles : ∀ {limit : Nat} {l : Lexer} {before : List Char}, l.rest.length < limit →
    l.position = Position.start.after before → Tiles before l.rest (readAll limit l).1
  | limit + 1, l, before, hlimit, hpos => by
    have hgap := Scan.trivia_gap l.rest
    rcases l.nextToken_spec with ⟨hs, hk, -⟩ | ⟨skipped, c, tail, ht, htok, hrest, hstop, -⟩
    · have happ := Scan.trivia_append l.rest
      rw [hs, List.append_nil] at happ
      rw [hs, happ] at hgap
      have hread : (readAll (limit + 1) l).1 = [l.nextToken.1] := by simp [readAll, hk]
      have hspan := Span.between_after (before ++ l.rest) []
      rw [Position.after_nil, Position.after_append, ← hpos] at hspan
      rw [hread, nextToken_of_spent hs, hspan]
      exact .eof hgap
    · have hcs := Lexed.cons_eq ht
      have hne := Scan.token_lexeme_ne_nil c tail
      have hone : Lexed l.position l.rest [l.nextToken.1] l.nextToken.2.position
          l.nextToken.2.rest := by
        rw [htok, hrest, hstop]
        exact .cons ht .nil
      have hk : l.nextToken.1.kind ≠ .eof := hone.kind_ne_eof (List.mem_singleton_self _)
      have hlen : l.nextToken.2.rest.length < limit := by
        have hlength := congrArg List.length hcs
        have hpos := List.length_pos_iff.mpr hne
        simp only [List.length_append] at hlength
        rw [hrest]
        omega
      have hread : (readAll (limit + 1) l).1 =
          l.nextToken.1 :: (readAll limit l.nextToken.2).1 := by simp [readAll, hk]
      have hpos' : l.nextToken.2.position =
          Position.start.after (before ++ (skipped ++ (Scan.token c tail).lexeme)) := by
        rw [hstop, hpos]
        simp
      have hmore := readAll_tiles hlen hpos'
      have hspan := Span.between_after (before ++ skipped) (Scan.token c tail).lexeme
      rw [Position.after_append, ← hpos] at hspan
      rw [hrest] at hmore
      rw [ht, ← Scan.token_append c tail] at hgap
      rw [htok] at hk
      rw [hread, hcs, htok, Token.scanned, hspan]
      exact .cons hgap hne hk hmore

/-- The errors of a stretch are those of its tokens that are none. -/
theorem readAll_errors : ∀ (limit : Nat) (l : Lexer), (readAll limit l).2.errors.map (·.span) =
    l.errors.map (·.span) ++ ((readAll limit l).1.filter (·.kind = .error)).map (·.span)
  | 0, l => by simp [readAll]
  | limit + 1, l => by
    have hone := nextToken_errors l
    simp only [readAll]
    split
    · exact hone
    · rw [readAll_errors limit, hone, List.append_assoc, ← List.map_append, ← List.filter_append]
      rfl

end Lexer

theorem tiles_tokenize (text : String) : Tiles [] text.toList (tokenize text).1 :=
  Lexer.readAll_tiles (l := Lexer.ofText text) (Nat.lt_succ_self _) rfl

/-- The end of a text, the last of its tokens. -/
def Token.endOf (text : String) : Token := ⟨.eof, "", Span.ofText text.toList []⟩

@[simp] theorem Token.bare_endOf (text : String) : (endOf text).bare = (.eof, "") := rfl

/-- The tokens of a text, with the end of the text after them, and whether there are errors. -/
theorem tokenize_eq (text : String) :
    ∃ toks stop rest, Lexed .start text.toList toks stop rest ∧ Spent rest ∧
      (tokenize text).1 = toks ++ [Token.endOf text] ∧
      ((tokenize text).2 = [] ↔ ∀ a ∈ toks, a.kind ≠ .error) := by
  obtain ⟨toks, stop, rest, last, hlex, hspent, htoks, -, herr⟩ := tokenize_spec text
  obtain ⟨init, heof, -⟩ := (tiles_tokenize text).exists_eof
  rw [htoks] at heof
  obtain ⟨rfl, hlast⟩ := List.append_inj' heof rfl
  cases hlast
  exact ⟨toks, stop, rest, hlex, hspent, htoks, herr⟩

theorem tokenize_lexed (text : String) :
    ∃ toks stop rest s, Lexed .start text.toList toks stop rest ∧ Spent rest ∧
      (tokenize text).1 = toks ++ [⟨.eof, "", s⟩] := by
  obtain ⟨toks, stop, rest, hlex, hspent, htoks, -⟩ := tokenize_eq text
  exact ⟨toks, stop, rest, _, hlex, hspent, htoks⟩

/-- The lexer gives the tokens that a text is read as, without errors if all of them are tokens, and
the end of the text after them. -/
theorem tokenize_of_lexes {text : String} {ts : List Token} (h : Lexes text.toList ts)
    (hok : ∀ a ∈ ts, a.kind ≠ .error) : (tokenize text).2 = [] ∧
      ∃ toks, (tokenize text).1 = toks ++ [.endOf text] ∧
        toks.map Token.bare = ts.map Token.bare := by
  obtain ⟨toks, stop, rest, hlex, hspent, htoks, herr⟩ := tokenize_eq text
  obtain ⟨toks', stop', rest', hlex', hspent', hbare⟩ := h .start
  obtain rfl := hlex.unique hlex' hspent hspent'
  refine ⟨herr.mpr fun a ha hk => ?_, toks, htoks, hbare⟩
  have hmem : a.bare ∈ ts.map Token.bare := hbare ▸ List.mem_map_of_mem ha
  obtain ⟨b, hb, hab⟩ := List.mem_map.mp hmem
  exact hok b hb ((congrArg Prod.fst hab).trans hk)

/-- **The tokens of a text tile it.**  The last token is the end of the text, at its size, and no
other is.  Every token lies on its own characters, with the line and the column of the first of
them, and all but the last have one at least.  Each starts where the one before it has ended, or at
the start of the text, but for a gap.  The errors are at the tokens that are none. -/
theorem tokenize_tiles (text : String) :
    (∃ (init : List Token) (eof : Token), (tokenize text).1 = init ++ [eof] ∧ eof.kind = .eof ∧
      eof.span.offset = byteSize text.toList ∧ eof.span.len = 0 ∧
      ∀ t ∈ init, t.kind ≠ .eof ∧ t.lexeme ≠ "" ∧ 0 < t.span.len) ∧
    (∀ t ∈ (tokenize text).1, t.LiesIn text.toList) ∧
    ((tokenize text).1.Pairwise fun a b => a.span.Before b.span) ∧
    (∀ (earlier : List Token) (t : Token) (later : List Token),
      (tokenize text).1 = earlier ++ t :: later →
        GapFrom text.toList (lastStop 0 earlier) t.span.offset) ∧
    (tokenize text).2.map (·.span) =
      ((tokenize text).1.filter (·.kind = .error)).map (·.span) := by
  have h := tiles_tokenize text
  refine ⟨?_, fun t ht => h.liesIn ht, h.apart, fun earlier t later ht => h.gapFrom ht, ?_⟩
  · obtain ⟨init, htoks, hinit⟩ := h.exists_eof
    exact ⟨init, _, htoks, rfl, rfl, rfl, hinit⟩
  · have := Lexer.readAll_errors (text.toList.length + 1) (Lexer.ofText text)
    simpa [Lexer.ofText, tokenize] using this

end Recast
