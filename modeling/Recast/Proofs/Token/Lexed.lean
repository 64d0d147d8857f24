/-
# The tokens of a text

The lexer as a relation between characters and tokens, and where the tokens lie in the text.

* `Lexed pos cs toks rest`: from the position `pos` on, the characters `cs` start with the tokens
  `toks`, in front of `rest`.  Every token is read with all the characters after it in view, so the
  relation can be cut and joined between any two tokens;
* `Scan.token_cases`: what a token without an error is read from, kind by kind;
* `tokenize_spec`: `tokenize` reads exactly the tokens of the text, and reports an error for each
  token that is none;
* `Lexed.aligned`: **a token covers the bytes of its own characters**, and `Lexed.ordered`: tokens
  are not empty and follow one another.
-/
import Recast.Proofs.Token.Cover
import Recast.Token.Lexer

namespace Recast

open Text (byteSize)

/-! ## 1. Single tokens -/

namespace Scan

theorem number_lexeme_ne_nil {c : Char} {cs : List Char} (h : startsNumber c cs = true) :
    (number (c :: cs)).lexeme ≠ [] := by
  have hread : ((c :: cs).takeWhile isDigitChar ++
      (fraction ((c :: cs).dropWhile isDigitChar)).1) ≠ [] := by
    simp only [startsNumber, Bool.or_eq_true, Bool.and_eq_true, decide_eq_true_eq] at h
    rcases h with hd | ⟨rfl, hd⟩
    · have hc : isDigitChar c = true := by simp [isDigitChar, hd]
      simp [hc]
    · cases cs with
      | nil => cases hd
      | cons d cs =>
        have hdot : isDigitChar '.' = false := by decide
        simp [hdot, fraction, hd]
  unfold number
  simp only
  split
  · simp only [ne_eq, List.append_eq_nil_iff] at hread ⊢
    exact fun h => hread h.1
  · split <;> simp only [ne_eq, List.append_eq_nil_iff] at hread ⊢
    · exact fun h => hread h.1.1
    · exact fun h => hread h.1.1.1

/-- A token takes the character that it starts with. -/
theorem token_lexeme_ne_nil (c : Char) (cs : List Char) : (token c cs).lexeme ≠ [] := by
  unfold token
  split
  · simp
  · split
    · simp [string]
    · split
      · rename_i h
        exact number_lexeme_ne_nil h
      · split
        · rename_i h
          have hc : isWordChar c = true := by
            simp only [isWordStart, Bool.or_eq_true] at h
            simp only [isWordChar, Char.isAlphanum, Bool.or_eq_true]
            exact h.imp id .inl
          simp [word, hc]
        · unfold operator
          split
          · unfold single
            split <;> simp
          · split
            · simp
            · unfold single
              split <;> simp

/-- The kinds of tokens that are neither words nor errors nor the end of the text. -/
def Solid (k : TokenKind) : Prop := k ≠ .eof ∧ k ≠ .error ∧ k ≠ .identifier

instance : DecidablePred Solid := fun _ => inferInstanceAs (Decidable (_ ∧ _ ∧ _))

/-- What holds of the first choice and of all later ones holds of the one that is made. -/
theorem of_ite {P : TokenKind → Prop} {c : Prop} [Decidable c] {a k : TokenKind}
    {later : Option TokenKind} (h : (if c then some a else later) = some k) (ha : P a)
    (hl : later = some k → P k) : P k := by
  split at h
  · cases h
    exact ha
  · exact hl h

theorem solid_of_keyword? {word : String} {k : TokenKind} (h : TokenKind.keyword? word = some k) :
    Solid k := by
  unfold TokenKind.keyword? at h
  iterate 14 refine of_ite (P := Solid) h (by decide) fun h => ?_
  cases h

theorem suffix_kind (isFloat : Bool) (cs : List Char) : (suffix isFloat cs).1.isLiteral = true := by
  unfold suffix
  repeat' split
  all_goals rfl

theorem solid_of_pair? {a b : Char} {k : TokenKind} (h : pair? a b = some k) : Solid k := by
  unfold pair? at h
  split at h
  · iterate 8 refine of_ite (P := Solid) h (by decide) fun h => ?_
    cases h
  · iterate 2 refine of_ite (P := Solid) h (by decide) fun h => ?_
    cases h

theorem solid_of_single? {a : Char} {k : TokenKind} (h : single? a = some k) : Solid k := by
  unfold single? at h
  iterate 18 refine of_ite (P := Solid) h (by decide) fun h => ?_
  cases h

/-- **A token is a string, a number, an identifier, a keyword, an operator of two characters or one
of one.** -/
theorem token_cases {c : Char} {cs : List Char} {k : TokenKind} (h : (token c cs).result = .ok k) :
    (c = '"' ∧ k = .stringLiteral) ∨
    (startsNumber c cs = true ∧ k.isLiteral = true) ∨
    (isWordStart c = true ∧ token c cs = word (c :: cs) ∧ k = .identifier ∧
      TokenKind.keyword? (String.ofList (token c cs).lexeme) = none) ∨
    (isWordStart c = true ∧
      TokenKind.keyword? (String.ofList (token c cs).lexeme) = some k) ∨
    (∃ d, pair? c d = some k ∧ (token c cs).lexeme = [c, d]) ∨
    (single? c = some k ∧ (token c cs).lexeme = [c]) := by
  have hsingle : ∀ {cs : List Char}, (single c cs).result = .ok k →
      single? c = some k ∧ (single c cs).lexeme = [c] := by
    intro cs
    unfold single
    split
    · rintro ⟨⟩
      exact ⟨‹_›, rfl⟩
    · rintro ⟨⟩
  revert h
  unfold token
  split
  · rintro ⟨⟩
  · split
    · intro h
      simp only [string] at h
      split at h <;> cases h
      exact .inl ⟨‹_›, rfl⟩
    · split
      · intro h
        refine .inr (.inl ⟨‹_›, ?_⟩)
        simp only [number] at h
        split at h
        · cases h
        · split at h <;> cases h
          exact suffix_kind _ _
      · split
        · intro h
          have hk : (TokenKind.keyword? (String.ofList (word (c :: cs)).lexeme)).getD
              .identifier = k := Except.ok.inj h
          cases hw : TokenKind.keyword? (String.ofList (word (c :: cs)).lexeme) with
          | none =>
            rw [hw] at hk
            exact .inr (.inr (.inl ⟨‹_›, rfl, hk.symm, rfl⟩))
          | some k' =>
            rw [hw] at hk
            exact .inr (.inr (.inr (.inl ⟨‹_›, congrArg some hk⟩)))
        · unfold operator
          split
          · exact fun h => .inr (.inr (.inr (.inr (.inr (hsingle h)))))
          · split
            · rintro ⟨⟩
              exact .inr (.inr (.inr (.inr (.inl ⟨_, ‹_›, rfl⟩))))
            · exact fun h => .inr (.inr (.inr (.inr (.inr (hsingle h)))))

/-- The kinds that a scan of a word, and that any other scan, can give. -/
theorem token_kind {c : Char} {cs : List Char} {k : TokenKind} (h : (token c cs).result = .ok k) :
    k ≠ .eof ∧ k ≠ .error ∧ (k = .identifier → isWordStart c = true ∧
      token c cs = word (c :: cs) ∧
      TokenKind.keyword? (String.ofList (token c cs).lexeme) = none) := by
  have hsolid : Solid k → k ≠ .eof ∧ k ≠ .error ∧ (k = .identifier → isWordStart c = true ∧
      token c cs = word (c :: cs) ∧
      TokenKind.keyword? (String.ofList (token c cs).lexeme) = none) :=
    fun hk => ⟨hk.1, hk.2.1, fun he => absurd he hk.2.2⟩
  rcases token_cases h with ⟨-, rfl⟩ | ⟨-, hlit⟩ | ⟨hstart, hword, rfl, hnone⟩ | ⟨-, hkey⟩ |
    ⟨d, hpair, -⟩ | ⟨hone, -⟩
  · exact hsolid (by decide)
  · refine hsolid ⟨?_, ?_, ?_⟩ <;> rintro rfl <;> cases hlit
  · exact ⟨by simp, by simp, fun _ => ⟨hstart, hword, hnone⟩⟩
  · exact hsolid (solid_of_keyword? hkey)
  · exact hsolid (solid_of_pair? hpair)
  · exact hsolid (solid_of_single? hone)

end Scan

/-! ## 2. The relation -/

/-- The token that a scan gives at a position. -/
def Token.scanned (start : Position) (s : Scan.Scanned) : Token :=
  ⟨match s.result with
    | .ok kind => kind
    | .error _ => .error, String.ofList s.lexeme, .between start (start.after s.lexeme)⟩

/-- A token of a kind that is no error was scanned as one of that kind. -/
theorem Token.result_of_kind {start : Position} {s : Scan.Scanned} {k : TokenKind}
    (h : (scanned start s).kind = k) (hk : k ≠ .error) : s.result = .ok k := by
  cases hr : s.result with
  | ok k' =>
    simp only [scanned, hr] at h
    rw [h]
  | error e =>
    simp only [scanned, hr] at h
    exact absurd h.symm hk

/-- From a position on, the characters start with some tokens; after them come another position
and the rest. -/
inductive Lexed : Position → List Char → List Token → Position → List Char → Prop
  | nil {pos : Position} {cs : List Char} : Lexed pos cs [] pos cs
  | cons {pos stop : Position} {cs skipped tail rest : List Char} {c : Char} {toks : List Token} :
      Scan.trivia cs = (skipped, c :: tail) →
      Lexed ((pos.after skipped).after (Scan.token c tail).lexeme) (Scan.token c tail).rest toks
        stop rest →
      Lexed pos cs (Token.scanned (pos.after skipped) (Scan.token c tail) :: toks) stop rest

/-- Nothing but trivia is left. -/
def Spent (cs : List Char) : Prop := (Scan.trivia cs).2 = []

theorem Position.offset_after (pos : Position) (cs : List Char) :
    (pos.after cs).offset = pos.offset + byteSize cs := by
  induction cs generalizing pos with
  | nil => rfl
  | cons c cs ih =>
    have hstep : (pos.step c).offset = pos.offset + c.utf8Size := by
      unfold step
      split <;> rfl
    rw [after_cons, ih, hstep, Text.byteSize_cons, Nat.add_assoc]

theorem byteSize_pos {cs : List Char} (h : cs ≠ []) : 0 < byteSize cs := by
  cases cs with
  | nil => exact absurd rfl h
  | cons c cs =>
    have := c.utf8Size_pos
    rw [Text.byteSize_cons]
    omega

namespace Lexed

variable {pos stop mid : Position} {cs rest between : List Char} {toks toks' : List Token}

theorem append (h : Lexed pos cs toks mid between) (h' : Lexed mid between toks' stop rest) :
    Lexed pos cs (toks ++ toks') stop rest := by
  induction h with
  | nil => exact h'
  | cons ht _ ih => exact .cons ht (ih h')

theorem split : ∀ {toks : List Token} {pos : Position} {cs : List Char},
    Lexed pos cs (toks ++ toks') stop rest →
    ∃ mid between, Lexed pos cs toks mid between ∧ Lexed mid between toks' stop rest
  | [], pos, cs, h => ⟨pos, cs, .nil, h⟩
  | _ :: _, _, _, .cons ht h => by
    obtain ⟨mid, between, h₁, h₂⟩ := split h
    exact ⟨mid, between, .cons ht h₁, h₂⟩

/-- One token, and the characters before, in and after it. -/
theorem cons_eq {skipped tail : List Char} {c : Char} (ht : Scan.trivia cs = (skipped, c :: tail)) :
    cs = skipped ++ ((Scan.token c tail).lexeme ++ (Scan.token c tail).rest) := by
  have htriv := Scan.trivia_append cs
  rw [ht] at htriv
  rw [Scan.token_append, ← htriv]

/-- What was read and the rest make up the text. -/
theorem eq_append (h : Lexed pos cs toks stop rest) :
    ∃ read, cs = read ++ rest ∧ stop = pos.after read := by
  induction h with
  | nil => exact ⟨[], rfl, rfl⟩
  | @cons pos stop cs skipped tail rest c toks ht _ ih =>
    obtain ⟨read, hread, hstop⟩ := ih
    refine ⟨skipped ++ ((Scan.token c tail).lexeme ++ read), ?_, ?_⟩
    · rw [List.append_assoc, List.append_assoc, ← hread]
      exact cons_eq ht
    · rw [hstop]
      simp

/-- **The tokens of a text are determined by the text.** -/
theorem unique {stop' : Position} {rest' : List Char} (h : Lexed pos cs toks stop rest)
    (h' : Lexed pos cs toks' stop' rest') (hr : Spent rest) (hr' : Spent rest') : toks = toks' := by
  induction h generalizing toks' with
  | nil =>
    cases h' with
    | nil => rfl
    | cons ht _ =>
      rw [Spent, ht] at hr
      cases hr
  | cons ht _ ih =>
    cases h' with
    | nil =>
      rw [Spent, ht] at hr'
      cases hr'
    | cons ht' h' =>
      rw [ht] at ht'
      cases ht'
      rw [ih h' hr]

/-- **A token covers the bytes of its own characters.** -/
theorem aligned (h : Lexed pos cs toks stop rest) {t : Token} (ht : t ∈ toks) :
    ∃ before after, cs = before ++ (t.lexeme.toList ++ after) ∧
      t.span.offset = pos.offset + byteSize before ∧ t.span.len = byteSize t.lexeme.toList ∧
      0 < t.span.len := by
  induction h with
  | nil => cases ht
  | @cons pos stop cs skipped tail rest c toks htriv _ ih =>
    have hcs := cons_eq htriv
    rcases List.mem_cons.mp ht with rfl | ht
    · refine ⟨skipped, (Scan.token c tail).rest, ?_, ?_, ?_, ?_⟩
      · simpa [Token.scanned] using hcs
      · simp [Token.scanned, Span.between, Position.offset_after]
      · simp [Token.scanned, Span.between, Position.offset_after]
      · have := byteSize_pos (Scan.token_lexeme_ne_nil c tail)
        simpa [Token.scanned, Span.between, Position.offset_after] using this
    · obtain ⟨before, after, hrest, hoff, hlen⟩ := ih ht
      refine ⟨skipped ++ ((Scan.token c tail).lexeme ++ before), after, ?_, ?_, hlen⟩
      · rw [List.append_assoc, List.append_assoc, ← hrest]
        exact hcs
      · rw [hoff]
        simp only [Position.offset_after, Text.byteSize_append]
        omega

/-- Tokens are not empty and follow one another. -/
theorem ordered (h : Lexed pos cs toks stop rest) : Ordered toks := by
  induction h with
  | nil => exact ⟨by simp, .nil⟩
  | @cons pos stop cs skipped tail rest c toks htriv hl ih =>
    have hone : Lexed pos cs [Token.scanned (pos.after skipped) (Scan.token c tail)] _ _ :=
      .cons htriv .nil
    constructor
    · intro t ht
      rcases List.mem_cons.mp ht with rfl | ht
      · obtain ⟨_, _, _, _, _, hpos⟩ := hone.aligned (List.mem_singleton_self _)
        exact hpos
      · exact ih.nonempty t ht
    · refine List.pairwise_cons.mpr ⟨fun t ht => ?_, ih.apart⟩
      obtain ⟨before, after, -, hoff, -⟩ := hl.aligned ht
      rw [hoff]
      simp only [Token.scanned, Span.between, Span.stop, Position.offset_after]
      omega

/-- Every token is one that was scanned somewhere. -/
theorem exists_scanned (h : Lexed pos cs toks stop rest) {t : Token} (ht : t ∈ toks) :
    ∃ start c tail, t = Token.scanned start (Scan.token c tail) := by
  induction h with
  | nil => cases ht
  | cons _ _ ih =>
    rcases List.mem_cons.mp ht with rfl | ht
    · exact ⟨_, _, _, rfl⟩
    · exact ih ht

/-- A token is never of the kind of the end of the text. -/
theorem kind_ne_eof (h : Lexed pos cs toks stop rest) {t : Token} (ht : t ∈ toks) :
    t.kind ≠ .eof := by
  obtain ⟨start, c, tail, rfl⟩ := h.exists_scanned ht
  intro hk
  exact (Scan.token_kind (Token.result_of_kind hk (by decide))).1 rfl

end Lexed

/-! ## 3. Whole texts -/

/-- One token is read, or the end of the text. -/
theorem Lexer.nextToken_spec (l : Lexer) :
    (Spent l.rest ∧ l.nextToken.1.kind = .eof ∧ (l.nextToken.2.errors = [] ↔ l.errors = [])) ∨
    ∃ skipped c tail, Scan.trivia l.rest = (skipped, c :: tail) ∧
      l.nextToken.1 = Token.scanned (l.position.after skipped) (Scan.token c tail) ∧
      l.nextToken.2.rest = (Scan.token c tail).rest ∧
      l.nextToken.2.position = (l.position.after skipped).after (Scan.token c tail).lexeme ∧
      (l.nextToken.2.errors = [] ↔ l.errors = [] ∧ l.nextToken.1.kind ≠ .error) := by
  rcases ht : Scan.trivia l.rest with ⟨skipped, tail⟩
  cases tail with
  | nil =>
    refine .inl ⟨by rw [Spent, ht], ?_, ?_⟩ <;> simp [nextToken, ht]
  | cons c tail =>
    refine .inr ⟨skipped, c, tail, rfl, ?_⟩
    cases hr : (Scan.token c tail).result with
    | ok k =>
      have hk := Scan.token_kind hr
      simp [nextToken, ht, hr, Token.scanned, hk.2.1]
    | error e => simp [nextToken, ht, hr, Token.scanned]

theorem Lexer.readAll_spec : ∀ {limit : Nat} {l : Lexer}, l.rest.length < limit →
    ∃ toks stop rest last, Lexed l.position l.rest toks stop rest ∧ Spent rest ∧
      (readAll limit l).1 = toks ++ [last] ∧ last.kind = .eof ∧
      ((readAll limit l).2.errors = [] ↔ l.errors = [] ∧ ∀ t ∈ toks, t.kind ≠ .error)
  | limit + 1, l, hl => by
    rcases l.nextToken_spec with ⟨hs, hk, he⟩ | ⟨skipped, c, tail, ht, htok, hrest, hpos, he⟩
    · refine ⟨[], l.position, l.rest, l.nextToken.1, .nil, hs, ?_, hk, ?_⟩ <;>
        simp [readAll, hk, he]
    · have hone : Lexed l.position l.rest [l.nextToken.1] l.nextToken.2.position
          l.nextToken.2.rest := by
        rw [htok, hrest, hpos]
        exact .cons ht .nil
      have hk : l.nextToken.1.kind ≠ .eof := hone.kind_ne_eof (List.mem_singleton_self _)
      have hlen : l.nextToken.2.rest.length < limit := by
        have hcs := congrArg List.length (Lexed.cons_eq ht)
        have hne := List.length_pos_iff.mpr (Scan.token_lexeme_ne_nil c tail)
        simp only [List.length_append] at hcs
        rw [hrest]
        omega
      obtain ⟨toks, stop, rest, last, hlex, hs, happ, hlast, herr⟩ := readAll_spec hlen
      refine ⟨l.nextToken.1 :: toks, stop, rest, last, hone.append hlex, hs, ?_, hlast, ?_⟩
      · simp [readAll, hk, happ]
      · simp [readAll, hk, herr, he, and_assoc]

/-- **The lexer reads exactly the tokens of a text**, and there is an error exactly if one of them
is none. -/
theorem tokenize_spec (text : String) :
    ∃ toks stop rest last, Lexed .start text.toList toks stop rest ∧ Spent rest ∧
      (tokenize text).1 = toks ++ [last] ∧ last.kind = .eof ∧
      ((tokenize text).2 = [] ↔ ∀ t ∈ toks, t.kind ≠ .error) := by
  have h := Lexer.readAll_spec (l := Lexer.ofText text) (Nat.lt_succ_self _)
  simpa [Lexer.ofText, tokenize] using h

end Recast
