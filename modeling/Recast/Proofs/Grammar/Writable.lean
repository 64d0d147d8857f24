/-
# What can be written

A tree holds names, literals and types as data; not all of them can be written so that they are read
as themselves.  Those that come out of a text can, floating-point literals apart.

* `Piece.Writable`: a name is no keyword, an integer fits, a rank is not above the greatest one;
  `Spells.writable`: **what was read from a text can be written**;
* `Spells.of_bare`: spelling does not depend on places;
* `IsName.prints`, `WrittenType.prints`, `Literal.prints`: **names, types and literals are read as
  themselves**.
-/
import Recast.Proofs.Grammar.Fits
import Recast.Proofs.Token.Prints

namespace Recast

/-! ## 1. Names, literals and types -/

/-- A word that is not reserved. -/
def IsName (name : String) : Prop :=
  Scan.isWord name.toList = true ∧ TokenKind.keyword? name = none

instance (name : String) : Decidable (IsName name) := inferInstanceAs (Decidable (_ ∧ _))

/-- A literal other than a floating-point number, with its integer in range. -/
def Literal.Writable : Literal → Prop
  | int v | long v => ∃ n : Nat, v = n ∧ n ≤ maxInt
  | float _ | double _ => False
  | string _ | bool _ | null => True

mutual

/-- A type whose names are names and whose ranks can be read. -/
def WrittenType.Writable : WrittenType → Prop
  | ⟨name, args, rank, _⟩ => IsName name ∧ rank ≤ Parse.maxRank ∧ WrittenType.WritableAll args

/-- Types that are all writable. -/
def WrittenType.WritableAll : List WrittenType → Prop
  | [] => True
  | w :: ws => w.Writable ∧ WrittenType.WritableAll ws

end

/-- A piece that can be written as it is. -/
def Piece.Writable : Piece → Prop
  | name n => IsName n
  | literal v => v.Writable
  | type w => w.Writable
  | sign _ | accessors _ | node _ => True

/-- All pieces of the nodes below some nodes are of one sort. -/
def PiecesUnder (t : SyntaxTree) (P : Piece → Prop) (ids : List NodeId) : Prop :=
  ∀ i c, t.Under ids i → t.construct? i = some c → ∀ p ∈ c.pieces, P p

/-- Every node below some nodes has pieces that can be written. -/
def WritableUnder (t : SyntaxTree) (ids : List NodeId) : Prop :=
  ∀ i c, t.Under ids i → t.construct? i = some c → ∀ p ∈ c.pieces, p.Writable

/-! ## 2. What was read can be written -/

/-- An identifier is a name. -/
def Token.Genuine (a : Token) : Prop := a.kind = .identifier → IsName a.lexeme

/-- **The tokens of a text are genuine.** -/
theorem Lexed.genuine {pos stop : Position} {cs rest : List Char} {toks : List Token}
    (h : Lexed pos cs toks stop rest) : ∀ a ∈ toks, a.Genuine := by
  intro a ha hk
  obtain ⟨start, c, tail, rfl⟩ := h.exists_scanned ha
  have hr := Token.result_of_kind hk (by decide)
  obtain ⟨hstart, hword, hkey⟩ := (Scan.token_kind hr).2.2 rfl
  refine ⟨?_, hkey⟩
  simp only [Token.scanned, hword, Scan.word, String.toList_ofList]
  have hc := Scan.isWordChar_of_isWordStart hstart
  rw [List.takeWhile_cons_of_pos hc, Scan.isWord, hstart, Bool.true_and]
  exact List.all_takeWhile

theorem SpellsType.writable {ph : TypePhrase} {ts : List Token} (h : SpellsType ph ts) :
    (∀ a ∈ ts, a.Genuine) → match ph with
      | .one w => w.Writable
      | .many ws => WrittenType.WritableAll ws := by
  induction h with
  | plain hk _ =>
    intro hall
    exact ⟨hall _ (by simp) hk, Nat.min_le_right _ _, trivial⟩
  | applied hk _ _ _ _ ih =>
    intro hall
    refine ⟨hall _ (by simp) hk, Nat.min_le_right _ _, ih fun a ha => hall a (by simp [ha])⟩
  | single _ ih =>
    intro hall
    exact ⟨ih hall, trivial⟩
  | more _ _ _ ih₁ ih₂ =>
    intro hall
    exact ⟨ih₁ fun a ha => hall a (by simp [ha]), ih₂ fun a ha => hall a (by simp [ha])⟩

theorem Literal.writable_of_readInt? {cs : List Char} {v : Int} (h : readInt? cs = some v) :
    ∃ n : Nat, v = n ∧ n ≤ maxInt := by
  unfold readInt? at h
  split at h
  · cases h
  · dsimp only at h
    split at h
    · rename_i hle
      exact ⟨_, (Option.some.inj h).symm, hle⟩
    · cases h

/-- A literal that was read is writable unless it is a floating-point number. -/
theorem Token.writable_of_literal? {a : Token} {v : Literal} (h : a.literal? = some v)
    (hf : ∀ x, v ≠ .float x) (hd : ∀ x, v ≠ .double x) : v.Writable := by
  cases v with
  | float x => exact absurd rfl (hf x)
  | double x => exact absurd rfl (hd x)
  | string _ | bool _ | null => trivial
  | int v =>
    have hk := Token.kind_of_literal? h
    simp only [literal?, hk, Literal.kind, Literal.ofToken] at h
    cases hr : Literal.readInt? (Literal.ungrouped a.lexeme) with
    | none =>
      rw [hr] at h
      cases h
    | some w =>
      rw [hr] at h
      cases h
      exact Literal.writable_of_readInt? hr
  | long v =>
    have hk := Token.kind_of_literal? h
    simp only [literal?, hk, Literal.kind, Literal.ofToken] at h
    cases hr : Literal.readInt? (Literal.dropSuffix ['L', 'l'] (Literal.ungrouped a.lexeme)) with
    | none =>
      rw [hr] at h
      cases h
    | some w =>
      rw [hr] at h
      cases h
      exact Literal.writable_of_readInt? hr

/-- A literal that is not a floating-point number. -/
def Literal.isExact : Literal → Bool
  | float _ | double _ => false
  | _ => true

/-- **What was read from a text can be written**, floating-point literals apart. -/
theorem Spells.writable {t : SyntaxTree} {At : NodeId → List Token → Prop} {ps : List Piece}
    {ts : List Token} (h : Spells t At ps ts) (hall : ∀ a ∈ ts, a.Genuine)
    (hlit : ∀ v, .literal v ∈ ps → v.isExact = true) : ∀ p ∈ ps, p.Writable := by
  induction h with
  | nil => simp
  | @leaf p ps us ts hp _ ih =>
    intro q hq
    rcases List.mem_cons.mp hq with rfl | hq
    · cases q with
      | name n =>
        obtain ⟨a, rfl, hk, rfl⟩ := hp
        exact hall a (by simp) hk
      | literal v =>
        obtain ⟨a, rfl, ha⟩ := hp
        have hv := hlit v (List.mem_cons_self ..)
        refine a.writable_of_literal? ha ?_ ?_ <;> rintro x rfl <;> cases hv
      | type w =>
        exact SpellsType.writable (show SpellsType (.one w) us from hp) fun a ha => hall a (by simp [ha])
      | sign _ | accessors _ | node _ => trivial
    · exact ih (fun a ha => hall a (by simp [ha]))
        (fun v hv => hlit v (List.mem_cons_of_mem _ hv)) q hq
  | node _ _ _ _ _ ih =>
    intro q hq
    rcases List.mem_cons.mp hq with rfl | hq
    · trivial
    · exact ih (fun a ha => hall a (by simp [ha]))
        (fun v hv => hlit v (List.mem_cons_of_mem _ hv)) q hq

/-! ## 3. Places do not matter -/

/-- The same kinds and spellings. -/
def Token.SameBare (ts us : List Token) : Prop := ts.map bare = us.map bare

namespace Token.SameBare

variable {a : Token} {ts ts' us : List Token}

theorem kinds (h : SameBare ts us) : us.map Token.kind = ts.map Token.kind := by
  have := congrArg (List.map Prod.fst) h
  simpa [List.map_map, Function.comp_def, bare] using this.symm

theorem cons_left (h : SameBare (a :: ts) us) :
    ∃ b vs, us = b :: vs ∧ b.kind = a.kind ∧ b.lexeme = a.lexeme ∧ SameBare ts vs := by
  match us, h with
  | b :: vs, h =>
    simp only [SameBare, List.map_cons, List.cons.injEq, bare, Prod.mk.injEq] at h
    exact ⟨b, vs, rfl, h.1.1.symm, h.1.2.symm, h.2⟩

theorem append_left (h : SameBare (ts ++ ts') us) :
    ∃ vs ws, us = vs ++ ws ∧ SameBare ts vs ∧ SameBare ts' ws := by
  rw [SameBare, List.map_append] at h
  obtain ⟨vs, ws, rfl, hvs, hws⟩ := List.map_eq_append_iff.mp h.symm
  exact ⟨vs, ws, rfl, hvs.symm, hws.symm⟩

theorem nil_left (h : SameBare [] us) : us = [] := List.map_eq_nil_iff.mp h.symm

end Token.SameBare

open Token (SameBare)

theorem SpellsType.of_bare {ph : TypePhrase} {ts : List Token} (h : SpellsType ph ts) :
    ∀ {us : List Token}, SameBare ts us → SpellsType ph us := by
  induction h with
  | plain hk hb =>
    intro us hu
    obtain ⟨a, vs, rfl, hka, hla, hvs⟩ := hu.cons_left
    rw [← hla]
    exact .plain (hka.trans hk) (hb.of_kinds hvs.kinds)
  | applied hk hl _ hg hb ih =>
    intro us hu
    obtain ⟨a, vs, rfl, hka, hla, hvs⟩ := hu.cons_left
    obtain ⟨b, ws, rfl, hkb, -, hws⟩ := hvs.cons_left
    obtain ⟨xs, ys, rfl, hxs, hys⟩ := hws.append_left
    obtain ⟨c, zs, rfl, hkc, -, hzs⟩ := hys.cons_left
    rw [← hla]
    exact .applied (hka.trans hk) (hkb.trans hl) (ih hxs) (hkc.trans hg) (hb.of_kinds hzs.kinds)
  | single _ ih => exact fun hu => .single (ih hu)
  | more _ hc _ ih₁ ih₂ =>
    intro us hu
    obtain ⟨xs, ys, rfl, hxs, hys⟩ := hu.append_left
    obtain ⟨c, zs, rfl, hkc, -, hzs⟩ := hys.cons_left
    exact .more (ih₁ hxs) (hkc.trans hc) (ih₂ hzs)

theorem Accessors.of_bare {b : Bool} {ts : List Token} (h : Accessors b ts) :
    ∀ {us : List Token}, SameBare ts us → Accessors b us := by
  induction h with
  | none =>
    intro us hu
    rw [hu.nil_left]
    exact .none
  | one hk hn hs _ ih =>
    intro us hu
    obtain ⟨a, vs, rfl, hka, hla, hvs⟩ := hu.cons_left
    obtain ⟨c, ws, rfl, hkc, -, hws⟩ := hvs.cons_left
    rw [← hla] at hn ⊢
    exact .one (hka.trans hk) hn (hkc.trans hs) (ih hws)

/-- The value of a literal is in its kind and spelling. -/
theorem Token.literal?_of_bare {a b : Token} (hk : b.kind = a.kind) (hl : b.lexeme = a.lexeme) :
    b.literal? = a.literal? := by
  unfold literal? Literal.ofToken
  rw [hk, hl]
  cases a.kind <;> dsimp only <;> split <;> simp_all [Except.toOption]

theorem Piece.Spelled.of_bare {p : Piece} {ts us : List Token} (h : p.Spelled ts)
    (hu : SameBare ts us) : p.Spelled us := by
  cases p with
  | node _ => cases h
  | type w => exact SpellsType.of_bare h hu
  | accessors b => exact Accessors.of_bare h hu
  | sign k =>
    obtain ⟨a, rfl, ha⟩ := h
    obtain ⟨b, vs, rfl, hk, -, hvs⟩ := hu.cons_left
    rw [hvs.nil_left]
    exact ⟨b, rfl, hk.trans ha⟩
  | name n =>
    obtain ⟨a, rfl, ha, hn⟩ := h
    obtain ⟨b, vs, rfl, hk, hl, hvs⟩ := hu.cons_left
    rw [hvs.nil_left]
    exact ⟨b, rfl, hk.trans ha, hl.trans hn⟩
  | literal v =>
    obtain ⟨a, rfl, ha⟩ := h
    obtain ⟨b, vs, rfl, hk, hl, hvs⟩ := hu.cons_left
    rw [hvs.nil_left]
    exact ⟨b, rfl, (Token.literal?_of_bare hk hl).trans ha⟩

/-- **Spelling does not depend on places.** -/
theorem Spells.of_bare {t : SyntaxTree} {At : NodeId → List Token → Prop} {ps : List Piece}
    {ts : List Token} (h : Spells t At ps ts) :
    ∀ {us : List Token}, SameBare ts us → Spells t Anywhere ps us := by
  induction h with
  | nil =>
    intro us hu
    rw [hu.nil_left]
    exact .nil
  | leaf hp _ ih =>
    intro us hu
    obtain ⟨vs, ws, rfl, hvs, hws⟩ := hu.append_left
    exact .leaf (hp.of_bare hvs) (ih hws)
  | node hc _ _ _ ih₁ ih₂ =>
    intro us hu
    obtain ⟨vs, ws, rfl, hvs, hws⟩ := hu.append_left
    exact .node hc (ih₁ hvs) trivial (ih₂ hws)

/-! ## 4. Names and types are read as themselves -/

/-- The token of a name. -/
def Token.word (name : String) : Token := ⟨.identifier, name, default⟩

theorem IsName.head {name : String} (h : IsName name) :
    ∃ c, name.toList.head? = some c ∧ Scan.isWordStart c = true := by
  obtain ⟨c, tail, hc, hstart, -⟩ := Scan.isWord_iff.mp h.1
  exact ⟨c, by rw [hc]; rfl, hstart⟩

theorem IsName.isDigit_eq_false {name : String} (h : IsName name) :
    ∀ c, name.toList.head? = some c → c.isDigit = false := by
  obtain ⟨c, hc, hstart⟩ := h.head
  intro d hd
  rw [hc] at hd
  cases hd
  exact (Scan.isWordStart_spec hstart).2.2.2.2.2.2

theorem IsName.newline_not_mem {name : String} (h : IsName name) : '\n' ∉ name.toList := by
  obtain ⟨c, tail, hc, -, hall⟩ := Scan.isWord_iff.mp h.1
  intro hn
  have := hall '\n' hn
  revert this
  decide

/-- **A name is read as itself.** -/
theorem IsName.prints {name : String} (h : IsName name) : Prints false name [.word name] := by
  obtain ⟨c, hc, hstart⟩ := h.head
  have hopen := (Scan.isWordStart_spec hstart).2.2.2.2.2.1
  refine .leaf ⟨c, hc, hopen⟩ h.newline_not_mem fun hr hreads => ?_
  have := reads_word h.1 hr.1.1 hreads
  rwa [h.2] at this

/-- The tokens of so many pairs of brackets. -/
def Brackets.tokens : Nat → List Token
  | 0 => []
  | n + 1 => TokenKind.leftBracket.token :: TokenKind.rightBracket.token :: tokens n

theorem Brackets.tokens_spell : ∀ n : Nat, Brackets n (tokens n)
  | 0 => .none
  | n + 1 => .pair rfl rfl (tokens_spell n)

/-- The tokens that the accessors of a property are printed as. -/
def Accessors.tokens (hasSetter : Bool) : List Token :=
  .word "get" :: TokenKind.semicolon.token ::
    if hasSetter then [.word "set", TokenKind.semicolon.token] else []

theorem Accessors.tokens_spell (b : Bool) : Accessors b (tokens b) := by
  have hget : ∀ {ts : List Token}, Accessors b ts →
      Accessors b (.word "get" :: TokenKind.semicolon.token :: ts) := fun {ts} h =>
    @Accessors.one (.word "get") TokenKind.semicolon.token b ts rfl (.inr rfl) rfl h
  have hset : Accessors true [.word "set", TokenKind.semicolon.token] :=
    @Accessors.one (.word "set") TokenKind.semicolon.token false [] rfl (.inl rfl) rfl .none
  cases b with
  | false => exact hget .none
  | true => exact hget hset

theorem DataType.newline_not_mem_rankText : ∀ n : Nat, '\n' ∉ (rankText n).toList
  | 0 => by simp [rankText]
  | n + 1 => by
    have ih := newline_not_mem_rankText n
    simp [rankText, ih]

theorem DataType.reads_rankText {rest : List Char} {us : List Token} (hr : Clear rest)
    (hreads : Lexes rest us) : ∀ n : Nat, Clear ((rankText n).toList ++ rest) ∧
      Lexes ((rankText n).toList ++ rest) (Brackets.tokens n ++ us)
  | 0 => ⟨hr, hreads⟩
  | n + 1 => by
    obtain ⟨-, hmore⟩ := reads_rankText hr hreads n
    have hright := reads_sign (k := .rightBracket) (by decide) (endsSign_of_isDelimiter rfl _) hmore
    have hleft := reads_sign (k := .leftBracket) (by decide) (endsSign_of_isDelimiter rfl _)
      hright.2
    rw [rankText, String.toList_append, List.append_assoc]
    exact ⟨.cons (by decide) _, hleft.2⟩

/-- A text with so many pairs of brackets after it. -/
theorem Prints.rank {text : String} {ts : List Token} (h : Prints false text ts) (n : Nat) :
    Prints false (text ++ DataType.rankText n) (ts ++ Brackets.tokens n) := by
  refine ⟨h.opens_append _, by simp, fun hi hr hreads => ?_⟩
  obtain ⟨hclear, hmore⟩ := DataType.reads_rankText (hr rfl) hreads n
  rw [String.toList_append, indentLines_append, List.append_assoc, List.append_assoc,
    indentLines_of_not_mem (DataType.newline_not_mem_rankText n)]
  exact h.reads hi (fun _ => hclear) hmore

namespace WrittenType

mutual

/-- The tokens that a type is printed as. -/
def tokens : WrittenType → List Token
  | ⟨name, args, rank, _⟩ => .word name :: (argTokens args ++ Brackets.tokens rank)

/-- The tokens of an argument list, none if there are no arguments. -/
def argTokens : List WrittenType → List Token
  | [] => []
  | a :: as => TokenKind.less.token :: (a.tokens ++ moreTokens as ++ [TokenKind.greater.token])

/-- The tokens of the arguments after the first. -/
def moreTokens : List WrittenType → List Token
  | [] => []
  | a :: as => TokenKind.comma.token :: (a.tokens ++ moreTokens as)

end

mutual

/-- **A type is read as itself.** -/
theorem prints : ∀ {w : WrittenType}, w.Writable →
    SpellsType (.one w) w.tokens ∧ Prints false w.text w.tokens
  | ⟨name, args, rank, s⟩, h => by
    obtain ⟨hname, hrank, hargs⟩ := h
    have hmin : min rank Parse.maxRank = rank := Nat.min_eq_left hrank
    rw [text, tokens]
    cases args with
    | nil =>
      refine ⟨?_, ?_⟩
      · have := @SpellsType.plain (.word name) _ _ s rfl (Brackets.tokens_spell rank)
        rwa [hmin] at this
      · rw [argsText, String.append_empty]
        exact hname.prints.rank rank
    | cons a as =>
      obtain ⟨hspells, hprints⟩ := prints_args hargs rfl
      rw [argTokens]
      simp only [List.cons_append, List.append_assoc, List.nil_append]
      refine ⟨?_, ?_⟩
      · have := @SpellsType.applied (.word name) TokenKind.less.token TokenKind.greater.token _ _ _ _
          s rfl rfl hspells rfl (Brackets.tokens_spell rank)
        rw [hmin, List.append_assoc] at this
        exact this
      · have hclose := hprints.append (Prints.sign (k := .greater) rfl) (by decide)
        have hopen := hclose.after (k := .less) rfl rfl
        have hall := (hname.prints.append hopen (Breaks.append (by decide) _)).rank rank
        rw [argsText]
        simp only [String.append_assoc, List.append_assoc, List.cons_append,
          List.nil_append] at hall ⊢
        exact hall

/-- Types with commas between them are read as themselves. -/
theorem prints_args : ∀ {ws : List WrittenType}, WritableAll ws → ∀ {a as}, ws = a :: as →
    SpellsType (.many ws) (a.tokens ++ moreTokens as) ∧
      Prints false (a.text ++ moreText as) (a.tokens ++ moreTokens as)
  | [], _, _, _, he => by cases he
  | [a], h, _, _, he => by
    cases he
    obtain ⟨hspells, hprints⟩ := prints h.1
    rw [moreText, moreTokens, String.append_empty, List.append_nil]
    exact ⟨.single hspells, hprints⟩
  | a :: b :: bs, h, _, _, he => by
    cases he
    obtain ⟨hspells, hprints⟩ := prints h.1
    obtain ⟨hmore, hrest⟩ := prints_args h.2 rfl
    have hcomma := hrest.blank.after (k := .comma) rfl rfl
    have hall := hprints.append hcomma (Breaks.append (by decide) _)
    refine ⟨.more hspells rfl hmore, ?_⟩
    have hsep : ", " = TokenKind.comma.spelling ++ " " := rfl
    rw [moreText, moreTokens, hsep]
    simp only [String.append_assoc] at hall ⊢
    exact hall

end

end WrittenType

/-! ## 5. Literals are read as themselves -/

theorem Text.newline_not_mem_quote (s : List Char) : '\n' ∉ Text.quote s := by
  have hescape : ∀ c, '\n' ∉ Text.escapeChar c := by
    intro c
    rcases Text.escapeChar_cases c with ⟨he, hn, -⟩ | ⟨e, he, hc⟩
    · simp [he, Ne.symm hn]
    · rw [he]
      rintro hn
      simp only [List.mem_cons, List.not_mem_nil, or_false] at hn
      rcases hn with hn | rfl
      · revert hn
        decide
      · cases hc
  simp [Text.quote, hescape]

namespace Literal

/-! What the decimal digits of a number are made of. -/

theorem isDigit_toDigits (n : Nat) : ∀ c ∈ Nat.toDigits 10 n, c.isDigit = true := fun _ hc =>
  Nat.isDigit_of_mem_toDigits (by decide) (by decide) hc

theorem newline_not_mem_toDigits (n : Nat) : '\n' ∉ Nat.toDigits 10 n := by
  intro hn
  have := isDigit_toDigits n '\n' hn
  revert this
  decide

theorem head?_toDigits (n : Nat) : ∃ c, (Nat.toDigits 10 n).head? = some c ∧ c ≠ '=' := by
  obtain ⟨c, cs, hc⟩ := List.exists_cons_of_ne_nil (Nat.toDigits_ne_nil (b := 10) (n := n))
  refine ⟨c, by rw [hc]; rfl, ?_⟩
  have hd := isDigit_toDigits n c (by rw [hc]; exact List.mem_cons_self ..)
  exact (Scan.isDigit_spec hd).2.2.2.2.1

theorem readInt?_toDigits {n : Nat} (h : n ≤ maxInt) :
    readInt? (Nat.toDigits 10 n) = some (n : Int) := by
  have hvalue : Binary64.digitsValue (Nat.toDigits 10 n) = n := Nat.ofDigitChars_ten_toDigits
  have hall : (Nat.toDigits 10 n).all Char.isDigit = true :=
    List.all_eq_true.mpr (isDigit_toDigits n)
  rw [readInt?, if_neg (by simp [hall, Nat.toDigits_ne_nil])]
  simp only [hvalue]
  rw [if_pos h]

theorem ungrouped_of_digits {cs : List Char} (h : ∀ c ∈ cs, c ≠ '_') :
    ungrouped (String.ofList cs) = cs := by
  rw [ungrouped, String.toList_ofList]
  exact List.filter_eq_self.mpr fun c hc => by simpa using h c hc

theorem text_natCast (n : Nat) : (int n).text = String.ofList (Nat.toDigits 10 n) :=
  Nat.repr_eq_ofList_toDigits

/-- The token that a literal is written as. -/
def token (v : Literal) : Token := ⟨v.kind, v.text, default⟩

/-- A literal that is a word. -/
theorem prints_word {v : Literal} {k : TokenKind} (hv : v.token = k.token)
    (hk : k.token.literal? = some v) (ha : k.standsAlone = true) :
    v.token.literal? = some v ∧ Prints false v.text [v.token] := by
  have htext : v.text = k.spelling := congrArg Token.lexeme hv
  rw [hv, htext]
  exact ⟨hk, .sign ha⟩

theorem prints_string (s : String) : (string s).token.literal? = some (string s) ∧
    Prints false (string s).text [(string s).token] := by
  refine ⟨?_, .leaf ⟨'"', by simp [text, Text.quote], by decide⟩ ?_ fun _ hreads => ?_⟩
  · have hcontents : stringContents (string s).text = s.toList.flatMap Text.escapeChar := by
      simp [stringContents, text, Text.quote]
    simp only [token, kind, Token.literal?, ofToken, hcontents, Text.unescape_escape,
      String.ofList_toList]
    rfl
  · rw [text, String.toList_ofList]
    exact Text.newline_not_mem_quote s.toList
  · rw [token, text, String.toList_ofList]
    exact reads_quoted hreads

theorem prints_int {n : Nat} (h : n ≤ maxInt) : (int n).token.literal? = some (int n) ∧
    Prints false (int n).text [(int n).token] := by
  have hdigits := isDigit_toDigits n
  rw [token, text_natCast]
  refine ⟨?_, .leaf ?_ ?_ fun hr hreads => ?_⟩
  · have hcs : ungrouped (String.ofList (Nat.toDigits 10 n)) = Nat.toDigits 10 n :=
      ungrouped_of_digits fun c hc => (Scan.isDigit_spec (hdigits c hc)).2.2.2.2.2.1
    simp only [kind, Token.literal?, ofToken, hcs, readInt?_toDigits h]
    rfl
  · rw [String.toList_ofList]
    exact head?_toDigits n
  · rw [String.toList_ofList]
    exact newline_not_mem_toDigits n
  · refine (reads_digits ?_ ?_ hr.1 hreads).1
    · rw [String.toList_ofList]
      exact Nat.toDigits_ne_nil
    · rwa [String.toList_ofList]

/-- The suffix of a long number is not read as part of its digits. -/
theorem dropSuffix_long (n : Nat) :
    dropSuffix ['L', 'l'] (Nat.toDigits 10 n ++ ['L']) = Nat.toDigits 10 n := by
  have hkeep : (Nat.toDigits 10 n).reverse.dropWhile ['L', 'l'].contains =
      (Nat.toDigits 10 n).reverse := by
    refine (takeWhile_append_of_all (List.forall_mem_nil _) fun c hc => ?_).2
    have hd := isDigit_toDigits n c (List.mem_reverse.mp (List.mem_of_mem_head? hc))
    have h₁ : c ≠ 'L' := by
      rintro rfl
      cases hd
    have h₂ : c ≠ 'l' := by
      rintro rfl
      cases hd
    simp [h₁, h₂]
  rw [dropSuffix, List.reverse_append, List.reverse_singleton, List.singleton_append,
    List.dropWhile_cons_of_pos (by decide), hkeep, List.reverse_reverse]

theorem prints_long {n : Nat} (h : n ≤ maxInt) : (long n).token.literal? = some (long n) ∧
    Prints false (long n).text [(long n).token] := by
  have hdigits := isDigit_toDigits n
  have htext : (long n).text = String.ofList (Nat.toDigits 10 n) ++ "L" :=
    congrArg (· ++ "L") (text_natCast n)
  rw [token, htext]
  refine ⟨?_, .leaf ?_ ?_ fun hr hreads => ?_⟩
  · have hcs : ungrouped (String.ofList (Nat.toDigits 10 n) ++ "L") =
        Nat.toDigits 10 n ++ ['L'] := by
      have : String.ofList (Nat.toDigits 10 n) ++ "L" =
        String.ofList (Nat.toDigits 10 n ++ ['L']) := by simp
      rw [this]
      refine ungrouped_of_digits fun c hc => ?_
      rcases List.mem_append.mp hc with hc | hc
      · exact (Scan.isDigit_spec (hdigits c hc)).2.2.2.2.2.1
      · rw [List.mem_singleton.mp hc]
        decide
    simp only [kind, Token.literal?, ofToken, hcs, dropSuffix_long n, readInt?_toDigits h]
    rfl
  · obtain ⟨c, hc, hne⟩ := head?_toDigits n
    refine ⟨c, ?_, hne⟩
    rw [String.toList_append, String.toList_ofList, List.head?_append, hc]
    rfl
  · simp [newline_not_mem_toDigits n]
  · refine (reads_digits ?_ ?_ hr.1 hreads).2
    · rw [String.toList_ofList]
      exact Nat.toDigits_ne_nil
    · rwa [String.toList_ofList]

/-- **A literal is read as itself.** -/
theorem prints {v : Literal} (h : v.Writable) :
    v.token.literal? = some v ∧ Prints false v.text [v.token] := by
  cases v with
  | float _ => cases h
  | double _ => cases h
  | null => exact prints_word (k := .nullWord) rfl rfl rfl
  | bool b =>
    cases b with
    | true => exact prints_word (k := .trueWord) rfl rfl rfl
    | false => exact prints_word (k := .falseWord) rfl rfl rfl
  | string s => exact prints_string s
  | int v =>
    obtain ⟨n, rfl, hn⟩ := h
    exact prints_int hn
  | long v =>
    obtain ⟨n, rfl, hn⟩ := h
    exact prints_long hn

end Literal

end Recast
