/-
# Texts without lexical errors

What is printed for an expression stands on one line and is read as tokens, none of them an error,
whatever its literals are.  This asks for less than to be read back as the same tree: a floating-point
literal may become another literal or a name, and the type of `null` is a word as good as any.

* `Clean closed text`: the text is one line and is read as tokens without an error, in front of
  clear characters, and in front of any if it is closed;
* `Literal.clean`, `WrittenType.Legible.clean`: so are literals and types;
* `Printer.clean_exprText`: **so is every expression, if its names and types are.**
-/
import Recast.Proofs.Document.RoundTrip
import Recast.Proofs.Token.Decimal
import Recast.Proofs.Tree.PrintedNode

namespace Recast

/-! ## 1. Clean texts -/

/-- The text is one line and is read as tokens without an error. -/
structure Clean (closed : Bool) (text : String) : Prop where
  tokens : ∃ ts, (∀ a ∈ ts, a.kind ≠ .error) ∧ Prints closed text ts
  line : '\n' ∉ text.toList

theorem TokenKind.ne_error_of_spelling {k : TokenKind} (h : k.spelling ≠ "") : k ≠ .error := by
  rintro rfl
  exact h rfl

namespace Clean

variable {a b : Bool} {text more n : String} {k : TokenKind}

/-- A text of one token. -/
theorem token {x : Token} (h : Prints b text [x]) (hx : x.kind ≠ .error) (hl : '\n' ∉ text.toList) :
    Clean b text :=
  ⟨⟨[x], List.forall_mem_singleton.mpr hx, h⟩, hl⟩

theorem sign (hk : k.standsAlone = true) : Clean false k.spelling :=
  token (.sign hk) (TokenKind.ne_error_of_spelling (k.standsAlone_spec hk).2.1)
    k.newline_not_mem_spelling

theorem semicolon : Clean true ";" := token (.delimiter (k := .semicolon) rfl) (by decide) (by decide)

theorem append (h : Clean a text) (h' : Clean b more) (hb : Breaks more) : Clean b (text ++ more) := by
  obtain ⟨ts, hts, hp⟩ := h.tokens
  obtain ⟨us, hus, hp'⟩ := h'.tokens
  exact ⟨⟨ts ++ us, List.forall_mem_append.mpr ⟨hts, hus⟩, hp.append hp' hb⟩,
    by simp [h.line, h'.line]⟩

theorem after (h : Clean b text) (hk : k.standsAlone = true) (hw : k.isKeyword = false) :
    Clean b (k.spelling ++ text) := by
  obtain ⟨ts, hts, hp⟩ := h.tokens
  have hne := TokenKind.ne_error_of_spelling (k.standsAlone_spec hk).2.1
  exact ⟨⟨k.token :: ts, List.forall_mem_cons.mpr ⟨hne, hts⟩, hp.after hk hw⟩,
    by simp [h.line, k.newline_not_mem_spelling]⟩

theorem follows (h : Clean b text) (hk : k.standsAlone = true) (hb : Breaks text) :
    Clean b (k.spelling ++ text) :=
  (sign hk).append h hb

theorem blank (h : Clean b text) : Clean b (" " ++ text) := by
  obtain ⟨ts, hts, hp⟩ := h.tokens
  exact ⟨⟨ts, hts, hp.blank⟩, by simp [h.line]⟩

theorem keyword (h : Clean b text) (hk : k.standsAlone = true) :
    Clean b (k.spelling ++ (" " ++ text)) :=
  h.blank.follows hk (Breaks.append (by decide) _)

theorem operator (h : Clean b text) (hk : k.spelling ≠ "") :
    Clean b (" " ++ (k.spelling ++ (" " ++ text))) := by
  obtain ⟨ts, hts, hp⟩ := h.tokens
  exact ⟨⟨k.token :: ts, List.forall_mem_cons.mpr ⟨TokenKind.ne_error_of_spelling hk, hts⟩,
    hp.operator hk⟩, by simp [h.line, k.newline_not_mem_spelling]⟩

theorem name (h : IsName n) : Clean false n := token h.prints (by simp [Token.word]) h.newline_not_mem

theorem member (h : Clean b text) (hn : IsName n) : Clean false (text ++ ("." ++ n)) := by
  obtain ⟨ts, hts, hp⟩ := h.tokens
  refine ⟨⟨ts ++ [TokenKind.dot.token, .word n], List.forall_mem_append.mpr ⟨hts, ?_⟩,
    hp.member hn.prints hn.isDigit_eq_false⟩, by simp [h.line, hn.newline_not_mem]⟩
  simp [TokenKind.token, Token.word]

theorem parens (h : Clean b text) : Clean false ("(" ++ (text ++ ")")) :=
  (h.append (sign (k := .rightParen) rfl) (by decide)).after (k := .leftParen) rfl rfl

/-- Texts with commas between them, in parentheses. -/
theorem list {α : Type} {f : α → String} {xs : List α} (h : ∀ x ∈ xs, Clean false (f x)) :
    Clean false ("(" ++ (Text.join ", " (xs.map f) ++ ")")) := by
  have join : ∀ {xs : List α} {x : α}, (∀ y ∈ x :: xs, Clean false (f y)) →
      Clean false (Text.join ", " ((x :: xs).map f)) := by
    intro xs
    induction xs with
    | nil =>
      intro x h
      simpa [Text.join, Text.joinTail] using h x (List.mem_cons_self ..)
    | cons y ys ih =>
      intro x h
      have hmore := ih fun z hz => h z (List.mem_cons_of_mem _ hz)
      have hcomma := hmore.blank.after (k := .comma) rfl rfl
      have hall := (h x (List.mem_cons_self ..)).append hcomma (Breaks.append (by decide) _)
      have hsep : ", " = TokenKind.comma.spelling ++ " " := rfl
      simp only [List.map_cons, Text.join, Text.joinTail, hsep, String.append_assoc] at hall ⊢
      exact hall
  cases xs with
  | nil => exact (sign (k := .rightParen) rfl).after (k := .leftParen) rfl rfl
  | cons x xs => exact (join h).parens

end Clean

/-! ## 2. Literals -/

namespace Binary64

/-- A sign in front of a number is a token of its own. -/
theorem clean_text (x : Binary64) : (Clean false x.text ∧ Solid x.text) ∧
    Clean false (x.text ++ "f") ∧ Solid (x.text ++ "f") := by
  have hword : ∀ {word : String}, IsName word → Clean false word ∧ Solid word := fun hw =>
    ⟨.name hw, hw.solid⟩
  have hminus : ∀ {text : String}, Clean false text → Clean false ("-" ++ text) ∧
      Solid ("-" ++ text) := fun h =>
    ⟨h.after (k := .minus) rfl rfl, Solid.append (by decide) _⟩
  cases x with
  | nan => exact ⟨hword (by decide), hword (by decide)⟩
  | infinite negative =>
    cases negative with
    | false => exact ⟨hword (by decide), hword (by decide)⟩
    | true =>
      have htext : (infinite true).text = "-" ++ "inf" := rfl
      rw [htext, String.append_assoc]
      exact ⟨hminus (hword (by decide)).1, hminus (hword (by decide)).1⟩
  | finite negative m e =>
    have hdecimal := isDecimal_magnitudeText m e
    obtain ⟨hdouble, hfloat⟩ := hdecimal.prints
    have hline : '\n' ∉ (String.ofList (magnitudeText m e)).toList := by
      simpa using hdecimal.newline_not_mem
    have hsolid : Solid (String.ofList (magnitudeText m e)) := by
      obtain ⟨d, ds, hd, hdigit⟩ := hdecimal.head
      obtain ⟨hb, hm, hs, -⟩ := Scan.isDigit_spec hdigit
      simp [Solid, hd, Scan.isSolid, hb, hm, hs]
    have h₁ : Clean false (String.ofList (magnitudeText m e)) := .token hdouble (by simp) hline
    have h₂ : Clean false (String.ofList (magnitudeText m e) ++ "f") :=
      .token hfloat (by simp) (by simpa using hdecimal.newline_not_mem)
    cases negative with
    | false =>
      have htext : (finite false m e).text = String.ofList (magnitudeText m e) := rfl
      rw [htext]
      exact ⟨⟨h₁, hsolid⟩, h₂, hsolid.append _⟩
    | true =>
      have htext : (finite true m e).text = "-" ++ String.ofList (magnitudeText m e) := by
        simp [text]
      rw [htext, String.append_assoc]
      exact ⟨hminus h₁, hminus h₂⟩

end Binary64

theorem Literal.Writable.newline_not_mem {v : Literal} (h : v.Writable) : '\n' ∉ v.text.toList := by
  have hdigits : ∀ n : Nat, '\n' ∉ (Literal.int n).text.toList := by
    intro n hn
    rw [Literal.text_natCast, String.toList_ofList] at hn
    exact absurd (Nat.isDigit_of_mem_toDigits (by decide) (by decide) hn) (by decide)
  cases v with
  | float _ | double _ => cases h
  | bool b => cases b <;> decide
  | null => decide
  | string s =>
    rw [Literal.text, String.toList_ofList]
    exact Text.newline_not_mem_quote s.toList
  | int v =>
    obtain ⟨n, rfl, -⟩ := h
    exact hdigits n
  | long v =>
    obtain ⟨n, rfl, -⟩ := h
    simpa [Literal.text] using hdigits n

/-- **Every literal is printed cleanly**, whatever it is read as. -/
theorem Literal.clean {v : Literal} (h : v.isExact = true → v.Writable) :
    Clean false v.text ∧ Solid v.text := by
  cases hexact : v.isExact with
  | true =>
    obtain ⟨hx, hp⟩ := Literal.prints (h hexact)
    refine ⟨.token hp (fun hk => ?_) (h hexact).newline_not_mem, (h hexact).solid⟩
    simp [Token.literal?, hk] at hx
  | false =>
    cases v with
    | float x => exact x.clean_text.2
    | double x => exact x.clean_text.1
    | int _ | long _ | string _ | bool _ | null => cases hexact

/-! ## 3. Types -/

mutual

theorem WrittenType.Writable.newline_not_mem : ∀ {w : WrittenType}, w.Writable → '\n' ∉ w.text.toList
  | ⟨name, args, rank, _⟩, h => by
    have hlist : '\n' ∉ (WrittenType.argsText args).toList := by
      cases args with
      | nil => simp [WrittenType.argsText]
      | cons a as =>
        have ha := WrittenType.Writable.newline_not_mem h.2.2.1
        simp [WrittenType.argsText, ha, WrittenType.WritableAll.newline_not_mem h.2.2.2]
    simp [WrittenType.text, h.1.newline_not_mem, hlist, DataType.newline_not_mem_rankText]

theorem WrittenType.WritableAll.newline_not_mem : ∀ {ws : List WrittenType},
    WrittenType.WritableAll ws → '\n' ∉ (WrittenType.moreText ws).toList
  | [], _ => by simp [WrittenType.moreText]
  | w :: ws, h => by
    have hw := WrittenType.Writable.newline_not_mem h.1
    simp [WrittenType.moreText, hw, WrittenType.WritableAll.newline_not_mem h.2]

end

/-- A type that can be written, or that of `null`. -/
def WrittenType.Legible (w : WrittenType) : Prop :=
  w.Writable ∨ w.text = TokenKind.nullWord.spelling

theorem WrittenType.Legible.clean {w : WrittenType} (h : w.Legible) :
    Clean false w.text ∧ Solid w.text := by
  rcases h with h | h
  · obtain ⟨hs, hp⟩ := WrittenType.prints h
    exact ⟨⟨⟨_, hs.kind_ne_error, hp⟩, h.newline_not_mem⟩, h.solid⟩
  · rw [h]
    exact ⟨.sign rfl, by decide⟩

/-! ## 4. Expressions -/

/-- A piece that is printed cleanly. -/
def Piece.Legible : Piece → Prop
  | name n => IsName n
  | literal v => v.isExact = true → v.Writable
  | type w => w.Legible
  | sign _ | accessors _ | node _ => True

theorem Piece.Writable.legible {p : Piece} (h : p.Writable) : p.Legible := by
  cases p with
  | name n => exact h
  | literal v => exact fun _ => h
  | type w => exact .inl h
  | sign _ | accessors _ | node _ => trivial

namespace Printer

variable {t : SyntaxTree} {ids : List NodeId}

/-- **An expression is printed cleanly**, if its names and types are. -/
theorem clean_exprText (hp : PiecesUnder t Piece.Legible ids)
    (hd : ∀ i c, t.Under ids i → t.construct? i = some c → ∀ k ∈ c.children, k < i) :
    ∀ {limit id l r : Nat}, id < limit → t.Under ids id → Fits t (.expr l r) id →
      Clean false (exprText t limit id) ∧ Solid (exprText t limit id)
  | 0, _, _, _, hlt, _, _ => absurd hlt (Nat.not_lt_zero _)
  | limit + 1, id, l, r, hlt, hu, @Fits.node _ _ _ c ρ hc ha hk => by
    have sub : ∀ {k : Nat} {l r : Nat}, k ∈ c.children → ρ k = .expr l r →
        Clean false (exprText t limit k) ∧ Solid (exprText t limit k) := by
      intro k l r hmem hrole
      have hklt : k < id := hd id c hu hc k hmem
      exact clean_exprText hp hd (by omega) (hu.slot hc hmem) (hrole ▸ hk k hmem)
    have operands : ∀ {k : TokenKind} {a b : NodeId} {op : String},
        k.spelling = op ∧ k.spelling ≠ "" →
        Clean false (exprText t limit a) ∧ Solid (exprText t limit a) →
        Clean false (exprText t limit b) →
          Clean false (exprText t limit a ++ " " ++ op ++ " " ++ exprText t limit b) ∧
          Solid (exprText t limit a ++ " " ++ op ++ " " ++ exprText t limit b) := by
      intro k a b op hop pa pb
      have := pa.1.append (pb.operator hop.2) (Breaks.append (by decide) _)
      simp only [hop.1, String.append_assoc] at this ⊢
      exact ⟨this, pa.2.append _⟩
    have piece : ∀ {p : Piece}, p ∈ c.pieces → p.Legible := hp id c hu hc _
    rw [exprText]
    cases ha with
    | @literal v =>
      simp only [hc]
      exact Literal.clean (piece (p := .literal v) (by simp [Construct.pieces]))
    | @ident n =>
      have hn : IsName n.name := piece (p := .name n.name) (by simp [Construct.pieces])
      simp only [hc]
      exact ⟨.name hn, hn.solid⟩
    | paren he =>
      simp only [hc, String.append_assoc]
      exact ⟨(sub (by simp [Construct.children]) he).1.parens, Solid.append (by decide) _⟩
    | @cast w e _ _ he =>
      have htype := WrittenType.Legible.clean (piece (p := .type w) (by simp [Construct.pieces]))
      have hexpr := (sub (by simp [Construct.children]) he).1.parens
      have hgreater := hexpr.follows (k := .greater) rfl (Breaks.append (by decide) _)
      have hless := (htype.1.append hgreater (Breaks.append (by decide) _)).after (k := .less) rfl rfl
      have hcast := hless.follows (k := .castWord) rfl (Breaks.append (by decide) _)
      have hopen : "cast<" = TokenKind.castWord.spelling ++ TokenKind.less.spelling := rfl
      have hclose : ">(" = TokenKind.greater.spelling ++ "(" := rfl
      simp only [hc, hopen, hclose, String.append_assoc]
      exact ⟨hcast, Solid.append (by decide) _⟩
    | @newObject w args hargs =>
      have htype := WrittenType.Legible.clean (piece (p := .type w) (by simp [Construct.pieces]))
      have hlist : Clean false ("(" ++ (Text.join ", " (args.map (exprText t limit)) ++ ")")) :=
        .list fun k hmem => by
          obtain ⟨l, r, he⟩ := hargs k hmem
          exact (sub (by simpa [Construct.children] using hmem) he).1
      have hnew := (htype.1.append hlist (Breaks.append (by decide) _)).keyword (k := .newWord) rfl
      have hopen : "new " = TokenKind.newWord.spelling ++ " " := rfl
      simp only [hc, hopen, String.append_assoc]
      exact ⟨hnew, Solid.append (by decide) _⟩
    | @member object n _ _ ho _ =>
      have hn : IsName n.name := piece (p := .name n.name) (by simp [Construct.pieces])
      obtain ⟨hobject, hsolid⟩ := sub (by simp [Construct.children]) ho
      simp only [hc, String.append_assoc]
      exact ⟨hobject.member hn, hsolid.append _⟩
    | @call f args _ _ hf _ hargs =>
      have hlist : Clean false ("(" ++ (Text.join ", " (args.map (exprText t limit)) ++ ")")) :=
        .list fun k hmem => by
          obtain ⟨l, r, he⟩ := hargs k hmem
          exact (sub (by simp [Construct.children, hmem]) he).1
      obtain ⟨hcallee, hsolid⟩ := sub (by simp [Construct.children]) hf
      simp only [hc, String.append_assoc]
      exact ⟨hcallee.append hlist (Breaks.append (by decide) _), hsolid.append _⟩
    | @unary op _ _ _ he _ =>
      have hoperand := (sub (by simp [Construct.children]) he).1
      simp only [hc]
      cases op with
      | neg => exact ⟨hoperand.after (k := .minus) rfl rfl, Solid.append (by decide) _⟩
      | not => exact ⟨hoperand.after (k := .bang) rfl rfl, Solid.append (by decide) _⟩
    | @binary op _ _ _ _ _ _ ha _ hb _ =>
      simp only [hc]
      exact operands op.spelling_kind (sub (by simp [Construct.children]) ha)
        (sub (by simp [Construct.children]) hb).1
    | @assign op _ _ _ _ _ _ ha _ _ hb _ =>
      simp only [hc]
      exact operands op.spelling_kind (sub (by simp [Construct.children]) ha)
        (sub (by simp [Construct.children]) hb).1

end Printer

end Recast
