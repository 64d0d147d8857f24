/-
# Tokens that agree

Two tokens agree if they are of one kind and say the same: a literal by its value, any other token
by its spelling.

* `Token.Faithful`: a token whose kind is always spelled alike is spelled so; `Lexed.faithful`:
  **the tokens of a text are faithful**, so that their kinds say most of what there is to say;
* `Token.Agrees`: the same kind, and the same spelling or the same value; `Agrees.of_faithful`,
  `Agrees.of_literal?`: how tokens of a text come to agree.
-/
import Mathlib.Data.List.Forall2
import Recast.Proofs.Grammar.Writable

namespace Recast

/-! ## 1. Kinds that are always spelled alike -/

/-- Literals are not spelled alike. -/
theorem TokenKind.spelling_of_isLiteral {k : TokenKind} (h : k.isLiteral = true) :
    k.spelling = "" := by
  cases k <;> first | rfl | cases h

namespace Scan

/-- What holds of the first choice if its condition does, and of all later ones, holds of the one
that is made. -/
theorem of_ite_of_cond {P : TokenKind → Prop} {c : Prop} [Decidable c] {a k : TokenKind}
    {later : Option TokenKind} (h : (if c then some a else later) = some k) (ha : c → P a)
    (hl : later = some k → P k) : P k := by
  split at h
  · rename_i hc
    cases h
    exact ha hc
  · exact hl h

theorem spelling_of_keyword? {word : String} {k : TokenKind}
    (h : TokenKind.keyword? word = some k) : word = k.spelling := by
  unfold TokenKind.keyword? at h
  iterate 14 refine of_ite_of_cond (P := fun k => word = k.spelling) h id fun h => ?_
  cases h

theorem spelling_of_single? {c : Char} {k : TokenKind} (h : single? c = some k) :
    String.ofList [c] = k.spelling := by
  unfold single? at h
  iterate 18
    refine of_ite_of_cond (P := fun k => String.ofList [c] = k.spelling) h
      (fun hc => by rw [hc]; rfl) fun h => ?_
  cases h

theorem spelling_of_pair? {a b : Char} {k : TokenKind} (h : pair? a b = some k) :
    String.ofList [a, b] = k.spelling := by
  unfold pair? at h
  split at h
  · rename_i hb
    rw [hb]
    iterate 8
      refine of_ite_of_cond (P := fun k => String.ofList [a, '='] = k.spelling) h
        (fun ha => by rw [ha]; rfl) fun h => ?_
    cases h
  · iterate 2
      refine of_ite_of_cond (P := fun k => String.ofList [a, b] = k.spelling) h (fun hab => ?_)
        fun h => ?_
      · obtain ⟨ha, hb⟩ := Bool.and_eq_true_iff.mp hab
        rw [of_decide_eq_true ha, of_decide_eq_true hb]
        rfl
    cases h

/-- A token of a kind that is always spelled alike is spelled so. -/
theorem spelling_of_token {c : Char} {cs : List Char} {k : TokenKind}
    (h : (token c cs).result = .ok k) (hk : k.spelling ≠ "") :
    String.ofList (token c cs).lexeme = k.spelling := by
  rcases token_cases h with ⟨-, rfl⟩ | ⟨-, hlit⟩ | ⟨-, -, rfl, -⟩ | ⟨-, hkey⟩ | ⟨d, hpair, hl⟩ |
    ⟨hone, hl⟩
  · exact absurd rfl hk
  · exact absurd (TokenKind.spelling_of_isLiteral hlit) hk
  · exact absurd rfl hk
  · exact spelling_of_keyword? hkey
  · rw [hl]
    exact spelling_of_pair? hpair
  · rw [hl]
    exact spelling_of_single? hone

end Scan

/-- A token is spelled as all tokens of its kind, if they are spelled alike. -/
def Token.Faithful (a : Token) : Prop := a.kind.spelling ≠ "" → a.lexeme = a.kind.spelling

theorem Token.Faithful.of_bare {a b : Token} (h : a.Faithful) (hb : a.bare = b.bare) :
    b.Faithful := by
  obtain ⟨hk, hl⟩ := Prod.mk.inj hb
  intro hs
  rw [← hk, ← hl]
  exact h (hk ▸ hs)

/-- **The tokens of a text are faithful.** -/
theorem Lexed.faithful {pos stop : Position} {cs rest : List Char} {toks : List Token}
    (h : Lexed pos cs toks stop rest) : ∀ a ∈ toks, a.Faithful := by
  intro a ha hk
  obtain ⟨start, c, tail, rfl⟩ := h.exists_scanned ha
  have hr : (Scan.token c tail).result = .ok (Token.scanned start (Scan.token c tail)).kind := by
    refine Token.result_of_kind rfl fun he => ?_
    rw [he] at hk
    exact hk rfl
  exact Scan.spelling_of_token hr hk

/-! ## 2. Tokens that agree -/

/-- Two tokens say the same: they are of one kind, and have one spelling or, if they are literals,
one value. -/
structure Token.Agrees (a b : Token) : Prop where
  kind : a.kind = b.kind
  lexeme : a.kind.isLiteral = false → a.lexeme = b.lexeme
  value : a.kind.isLiteral = true → ∃ v, Literal.ofToken a = .ok v ∧ Literal.ofToken b = .ok v

namespace Token

variable {a b : Token}

theorem Agrees.of_lexeme (hk : a.kind = b.kind) (hl : a.lexeme = b.lexeme)
    (hlit : a.kind.isLiteral = false) : a.Agrees b := by
  refine ⟨hk, fun _ => hl, fun h => ?_⟩
  rw [hlit] at h
  cases h

/-- Faithful tokens of a kind that is always spelled alike agree. -/
theorem Agrees.of_faithful (ha : a.Faithful) (hb : b.Faithful) (hk : a.kind = b.kind)
    (hs : a.kind.spelling ≠ "") : a.Agrees b := by
  refine .of_lexeme hk ?_ ?_
  · rw [ha hs, hb (hk ▸ hs), hk]
  · cases hlit : a.kind.isLiteral with
    | false => rfl
    | true => exact absurd (TokenKind.spelling_of_isLiteral hlit) hs

/-- A literal with a spelling of its own is what its token is read as. -/
theorem ofToken_eq_ok_iff {v : Literal} (h : a.kind.isLiteral = true) :
    Literal.ofToken a = .ok v ↔ a.literal? = some v := by
  have hvalue : a.literal? = (Literal.ofToken a).toOption := by
    unfold literal?
    cases hk : a.kind <;> first
      | rfl
      | (rw [hk] at h; cases h)
  rw [hvalue]
  cases Literal.ofToken a with
  | ok w => simp [Except.toOption]
  | error e => simp [Except.toOption]

/-- Faithful tokens of one literal agree. -/
theorem Agrees.of_literal? {v : Literal} (ha : a.Faithful) (hb : b.Faithful)
    (hav : a.literal? = some v) (hbv : b.literal? = some v) : a.Agrees b := by
  have hk : a.kind = b.kind := (kind_of_literal? hav).trans (kind_of_literal? hbv).symm
  cases hlit : a.kind.isLiteral with
  | true =>
    refine ⟨hk, fun h => ?_, fun _ => ⟨v, (ofToken_eq_ok_iff hlit).mpr hav, ?_⟩⟩
    · rw [hlit] at h
      cases h
    · exact (ofToken_eq_ok_iff (hk ▸ hlit)).mpr hbv
  | false =>
    -- only words are left, and they are spelled alike
    refine .of_faithful ha hb hk ?_
    have hv := kind_of_literal? hav
    rw [hv] at hlit ⊢
    cases v with
    | bool b => cases b <;> decide
    | null => decide
    | int _ | long _ | float _ | double _ | string _ => cases hlit

/-- Agreement does not depend on places. -/
theorem Agrees.of_bare {c : Token} (h : a.Agrees b) (hc : b.bare = c.bare) : a.Agrees c := by
  obtain ⟨hk, hl⟩ := Prod.mk.inj hc
  refine ⟨h.kind.trans hk, fun hlit => (h.lexeme hlit).trans hl, fun hlit => ?_⟩
  obtain ⟨v, hav, hbv⟩ := h.value hlit
  have hb : b.kind.isLiteral = true := h.kind ▸ hlit
  have hc : c.kind.isLiteral = true := hk ▸ hb
  refine ⟨v, hav, (ofToken_eq_ok_iff hc).mpr ?_⟩
  rw [literal?_of_bare hk.symm hl.symm]
  exact (ofToken_eq_ok_iff hb).mp hbv

theorem SameBare.faithful {ts us : List Token} (h : SameBare ts us) (hts : ∀ a ∈ ts, a.Faithful) :
    ∀ b ∈ us, b.Faithful := by
  intro b hb
  have hmem : b.bare ∈ ts.map bare := by
    rw [h]
    exact List.mem_map_of_mem hb
  obtain ⟨a, ha, hab⟩ := List.mem_map.mp hmem
  exact (hts a ha).of_bare hab

theorem SameBare.agrees {ts us vs : List Token} (h : List.Forall₂ Agrees ts us)
    (hb : SameBare us vs) : List.Forall₂ Agrees ts vs := by
  induction h generalizing vs with
  | nil =>
    rw [hb.nil_left]
    exact .nil
  | cons hab _ ih =>
    obtain ⟨c, ws, rfl, hk, hl, hws⟩ := hb.cons_left
    exact .cons (hab.of_bare (Prod.ext hk.symm hl.symm)) (ih hws)

end Token

end Recast
