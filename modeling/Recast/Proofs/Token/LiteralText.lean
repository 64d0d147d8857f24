/-
# Literals survive printing

A literal is printed as a text that the lexer reads as one token, and the value of that token is the
literal again.  Of a floating-point number that was read from a text this holds as well, with one
exception: a number too great for the format is read as infinity, and infinity is printed as a word.

* `TokenKind.Covers k text`: the text is one token of the kind `k`; `Prints.covers`: so is a text
  that prints one token;
* `Literal.Survives v`: the text of `v` is one token of its kind, which is read as `v`;
* `Literal.strings_integers_survive`: **every string survives, and every integer in range**;
* `Binary64.read?_unsigned`: a number that starts with a digit or a point is read as a finite number
  or as infinity, without a sign;
* `Literal.floating_covers`: **a floating-point literal of a text is printed as one token, of the same
  kind exactly if it is finite**.
-/
import Recast.Proofs.Token.Agrees
import Recast.Proofs.Token.Decimal
import Recast.Proofs.Token.Tiles

namespace Recast

/-! ## 1. Texts of one token -/

/-- The token of a kind that covers a whole text. -/
def Token.whole (k : TokenKind) (text : String) : Token := ⟨k, text, Span.ofText [] text.toList⟩

/-- The text is read without errors as one token of the kind `k`, which covers all of it. -/
def TokenKind.Covers (k : TokenKind) (text : String) : Prop :=
  tokenize text = ([.whole k text, .endOf text], [])

instance (k : TokenKind) (text : String) : Decidable (k.Covers text) :=
  inferInstanceAs (Decidable (_ = _))

/-- A token with the spelling of the whole text covers the whole text. -/
theorem Token.LiesIn.eq_whole {a : Token} {text : String} (h : a.LiesIn text.toList)
    (hl : a.lexeme = text) : a = .whole a.kind text := by
  obtain ⟨before, after, htext, hspan⟩ := h
  have hlen := congrArg List.length htext
  rw [hl] at hlen hspan
  simp only [List.length_append] at hlen
  obtain rfl : before = [] := List.eq_nil_of_length_eq_zero (by omega)
  obtain ⟨k, lexeme, span⟩ := a
  simp only [Token.whole, Token.mk.injEq, true_and]
  exact ⟨hl, hspan⟩

/-- **A text that is printed as one token is one token.** -/
theorem Prints.covers {closed : Bool} {text : String} {k : TokenKind}
    (h : Prints closed text [⟨k, text, default⟩]) (hk : k ≠ .error) : k.Covers text := by
  have hreads : Reads (Document.indentLines [] text.toList ++ []) ([⟨k, text, default⟩] ++ []) :=
    h.reads (List.forall_mem_nil _) (fun _ => .nil) Reads.nil.2
  rw [indentLines_nil, List.append_nil, List.append_nil] at hreads
  obtain ⟨herrors, toks, htoks, hbare⟩ := tokenize_of_lexes hreads.2 (by simpa using hk)
  obtain ⟨a, rfl, ha⟩ := List.map_eq_singleton_iff.mp hbare
  obtain ⟨rfl, hl⟩ := Prod.mk.inj ha
  have hlies := (tiles_tokenize text).liesIn (t := a) (by simp [htoks])
  rw [TokenKind.Covers, ← Token.LiesIn.eq_whole hlies hl]
  exact Prod.ext htoks herrors

/-! ## 2. Strings and integers -/

namespace Literal

/-- The text of the literal is one token of its kind, and the value of that token is the literal. -/
structure Survives (v : Literal) : Prop where
  covers : v.kind.Covers v.text
  value : ofToken (.whole v.kind v.text) = .ok v

theorem Writable.survives {v : Literal} (h : v.Writable) (hk : v.kind.isLiteral = true) :
    v.Survives := by
  obtain ⟨hv, hp⟩ := prints h
  refine ⟨hp.covers ?_, (Token.ofToken_eq_ok_iff hk).mpr ?_⟩
  · intro he
    rw [he] at hk
    cases hk
  · rw [← hv]
    exact Token.literal?_of_bare rfl rfl

/-- **Every string survives printing, and every integer from zero to `2 ^ 63 - 1`**, the greatest one
that fits into 64 bits with a sign. -/
theorem strings_integers_survive : (∀ s : String, (string s).Survives) ∧
    ∀ v : Int, 0 ≤ v → v ≤ 9223372036854775807 → (int v).Survives ∧ (long v).Survives := by
  refine ⟨fun s => Writable.survives (v := string s) trivial rfl, fun v h₀ h => ?_⟩
  have hv : ∃ n : Nat, v = n ∧ n ≤ maxInt := ⟨v.toNat, by omega, by rw [maxInt]; omega⟩
  exact ⟨Writable.survives (v := int v) hv rfl, Writable.survives (v := long v) hv rfl⟩

end Literal

/-! ## 3. Floating-point numbers of a text -/

namespace Scan

/-- A digit has no case. -/
theorem toLower_of_isDigit {c : Char} (h : c.isDigit = true) : c.toLower = c := by
  have hupper : ¬ (c.val ≥ 'A'.val ∧ c.val ≤ 'Z'.val) := by
    simp [Char.isDigit, UInt32.le_iff_toNat_le] at h ⊢
    omega
  exact dif_neg hupper

/-- A floating-point number starts as a number does. -/
theorem startsNumber_of_token {c : Char} {cs : List Char} {k : TokenKind}
    (h : (token c cs).result = .ok k) (hk : k = .floatLiteral ∨ k = .doubleLiteral) :
    startsNumber c cs = true := by
  have hkey : k.isKeyword = false := by rcases hk with rfl | rfl <;> rfl
  have hlit : k.isLiteral = true := by rcases hk with rfl | rfl <;> rfl
  have hspelled : ∀ {text : String}, text = k.spelling → text ≠ "" → False := by
    rintro text rfl hne
    exact hne (TokenKind.spelling_of_isLiteral hlit)
  rcases token_cases h with ⟨-, rfl⟩ | ⟨hstart, -⟩ | ⟨-, -, rfl, -⟩ | ⟨-, hw⟩ | ⟨d, hpair, -⟩ |
    ⟨hone, -⟩
  · rcases hk with hk | hk <;> cases hk
  · exact hstart
  · cases hlit
  · rw [isKeyword_of_keyword? hw] at hkey
    cases hkey
  · exact (hspelled (spelling_of_pair? hpair) (by simp)).elim
  · exact (hspelled (spelling_of_single? hone) (by simp)).elim

end Scan

/-- A floating-point number of a text starts with a digit or with a point. -/
theorem Lexed.number_head {pos stop : Position} {cs rest : List Char} {toks : List Token}
    (h : Lexed pos cs toks stop rest) {a : Token} (ha : a ∈ toks)
    (hk : a.kind = .floatLiteral ∨ a.kind = .doubleLiteral) :
    ∃ c s, a.lexeme.toList = c :: s ∧ (c.isDigit = true ∨ c = '.') := by
  obtain ⟨start, c, tail, rfl⟩ := h.exists_scanned ha
  obtain ⟨s, hs, -⟩ := Scan.token_lexeme_eq_cons c tail
  refine ⟨c, s, by rw [Token.scanned, String.toList_ofList, hs], ?_⟩
  have hr := Token.result_of_kind rfl (by rcases hk with hk | hk <;> rw [hk] <;> decide)
  have hstart := Scan.startsNumber_of_token hr hk
  rw [Scan.startsNumber_eq, Bool.or_eq_true, Bool.and_eq_true, decide_eq_true_eq] at hstart
  exact hstart.imp_right And.left

namespace Binary64

/-- The number is not infinite, and it is a number. -/
def isFinite : Binary64 → Bool
  | finite _ _ _ => true
  | nan | infinite _ => false

theorem ofRounded_cases (negative : Bool) (significand exponent : Nat) :
    ofRounded negative significand exponent = infinite negative ∨
      ∃ m e, ofRounded negative significand exponent = finite negative m e := by
  rw [ofRounded]
  generalize (if significand = Nat.pow 2 53 then (Nat.pow 2 52, exponent + 1)
    else (significand, exponent)) = rounded
  dsimp only
  split
  · exact .inl rfl
  · exact .inr ⟨_, _, rfl⟩

theorem nearest_cases (negative : Bool) (num den : Nat) :
    nearest negative num den = infinite negative ∨
      ∃ m e, nearest negative num den = finite negative m e :=
  ofRounded_cases ..

/-- Decimal digits are read as a finite number or as infinity, with their sign. -/
theorem ofDecimal_cases (negative : Bool) (digits : Nat) (power : Int) :
    ofDecimal negative digits power = infinite negative ∨
      ∃ m e, ofDecimal negative digits power = finite negative m e := by
  unfold ofDecimal
  dsimp only
  split
  · exact .inr ⟨_, _, rfl⟩
  · split
    · exact .inl rfl
    · split
      · exact .inr ⟨_, _, rfl⟩
      · split <;> exact nearest_cases ..

/-- **A number that starts with a digit or with a point is read as a finite number or as infinity,
without a sign.** -/
theorem read?_unsigned {c : Char} {cs : List Char} {x : Binary64} (h : read? (c :: cs) = some x)
    (hc : c.isDigit = true ∨ c = '.') : x = infinite false ∨ ∃ m e, x = finite false m e := by
  have hread : readUnsigned? false (c :: cs) = some x := by
    unfold read? at h
    split at h
    · rename_i heq
      cases heq
      rcases hc with hd | hd <;> cases hd
    · rename_i heq
      cases heq
      rcases hc with hd | hd <;> cases hd
    · exact h
  -- it is none of the words for what is no finite number
  have hword : ∀ {word : List Char}, word.head?.any (fun d => d.isDigit || d = '.') = false →
      (c :: cs).map Char.toLower ≠ word := by
    rintro word hw rfl
    have hlower : c.toLower = c := by
      rcases hc with hd | rfl
      · exact Scan.toLower_of_isDigit hd
      · decide
    rcases hc with hd | hd <;> simp [hlower, hd] at hw
  rw [readUnsigned?, if_neg (not_or.mpr ⟨hword (by decide), hword (by decide)⟩),
    if_neg (hword (by decide))] at hread
  have hdecimal : ∀ whole fraction r : List Char, (if whole.isEmpty ∧ fraction.isEmpty then none
      else (readExponent? r).map fun power =>
        ofDecimal false (digitsValue (whole ++ fraction)) (power - fraction.length)) = some x →
      x = infinite false ∨ ∃ m e, x = finite false m e := by
    intro whole fraction r hsome
    split at hsome
    · cases hsome
    · obtain ⟨power, -, rfl⟩ := Option.map_eq_some_iff.mp hsome
      exact ofDecimal_cases ..
  dsimp only at hread
  split at hread <;> exact hdecimal _ _ _ hread

end Binary64

namespace Literal

/-- Letters at the end do not touch what starts with another character. -/
theorem dropSuffix_cons {letters : List Char} {c : Char} (hc : letters.contains c = false)
    (cs : List Char) : dropSuffix letters (c :: cs) = c :: dropSuffix letters cs := by
  rw [dropSuffix, dropSuffix, List.reverse_cons, List.dropWhile_append,
    List.dropWhile_cons_of_neg (Bool.eq_false_iff.mp hc)]
  split
  · rename_i hnil
    rw [List.isEmpty_iff.mp hnil]
    rfl
  · rw [List.reverse_append, List.reverse_singleton, List.singleton_append]

/-- The number is finite, if the literal is a floating-point number. -/
def isFinite : Literal → Bool
  | float x | double x => x.isFinite
  | int _ | long _ | string _ | bool _ | null => true

/-- The value of a floating-point number is that of its characters, without the letter at the end and
with the first character in front. -/
theorem ofToken_floating {a : Token} {v : Literal} {c : Char} {s : List Char}
    (h : ofToken a = .ok v) (hk : a.kind = .floatLiteral ∨ a.kind = .doubleLiteral)
    (hs : a.lexeme.toList = c :: s) (hc : c.isDigit = true ∨ c = '.') :
    ∃ cs x, Binary64.read? (c :: cs) = some x ∧
      (a.kind = .floatLiteral ∧ v = float x ∨ a.kind = .doubleLiteral ∧ v = double x) := by
  have hne : ∀ {d : Char}, d.isDigit = false → d ≠ '.' → c ≠ d := by
    rintro d hd hdot rfl
    rcases hc with hc | hc
    · rw [hc] at hd
      cases hd
    · exact hdot hc
  have hdigits : ungrouped a.lexeme = c :: s.filter (· ≠ '_') := by
    rw [ungrouped, hs, List.filter_cons_of_pos]
    exact decide_eq_true (hne (by decide) (by decide))
  have hletters : ['f', 'F'].contains c = false := by
    have h₁ : c ≠ 'f' := hne (by decide) (by decide)
    have h₂ : c ≠ 'F' := hne (by decide) (by decide)
    simp [h₁, h₂]
  unfold ofToken at h
  rcases hk with hk | hk
  · simp only [hk, hdigits, dropSuffix_cons hletters] at h
    split at h <;> cases h
    exact ⟨_, _, ‹_›, .inl ⟨hk, rfl⟩⟩
  · simp only [hk, hdigits] at h
    split at h <;> cases h
    exact ⟨_, _, ‹_›, .inr ⟨hk, rfl⟩⟩

/-- **A floating-point literal of a text is printed as one token**, of the kind that it was read from
exactly if it is finite.  A number too great for the format is read as infinity, and infinity is
printed as an identifier. -/
theorem floating_covers (text : String) (a : Token) (v : Literal) (ha : a ∈ (tokenize text).1)
    (hk : a.kind = .floatLiteral ∨ a.kind = .doubleLiteral) (hv : ofToken a = .ok v) :
    (if v.isFinite then a.kind else .identifier).Covers v.text := by
  obtain ⟨toks, stop, rest, hlex, -, htoks, -⟩ := tokenize_eq text
  have hmem : a ∈ toks := by
    rw [htoks] at ha
    refine (List.mem_append.mp ha).resolve_right fun hend => ?_
    rw [List.mem_singleton.mp hend] at hk
    rcases hk with hk | hk <;> cases hk
  obtain ⟨c, s, hs, hc⟩ := hlex.number_head hmem hk
  obtain ⟨cs, x, hread, hvalue⟩ := ofToken_floating hv hk hs hc
  rcases Binary64.read?_unsigned hread hc with rfl | ⟨m, e, rfl⟩
  · have hwords : TokenKind.identifier.Covers "inff" ∧ TokenKind.identifier.Covers "inf" := by
      decide +kernel
    rcases hvalue with ⟨-, rfl⟩ | ⟨-, rfl⟩
    · exact hwords.1
    · exact hwords.2
  · have hdecimal := (Binary64.isDecimal_magnitudeText m e).prints
    rcases hvalue with ⟨hk, rfl⟩ | ⟨hk, rfl⟩
    · rw [hk]
      exact hdecimal.2.covers (by decide)
    · rw [hk]
      exact hdecimal.1.covers (by decide)

/-- A number of single precision that is printed as it was written. -/
theorem floating_covers_finite : (float (.finite false 5629499534213120 1023)).text = "2.5f" ∧
    TokenKind.floatLiteral.Covers (float (.finite false 5629499534213120 1023)).text :=
  ⟨by decide +kernel, floating_covers "y = 2.5f;" ⟨.floatLiteral, "2.5f", ⟨4, 4, 1, 5⟩⟩ _
    (by decide +kernel) (.inl rfl) (by decide +kernel)⟩

/-- **A number that is too great is accepted, and printed as an identifier.** -/
theorem floating_overflow : ⟨.doubleLiteral, "1e400", ⟨4, 5, 1, 5⟩⟩ ∈ (tokenize "x = 1e400;").1 ∧
    ofToken ⟨.doubleLiteral, "1e400", ⟨4, 5, 1, 5⟩⟩ = .ok (double (.infinite false)) ∧
    ¬ TokenKind.doubleLiteral.Covers (double (.infinite false)).text ∧
    TokenKind.identifier.Covers (double (.infinite false)).text := by
  decide +kernel

end Literal

end Recast
