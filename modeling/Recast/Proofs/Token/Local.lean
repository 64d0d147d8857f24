/-
# Tokens before a change

A token depends on the characters after it only by the first of them, or by the first two if a point
comes first, and a blank ends every token.  So a change in a text leaves the tokens before it as they
are, if the last of them is one that nothing carries on.

* `Agree r r'`: two texts that a token before them cannot tell apart;
* `Halts r`: a text that starts with a blank, or is empty; `Yields r r'`: a token before `r` ends
  before `r'` as well, for one reason or the other;
* `Scan.token_local`: what one token depends on; `Scan.token_kept`: where it stays as it is;
* `Lexed.before`: the tokens before a change stay;
* `Lexed.replace`: **some tokens of a text can be replaced by others**, and the rest is read as
  before.
-/
import Recast.Proofs.Token.Reads

namespace Recast

/-! ## 1. What a token sees -/

/-- The two texts start alike, as far as a token before them can see. -/
def Agree (r r' : List Char) : Prop :=
  r.head? = r'.head? ∧ (r.head? = some '.' → r.tail.head? = r'.tail.head?)

namespace Agree

variable {r r' : List Char}

theorem append (h : Agree r r') (p : List Char) : Agree (p ++ r) (p ++ r') := by
  match p with
  | [] => exact h
  | [a] => exact ⟨rfl, fun _ => h.1⟩
  | a :: b :: p => exact ⟨rfl, fun _ => rfl⟩

end Agree

/-- A blank stands in front, or nothing does. -/
def Halts (cs : List Char) : Prop := ∀ c, cs.head? = some c → Text.isAsciiBlank c = true

namespace Halts

theorem nil : Halts [] := by simp [Halts]

theorem blank (cs : List Char) : Halts (' ' :: cs) := by
  intro c hc
  cases hc
  decide

/-- A blank is part of no token. -/
theorem spec {cs : List Char} (h : Halts cs) {c : Char} (hc : cs.head? = some c) :
    Scan.isWordChar c = false ∧ c ≠ '.' ∧ c ≠ '=' ∧ c ≠ '/' ∧ c ≠ '*' ∧ c ≠ '&' ∧ c ≠ '|' := by
  have hb := h c hc
  simp only [Text.isAsciiBlank, Bool.or_eq_true, decide_eq_true_eq] at hb
  rcases hb with (((rfl | rfl) | rfl) | rfl) | rfl <;> decide

theorem endsWord {cs : List Char} (h : Halts cs) : EndsWord cs := fun _ hc => (h.spec hc).1

/-- So no test for some of the characters of words holds of it. -/
theorem eq_false {cs : List Char} (h : Halts cs) {p : Char → Bool}
    (hp : ∀ c, p c = true → Scan.isWordChar c = true) {c : Char} (hc : cs.head? = some c) :
    p c = false := by
  refine Bool.eq_false_iff.mpr fun hpc => ?_
  have hword := hp c hpc
  rw [h.endsWord c hc] at hword
  cases hword

end Halts

/-- A token that ends before the first text ends before the second as well: the two start alike, or
the second starts with a blank. -/
def Yields (r r' : List Char) : Prop := Agree r r' ∨ Halts r'

namespace Yields

variable {r r' : List Char}

/-- The first characters are the same, or a blank is the first one. -/
theorem head (h : Yields r r') : r.head? = r'.head? ∨ Halts r' := h.imp And.left id

/-- Characters in front are the same, unless there are none. -/
theorem head_append (h : r.head? = r'.head? ∨ Halts r') : ∀ p : List Char,
    (p ++ r).head? = (p ++ r').head? ∨ Halts (p ++ r')
  | [] => h
  | _ :: _ => .inl rfl

/-- So it is behind characters in front, unless they are a single point. -/
theorem append (h : Yields r r') : ∀ {p : List Char}, p.head? ≠ some '.' → Yields (p ++ r) (p ++ r')
  | [], _ => h
  | _ :: _, hp => .inl ⟨rfl, fun hc => absurd hc hp⟩

end Yields

namespace Scan

variable {p : Char → Bool} {u w w' : List Char}

/-- Taking from the front sees one character further. -/
theorem takeWhile_local (h : (u ++ w).takeWhile p = u) (hp : ∀ c, p c = true → isWordChar c = true)
    (hw : w.head? = w'.head? ∨ Halts w') :
    (u ++ w').takeWhile p = u ∧ (u ++ w').dropWhile p = w' := by
  obtain ⟨hu, hr⟩ := takeWhile_append_eq_iff.mp h
  refine takeWhile_append_of_all hu fun c hc => ?_
  rcases hw with hw | hw
  · exact hr c (hw.trans hc)
  · exact hw.eq_false hp hc

theorem fraction_eq_nil_iff {cs : List Char} : fraction cs = ([], cs) ↔
    ¬ (cs.head? = some '.' ∧ cs.tail.head?.any Char.isDigit = true) := by
  match cs with
  | [] => simp [fraction]
  | [c] => simp [fraction]
  | c :: d :: cs =>
    by_cases hc : c = '.'
    · subst hc
      cases hd : d.isDigit <;> simp [fraction, hd]
    · have hf : fraction (c :: d :: cs) = ([], c :: d :: cs) := by
        unfold fraction
        split
        · rename_i heq
          cases heq
          exact absurd rfl hc
        · rfl
      simp [hf, hc]

theorem fraction_local (h : fraction (u ++ w) = (u, w)) (ha : Yields w w') :
    fraction (u ++ w') = (u, w') := by
  cases u with
  | nil =>
    refine fraction_eq_nil_iff.mpr fun hd => ?_
    rw [List.nil_append] at hd
    rcases ha with ha | ha
    · have hw : w.head? = some '.' := ha.1.trans hd.1
      exact fraction_eq_nil_iff.mp h ⟨hw, ha.2 hw ▸ hd.2⟩
    · exact (ha.spec hd.1).2.1 rfl
  | cons a u =>
    rw [List.cons_append] at h ⊢
    unfold fraction at h
    split at h
    · rename_i d cs heq
      split at h
      · rename_i hd
        simp only [Prod.mk.injEq, List.cons.injEq] at h heq
        obtain ⟨⟨rfl, htake⟩, -⟩ := h
        rw [← heq.2] at htake
        obtain ⟨ht, hdrop⟩ := takeWhile_local htake (fun _ => isWordChar_of_isDigitChar) ha.head
        cases u with
        | nil =>
          rw [heq.2, List.takeWhile_cons_of_pos (by simp [isDigitChar, hd])] at htake
          cases htake
        | cons e u =>
          cases heq.2
          rw [List.cons_append, fraction, if_pos hd]
          exact Prod.ext (congrArg ('.' :: ·) ht) hdrop
      · cases h
    · cases h

/-- A letter that opens an exponent. -/
def isExponentMark (c : Char) : Bool := c = 'e' || c = 'E'

theorem isWordChar_of_isExponentMark {c : Char} (h : isExponentMark c = true) :
    isWordChar c = true := by
  simp only [isExponentMark, Bool.or_eq_true, decide_eq_true_eq] at h
  rcases h with rfl | rfl <;> decide

theorem sign_local {mark : List Char} {d : Char} {cs : List Char} (h : sign cs = (mark, d :: w))
    (hd : d.isDigit = true) (w' : List Char) : sign (mark ++ d :: w') = (mark, d :: w') := by
  unfold sign at h
  split at h
  · cases h
    rfl
  · cases h
    rfl
  · cases h
    unfold sign
    rw [List.nil_append]
    split
    · rename_i heq
      cases heq
      cases hd
    · rename_i heq
      cases heq
      cases hd
    · rfl

/-- A well-formed exponent: none, or a letter, a sign and digits. -/
theorem exponent_spec {cs : List Char} (h : exponent cs = (true, u, w)) :
    (u = [] ∧ w = cs ∧ ∀ c, cs.head? = some c → isExponentMark c = false) ∨
    ∃ e mark d ds tail, u = e :: (mark ++ d :: ds) ∧ isExponentMark e = true ∧
      sign tail = (mark, d :: (ds ++ w)) ∧ d.isDigit = true ∧
      (d :: (ds ++ w)).takeWhile isDigitChar = d :: ds := by
  cases cs with
  | nil =>
    cases h
    exact .inl ⟨rfl, rfl, by simp⟩
  | cons e cs =>
    rw [exponent] at h
    split at h
    · rename_i he
      rcases hs : sign cs with ⟨mark, _ | ⟨d, rest⟩⟩
      · rw [hs] at h
        cases h
      · rw [hs] at h
        dsimp only at h
        split at h
        · rename_i hd
          have hdc : isDigitChar d = true := by simp [isDigitChar, hd]
          simp only [List.takeWhile_cons_of_pos hdc, List.dropWhile_cons_of_pos hdc,
            Prod.mk.injEq, true_and] at h
          obtain ⟨rfl, rfl⟩ := h
          refine .inr ⟨e, mark, d, _, cs, rfl, he, ?_, hd, ?_⟩
          · rw [List.takeWhile_append_dropWhile]
            exact hs
          · rw [List.takeWhile_append_dropWhile, List.takeWhile_cons_of_pos hdc]
        · cases h
    · rename_i he
      cases h
      refine .inl ⟨rfl, rfl, fun c hc => ?_⟩
      cases hc
      exact Bool.eq_false_iff.mpr he

theorem exponent_head {cs : List Char} (h : exponent cs = (true, u, w)) : u.head? ≠ some '.' := by
  rcases exponent_spec h with ⟨rfl, -⟩ | ⟨e, mark, d, ds, tail, rfl, he, -⟩
  · simp
  · rintro hdot
    cases hdot
    cases he

theorem exponent_local (h : exponent (u ++ w) = (true, u, w)) (hw : w.head? = w'.head? ∨ Halts w') :
    exponent (u ++ w') = (true, u, w') := by
  rcases exponent_spec h with ⟨rfl, -, hhead⟩ | ⟨e, mark, d, ds, tail, rfl, he, hs, hd, ht⟩
  · rw [List.nil_append] at hhead ⊢
    cases w' with
    | nil => rfl
    | cons c cs =>
      have hc : isExponentMark c = false := by
        rcases hw with hw | hw
        · exact hhead c hw
        · exact hw.eq_false (fun _ => isWordChar_of_isExponentMark) rfl
      rw [exponent, if_neg (by rw [← isExponentMark, hc]; simp)]
  · obtain ⟨htake, hdrop⟩ := takeWhile_local (u := d :: ds) ht (fun _ => isWordChar_of_isDigitChar) hw
    have hsign := sign_local hs hd (ds ++ w')
    have hmark : (decide (e = 'e') || decide (e = 'E')) = true := he
    rw [List.cons_append, exponent, List.append_assoc, List.cons_append, hsign, if_pos hmark]
    simp only [hd, if_true]
    rw [← List.cons_append, htake, hdrop]
    rfl

/-- Without a suffix the kind is that of the digits. -/
theorem suffix_eq_nil_iff {b : Bool} {k : TokenKind} {cs : List Char} :
    suffix b cs = (k, [], cs) ↔ k = (if b then .doubleLiteral else .intLiteral) ∧
      ∀ c, cs.head? = some c → c ≠ 'f' ∧ c ≠ 'F' ∧ (b = false → c ≠ 'L' ∧ c ≠ 'l') := by
  cases cs with
  | nil => simp [suffix, eq_comm]
  | cons c cs => cases b <;> simp [suffix] <;> grind

theorem suffix_head {b : Bool} {k : TokenKind} {cs : List Char} (h : suffix b cs = (k, u, w)) :
    u.head? ≠ some '.' := by
  rintro hdot
  unfold suffix at h
  split at h
  · cases h
    cases hdot
  · split at h
    · cases h
      cases hdot
      simp_all
    · split at h
      · cases h
        cases hdot
        simp_all
      · cases h
        cases hdot

theorem suffix_local {b : Bool} {k : TokenKind} (h : suffix b (u ++ w) = (k, u, w))
    (hw : w.head? = w'.head? ∨ Halts w') : suffix b (u ++ w') = (k, u, w') := by
  cases u with
  | nil =>
    rw [List.nil_append] at h ⊢
    obtain ⟨hk, hnone⟩ := suffix_eq_nil_iff.mp h
    refine suffix_eq_nil_iff.mpr ⟨hk, fun c hc => ?_⟩
    rcases hw with hw | hw
    · exact hnone c (hw.trans hc)
    · have hne : ∀ {x : Char}, isWordChar x = true → c ≠ x := by
        rintro x hx rfl
        rw [hw.endsWord _ hc] at hx
        cases hx
      exact ⟨hne (by decide), hne (by decide), fun _ => ⟨hne (by decide), hne (by decide)⟩⟩
  | cons c u =>
    rw [List.cons_append] at h ⊢
    unfold suffix at h ⊢
    dsimp only at h ⊢
    split at h
    · rename_i h₁
      rw [if_pos h₁]
      cases h
      rfl
    · rename_i h₁
      rw [if_neg h₁]
      split at h
      · rename_i h₂
        rw [if_pos h₂]
        cases h
        rfl
      · cases h

/-- A number sees one character further, and two if the first is a point. -/
theorem number_local {s r r' : List Char} {k : TokenKind} (h : number (s ++ r) = ⟨.ok k, s, r⟩)
    (ha : Yields r r') : number (s ++ r') = ⟨.ok k, s, r'⟩ := by
  have hwhole := List.takeWhile_append_dropWhile (p := isDigitChar) (l := s ++ r)
  unfold number at h
  dsimp only at h
  generalize htake : (s ++ r).takeWhile isDigitChar = whole at h hwhole
  generalize (s ++ r).dropWhile isDigitChar = rest₀ at h hwhole
  rcases hf : fraction rest₀ with ⟨point, rest₁⟩
  have hf' := fraction_append rest₀
  rcases he : exponent rest₁ with ⟨ok, power, rest₂⟩
  have he' := exponent_append rest₁
  rcases hs : suffix (!point.isEmpty || !power.isEmpty) rest₂ with ⟨kind, letter, rest₃⟩
  have hs' := suffix_append (!point.isEmpty || !power.isEmpty) rest₂
  simp only [hf, he, hs] at h hf' he' hs'
  cases ok with
  | false => cases h
  | true =>
    simp only [Bool.not_true, Bool.false_eq_true, if_false] at h
    split at h
    · rename_i hextra
      simp only [Scanned.mk.injEq, Except.ok.injEq] at h
      obtain ⟨rfl, rfl, rfl⟩ := h
      subst hs' he' hf'
      simp only [List.append_assoc] at htake ⊢
      -- each part sees the parts after it, which are the same
      have hletter := ha.append (suffix_head hs)
      have hpower := hletter.append (exponent_head he)
      obtain ⟨h₁, h₂⟩ := takeWhile_local htake (fun _ => isWordChar_of_isDigitChar)
        (Yields.head_append hpower.head point)
      have h₃ := fraction_local hf hpower
      have h₄ := exponent_local he hletter.head
      have h₅ := suffix_local hs ha.head
      have h₆ := (takeWhile_local (p := isWordChar) (u := []) (w := rest₃)
        (List.isEmpty_iff.mp hextra) (fun _ => id) ha.head).1
      rw [List.nil_append] at h₆
      simp [number, h₁, h₂, h₃, h₄, h₅, h₆]
    · cases h

/-- A string ends with its own quote. -/
theorem stringBody_local {cs s r : List Char} (h : stringBody cs = (true, s, r)) (r' : List Char) :
    stringBody (s ++ r') = (true, s, r') := by
  fun_induction stringBody cs generalizing s with
  | case1 | case2 | case4 => cases h
  | case3 cs =>
    cases h
    rfl
  | case5 c cs closed body rest hb ih =>
    simp only [Prod.mk.injEq] at h
    obtain ⟨rfl, rfl, rfl⟩ := h
    rw [List.cons_append, List.cons_append, stringBody, ih hb]
  | case6 c cs hn hq h₁ h₂ closed body rest hb ih =>
    simp only [Prod.mk.injEq] at h
    obtain ⟨rfl, rfl, rfl⟩ := h
    have hslash : c ≠ '\\' := by
      rintro rfl
      cases cs with
      | nil => exact h₁ rfl rfl
      | cons d cs => exact h₂ d cs rfl rfl
    rw [List.cons_append, stringBody, ih hb]
    all_goals simp_all

theorem startsNumber_eq (c : Char) (cs : List Char) :
    startsNumber c cs = (c.isDigit || (c = '.' && cs.head?.any Char.isDigit)) := by
  cases cs <;> rfl

/-- A blank is the second character of no operator. -/
theorem pair?_of_halts {cs : List Char} (h : Halts cs) {d : Char} (hd : cs.head? = some d)
    (c : Char) : pair? c d = none := by
  obtain ⟨-, -, hequal, -, -, hamp, hpipe⟩ := h.spec hd
  simp [pair?, hequal, hamp, hpipe]

theorem operator_local {c : Char} {s r r' : List Char} {k : TokenKind}
    (h : operator c (s ++ r) = ⟨.ok k, c :: s, r⟩) (hr : r.head? = r'.head? ∨ Halts r') :
    operator c (s ++ r') = ⟨.ok k, c :: s, r'⟩ := by
  have hsingle : ∀ {cs : List Char}, single c cs = ⟨.ok k, c :: s, r⟩ →
      s = [] ∧ single? c = some k := by
    intro cs h
    unfold single at h
    split at h
    · cases h
      exact ⟨rfl, ‹_›⟩
    · cases h
  cases s with
  | nil =>
    rw [List.nil_append] at h ⊢
    have hk : single? c = some k ∧ ∀ d, r.head? = some d → pair? c d = none := by
      unfold operator at h
      split at h
      · exact ⟨(hsingle h).2, by simp⟩
      · split at h
        · cases h
        · rename_i d cs hp
          refine ⟨(hsingle h).2, fun e he => ?_⟩
          cases he
          exact hp
    have hs : ∀ cs, single c cs = ⟨.ok k, [c], cs⟩ := by
      intro cs
      rw [single, hk.1]
    cases r' with
    | nil => exact hs []
    | cons d cs =>
      have hpair : pair? c d = none := by
        rcases hr with hr | hr
        · exact hk.2 d hr
        · exact pair?_of_halts hr rfl c
      simp only [operator, hpair, hs]
  | cons d s =>
    rw [List.cons_append] at h ⊢
    unfold operator at h ⊢
    dsimp only at h ⊢
    split at h
    · rename_i hp
      cases h
      rfl
    · cases (hsingle h).1

/-- A point before a digit is not the whole of a number. -/
theorem number_ne_dot {r : List Char} {k : TokenKind} (hd : r.head?.any Char.isDigit = true) :
    number ('.' :: r) ≠ ⟨.ok k, ['.'], r⟩ := by
  intro h
  obtain ⟨d, hr, hdigit⟩ := (Option.any_eq_true ..).mp hd
  obtain ⟨r, rfl⟩ := List.head?_eq_some_iff.mp hr
  have hdc : isDigitChar d = true := by simp [isDigitChar, hdigit]
  have hdot : isDigitChar '.' = false := by decide
  have hlex : ∃ more, (number ('.' :: d :: r)).lexeme = '.' :: d :: more := by
    rw [number, List.takeWhile_cons_of_neg (by simp [hdot]), List.dropWhile_cons_of_neg
      (by simp [hdot]), fraction, if_pos hdigit, List.takeWhile_cons_of_pos hdc]
    dsimp only
    split
    · exact ⟨_, rfl⟩
    · split <;> exact ⟨_, rfl⟩
  obtain ⟨more, hmore⟩ := hlex
  rw [h] at hmore
  cases hmore

/-- Whether a token is a number shows in the same places. -/
theorem startsNumber_local {c : Char} {s r r' : List Char} {k : TokenKind}
    (h : token c (s ++ r) = ⟨.ok k, c :: s, r⟩) (hr : r.head? = r'.head? ∨ Halts r') :
    startsNumber c (s ++ r') = startsNumber c (s ++ r) := by
  rw [startsNumber_eq, startsNumber_eq]
  cases s with
  | cons d s => rfl
  | nil =>
    rw [List.nil_append, List.nil_append] at *
    rcases hr with hr | hr
    · rw [hr]
    · by_cases hc : c = '.'
      · subst hc
        have hafter : r'.head?.any Char.isDigit = false := by
          refine Bool.eq_false_iff.mpr fun hany => ?_
          obtain ⟨d, hd, hdigit⟩ := (Option.any_eq_true ..).mp hany
          have hno := hr.eq_false (p := isDigitChar) (fun _ => isWordChar_of_isDigitChar) hd
          simp [isDigitChar, hdigit] at hno
        have hbefore : r.head?.any Char.isDigit = false := by
          refine Bool.eq_false_iff.mpr fun hdigit => number_ne_dot (k := k) hdigit ?_
          rwa [token, if_neg (by simp), if_neg (by decide),
            if_pos (by rw [startsNumber_eq, hdigit]; decide)] at h
        rw [hafter, hbefore]
      · simp [hc]

/-- A token starts with its first character. -/
theorem token_lexeme_eq_cons (c : Char) (tail : List Char) : ∃ s, (token c tail).lexeme = c :: s ∧
    tail = s ++ (token c tail).rest := by
  have happ := token_append c tail
  obtain ⟨d, s, hs⟩ := List.exists_cons_of_ne_nil (token_lexeme_ne_nil c tail)
  rw [hs, List.cons_append] at happ
  obtain ⟨rfl, htail⟩ := List.cons.inj happ
  exact ⟨s, hs, htail.symm⟩

/-- **A token sees one character further**, and two if the first is a point. -/
theorem token_local {c : Char} {s r r' : List Char} {k : TokenKind}
    (h : token c (s ++ r) = ⟨.ok k, c :: s, r⟩) (ha : Yields r r') :
    token c (s ++ r') = ⟨.ok k, c :: s, r'⟩ := by
  have hnumber := startsNumber_local h ha.head
  have hcomment : (s ++ r').head? = some '*' → (s ++ r).head? = some '*' := by
    intro hstar
    rcases Yields.head_append ha.head s with hs | hs
    · rw [hs, hstar]
    · exact absurd rfl (hs.spec hstar).2.2.2.2.1
  unfold token at h ⊢
  rw [hnumber]
  split at h
  · cases h
  · rename_i h₁
    simp only [Bool.and_eq_true, decide_eq_true_eq] at h₁
    rw [if_neg (by simpa using fun hc hstar => h₁ ⟨hc, hcomment hstar⟩)]
    split at h
    · rename_i h₂
      rw [if_pos h₂]
      rcases hb : stringBody (s ++ r) with ⟨closed, body, rest⟩
      simp only [string, hb, Scanned.mk.injEq, List.cons.injEq] at h
      cases closed with
      | false => cases h.1
      | true =>
        obtain ⟨hk, ⟨hc, rfl⟩, rfl⟩ := h
        rw [string, stringBody_local hb, hc]
        simpa using hk
    · rename_i h₂
      rw [if_neg h₂]
      split at h
      · rename_i h₃
        rw [if_pos h₃]
        exact number_local (s := c :: s) h ha
      · rename_i h₃
        rw [if_neg h₃]
        split at h
        · rename_i h₄
          rw [if_pos h₄]
          simp only [word, Scanned.mk.injEq] at h
          obtain ⟨htake, hdrop⟩ := takeWhile_local (u := c :: s) (w := r) h.2.1 (fun _ => id) ha.head
          rw [← List.cons_append, word, htake, hdrop, ← h.1, h.2.1]
        · rename_i h₄
          rw [if_neg h₄]
          exact operator_local h ha.head

theorem isKeyword_of_keyword? {word : String} {k : TokenKind}
    (h : TokenKind.keyword? word = some k) : k.isKeyword = true := by
  unfold TokenKind.keyword? at h
  iterate 14 refine of_ite (P := fun k => k.isKeyword = true) h rfl fun h => ?_
  cases h

theorem isDelimiter_of_pair? {a b : Char} {k : TokenKind} (h : pair? a b = some k) :
    k.isDelimiter = false ∧ k.isKeyword = false := by
  let P : TokenKind → Prop := fun k => k.isDelimiter = false ∧ k.isKeyword = false
  unfold pair? at h
  split at h
  · iterate 8 refine of_ite (P := P) h ⟨rfl, rfl⟩ fun h => ?_
    cases h
  · iterate 2 refine of_ite (P := P) h ⟨rfl, rfl⟩ fun h => ?_
    cases h

theorem isKeyword_of_single? {c : Char} {k : TokenKind} (h : single? c = some k) :
    k.isKeyword = false := by
  unfold single? at h
  iterate 18 refine of_ite (P := fun k => k.isKeyword = false) h rfl fun h => ?_
  cases h

/-- What a delimiter and what a keyword is read from. -/
theorem token_spec {c : Char} {cs : List Char} {k : TokenKind} (h : (token c cs).result = .ok k) :
    (k.isDelimiter = true → single? c = some k) ∧ (k.isKeyword = true → isWordStart c = true) := by
  have hneither : k.isLiteral = true → k.isDelimiter = false ∧ k.isKeyword = false := by
    cases k <;> simp [TokenKind.isLiteral, TokenKind.isDelimiter, TokenKind.isKeyword]
  rcases token_cases h with ⟨-, rfl⟩ | ⟨-, hlit⟩ | ⟨-, -, rfl, -⟩ | ⟨hstart, hw⟩ | ⟨d, hpair, -⟩ |
    ⟨hone, -⟩
  · simp [hneither rfl]
  · simp [hneither hlit]
  · exact ⟨nofun, nofun⟩
  · refine ⟨fun hdelim => ?_, fun _ => hstart⟩
    have hkey := isKeyword_of_keyword? hw
    revert hdelim hkey
    cases k <;> simp [TokenKind.isDelimiter, TokenKind.isKeyword]
  · obtain ⟨hdelim, hkey⟩ := isDelimiter_of_pair? hpair
    simp [hdelim, hkey]
  · simp [hone, isKeyword_of_single? hone]

/-- A delimiter is neither a point nor a slash and starts no pair. -/
theorem single?_delimiter {c : Char} {k : TokenKind} (h : single? c = some k)
    (hk : k.isDelimiter = true) : c ≠ '.' ∧ c ≠ '/' ∧ pair? c '=' = none := by
  have hall : "()[]\x7b\x7d;,.+-*/%=!<>".toList.all (fun c =>
      !(single? c).any TokenKind.isDelimiter || (c ≠ '.' && c ≠ '/' && pair? c '=' = none)) = true := by
    decide
  have := List.all_eq_true.mp hall c (mem_of_single? h)
  simpa [h, hk, and_assoc] using this

/-- **Nothing carries on a delimiter, and only a word character carries on a keyword.** -/
theorem token_of_shut {c : Char} {s r r' : List Char} {k : TokenKind}
    (h : token c (s ++ r) = ⟨.ok k, c :: s, r⟩)
    (hk : k.isDelimiter = true ∨ k.isKeyword = true ∧ EndsWord r') :
    token c (s ++ r') = ⟨.ok k, c :: s, r'⟩ := by
  obtain ⟨hdelim, hword⟩ := token_spec (congrArg Scanned.result h)
  rcases hk with hk | ⟨hk, hr⟩
  · have hc := hdelim hk
    obtain ⟨hdot, hslash, heq⟩ := single?_delimiter hc hk
    have hpair : ∀ d, pair? c d = none := by
      intro d
      by_cases hd : d = '='
      · rw [hd]
        exact heq
      · exact (single?_spec hc).2 d hd
    have htok : ∀ cs, token c cs = ⟨.ok k, [c], cs⟩ := fun cs =>
      token_of_single? hc (fun d _ => hpair d) (fun h => absurd h hdot) fun h => absurd h hslash
    rw [htok] at h
    cases h
    exact htok r'
  · have hstart := hword hk
    rw [token_of_isWordStart hstart] at h ⊢
    simp only [word, Scanned.mk.injEq] at h
    have hall := (takeWhile_append_eq_iff (u := c :: s) (w := r)).mp h.2.1
    obtain ⟨htake, hdrop⟩ := takeWhile_append_of_all hall.1 hr
    rw [← List.cons_append, word, htake, hdrop, ← h.1, h.2.1]

/-- A character that starts a token, where it is not skipped. -/
theorem opens_of_token {cs sk tail : List Char} {c : Char} {k : TokenKind}
    (h : trivia cs = (sk, c :: tail)) (hk : (token c tail).result = .ok k) : Opens (c :: tail) := by
  have hnone : single? c = none → (∀ d, pair? c d = none) → c.isDigit = false → c ≠ '.' →
      isWordStart c = false → c ≠ '"' → False := by
    intro hs hp hdigit hdot hstart hquote
    rcases token_cases hk with ⟨hq, -⟩ | ⟨hn, -⟩ | ⟨hw, -⟩ | ⟨hw, -⟩ | ⟨d, hpair, -⟩ | ⟨hone, -⟩
    · exact hquote hq
    · simp [startsNumber_eq, hdigit, hdot] at hn
    · rw [hstart] at hw
      cases hw
    · rw [hstart] at hw
      cases hw
    · rw [hp] at hpair
      cases hpair
    · rw [hs] at hone
      cases hone
  refine ⟨c, tail, rfl, ?_, ?_, ?_⟩
  · cases hb : Text.isAsciiBlank c with
    | false => rfl
    | true =>
      exfalso
      simp only [Text.isAsciiBlank, Bool.or_eq_true, decide_eq_true_eq] at hb
      rcases hb with (((rfl | rfl) | rfl) | rfl) | rfl <;>
        exact hnone rfl (fun d => by simp [pair?]) (by decide) (by decide) (by decide) (by decide)
  · rintro rfl
    exact hnone rfl (fun d => by simp [pair?, byteOrderMark]) (by decide) (by decide) (by decide)
      (by decide)
  · rintro rfl
    constructor
    · intro hd
      cases tail with
      | nil => cases hd
      | cons d tail =>
        cases hd
        exact (trivia_eq_iff.mp h).noComment.line _ rfl
    · intro hd
      rw [token, if_pos (by simp [hd])] at hk
      cases hk

/-- **A token is kept** in front of another text that it cannot tell apart from the one after it, or
that does not carry it on.  So is all that what stands before the token sees of it. -/
theorem token_kept {c : Char} {s r r' : List Char} {k : TokenKind}
    (h : token c (s ++ r) = ⟨.ok k, c :: s, r⟩)
    (hr : Agree r r' ∨ k.isDelimiter = true ∨ k.isKeyword = true ∧ EndsWord r') :
    token c (s ++ r') = ⟨.ok k, c :: s, r'⟩ ∧ Agree (c :: (s ++ r)) (c :: (s ++ r')) ∧
      (Opens (c :: (s ++ r)) → Opens (c :: (s ++ r'))) := by
  have htok : token c (s ++ r') = ⟨.ok k, c :: s, r'⟩ := by
    rcases hr with ha | hshut
    · exact token_local h (.inl ha)
    · exact token_of_shut h hshut
  -- a point and a slash, after which one more character is seen, are shut by nothing
  have hhead : c = '.' ∨ c = '/' → (s ++ r).head? = (s ++ r').head? := by
    intro hc
    rcases hr with ha | hshut
    · exact (ha.append s).1
    · exfalso
      obtain ⟨hdelim, hword⟩ := token_spec (congrArg Scanned.result h)
      rcases hshut with hd | ⟨hw, -⟩
      · obtain ⟨hdot, hslash, -⟩ := single?_delimiter (hdelim hd) hd
        exact hc.elim hdot hslash
      · have := hword hw
        rcases hc with rfl | rfl <;> revert this <;> decide
  refine ⟨htok, ⟨rfl, fun hc => hhead (.inl (Option.some.inj hc))⟩, ?_⟩
  rintro ⟨d, tail, he, hb, hm, hslash⟩
  cases he
  refine ⟨c, s ++ r', rfl, hb, hm, fun hc => ?_⟩
  rw [← hhead (.inr hc)]
  exact hslash hc

end Scan

/-! ## 2. Tokens before a change -/

/-- Nothing that is put after the token carries it on: it is a delimiter, or a keyword before what is
no word character. -/
def Token.Shuts (a : Token) (y : List Char) : Prop :=
  a.kind.isDelimiter = true ∨ a.kind.isKeyword = true ∧ EndsWord y

/-- **The tokens before a change stay**, if nothing carries on the last of them. -/
theorem Lexed.before {pos mid : Position} {cs rest : List Char} {toks : List Token}
    (h : Lexed pos cs toks mid rest) {gap x y : List Char} (hr : rest = gap ++ x)
    (hok : ∀ a ∈ toks, a.kind ≠ .error) (hdot : gap.head? ≠ some '.')
    (hlast : ∀ a, toks.getLast? = some a → gap = [] → a.Shuts y) :
    ∃ read, cs = read ++ (gap ++ x) ∧ Lexed pos (read ++ (gap ++ y)) toks mid (gap ++ y) ∧
      (toks ≠ [] → Agree (read ++ (gap ++ x)) (read ++ (gap ++ y))) := by
  induction h with
  | nil => exact ⟨[], hr, .nil, fun h => absurd rfl h⟩
  | @cons pos stop cs skipped tail rest c toks ht hl ih =>
    have hk := Token.result_of_kind rfl (hok _ (List.mem_cons_self ..))
    generalize (Token.scanned (pos.after skipped) (Scan.token c tail)).kind = k at hk
    obtain ⟨s, hs, htail⟩ := Scan.token_lexeme_eq_cons c tail
    obtain ⟨read, hread, hbefore, hagree⟩ := ih hr (fun a ha => hok a (List.mem_cons_of_mem _ ha))
      fun a ha => hlast a (by rw [List.getLast?_cons, ha]; rfl)
    have htok : Scan.token c tail = ⟨.ok k, c :: s, read ++ (gap ++ x)⟩ := by
      rw [← hk, ← hs, ← hread]
    rw [hread] at htail
    -- what the token sees of the change
    have hview : Agree (read ++ (gap ++ x)) (read ++ (gap ++ y)) ∨
        k.isDelimiter = true ∨ k.isKeyword = true ∧ EndsWord (read ++ (gap ++ y)) := by
      cases toks with
      | cons a toks => exact .inl (hagree (List.cons_ne_nil _ _))
      | nil =>
        obtain rfl : read = [] := by
          cases hl
          rw [hread] at hr
          exact List.append_left_eq_self.mp hr
        cases gap with
        | nil =>
          have := hlast _ rfl rfl
          rw [Token.Shuts, htok] at this
          exact .inr this
        | cons a gap => exact .inl ⟨rfl, fun ha => absurd ha hdot⟩
    have hopen := Scan.opens_of_token ht hk
    have hcs := (Scan.trivia_eq_iff.mp ht).append_eq
    rw [htail] at hopen hcs
    obtain ⟨htok', hsame, hopen'⟩ := Scan.token_kept (htail ▸ htok) hview
    have htriv := Scan.trivia_local (htail ▸ ht) hopen (hopen' hopen)
    have hassoc : ∀ z, skipped ++ (c :: (s ++ read)) ++ (gap ++ z) =
        skipped ++ c :: (s ++ (read ++ (gap ++ z))) := by simp
    refine ⟨skipped ++ (c :: (s ++ read)), ?_, ?_, fun _ => ?_⟩
    · rw [hassoc, hcs]
    · have hscan : Token.scanned (pos.after skipped) (Scan.token c tail) =
          Token.scanned (pos.after skipped) (Scan.token c (s ++ (read ++ (gap ++ y)))) := by
        rw [htok, htok']
        rfl
      rw [hscan, hassoc]
      refine .cons htriv ?_
      rw [htok']
      rw [htok] at hbefore
      exact hbefore
    · rw [hassoc, hassoc]
      exact hsame.append skipped

/-! ## 3. A change between tokens -/

/-- The tokens of a text are the same wherever it stands. -/
theorem Lexed.shift {pos stop : Position} {cs rest : List Char} {toks : List Token}
    (h : Lexed pos cs toks stop rest) : ∀ pos' : Position, ∃ toks' stop',
      Lexed pos' cs toks' stop' rest ∧ toks'.map Token.bare = toks.map Token.bare := by
  induction h with
  | nil => exact fun pos' => ⟨[], pos', .nil, rfl⟩
  | cons ht _ ih =>
    intro pos'
    obtain ⟨toks', stop', hl, hbare⟩ := ih _
    refine ⟨_, stop', .cons ht hl, ?_⟩
    rw [List.map_cons, List.map_cons, hbare]
    rfl

theorem Lexed.lexes {pos stop : Position} {cs rest : List Char} {toks : List Token}
    (h : Lexed pos cs toks stop rest) (hs : Spent rest) : Lexes cs toks := by
  intro pos'
  obtain ⟨toks', stop', hl, hbare⟩ := h.shift pos'
  exact ⟨toks', stop', rest, hl, hs, hbare⟩

/-- The last token ends where the reading stops. -/
theorem Lexed.stop_getLast {pos stop : Position} {cs rest : List Char} {toks : List Token}
    (h : Lexed pos cs toks stop rest) {b : Token} (hb : toks.getLast? = some b) :
    b.span.stop = stop.offset := by
  induction h with
  | nil => cases hb
  | @cons pos stop cs skipped tail rest c toks _ hl ih =>
    cases toks with
    | nil =>
      cases hl
      cases hb
      simp [Token.scanned, Span.between, Span.stop, Position.offset_after]
    | cons a toks => exact ih (by rwa [List.getLast?_cons_cons] at hb)

/-- The first of some tokens, what is skipped before it, and what all of them are read from. -/
theorem Lexed.first {pos stop : Position} {cs rest : List Char} {toks : List Token} {a : Token}
    (h : Lexed pos cs toks stop rest) (ha : toks.head? = some a) : ∃ skipped c tail old,
      Scan.trivia cs = (skipped, c :: tail) ∧ c :: tail = old ++ rest ∧
      a = Token.scanned (pos.after skipped) (Scan.token c tail) ∧
      stop = (pos.after skipped).after old := by
  cases h with
  | nil => cases ha
  | @cons pos stop cs skipped tail rest c toks ht hl =>
    cases ha
    obtain ⟨read, hread, hstop⟩ := hl.eq_append
    refine ⟨skipped, c, tail, (Scan.token c tail).lexeme ++ read, ht, ?_, rfl, ?_⟩
    · rw [List.append_assoc, ← hread, Scan.token_append]
    · rw [hstop]
      simp

/-- Tokens of a text that opens are read in front of what is skipped there as well. -/
theorem Lexed.skip {pos stop : Position} {skipped cs rest : List Char} {toks : List Token}
    (h : Lexed (pos.after skipped) cs toks stop rest) (hs : Spent rest) (ho : Scan.Opens cs)
    (ht : Scan.trivia (skipped ++ cs) = (skipped, cs)) :
    Lexed pos (skipped ++ cs) toks stop rest := by
  cases h with
  | nil =>
    rw [Spent, ho.trivia_eq] at hs
    exact absurd hs ho.ne_nil
  | cons ht' hl =>
    rw [ho.trivia_eq] at ht'
    cases ht'
    exact .cons ht hl

open Text (byteSize)

/-- **Some tokens of a text can be replaced by others.**  What they cover is a range of whole
characters; what comes before and after it is read as before. -/
theorem Lexed.replace {pos stop : Position} {cs rest : List Char} {front mid back : List Token}
    (h : Lexed pos cs (front ++ (mid ++ back)) stop rest) (hs : Spent rest) (hne : mid ≠ [])
    (hok : ∀ a ∈ front ++ mid, a.kind ≠ .error) :
    ∃ before old after, cs = before ++ (old ++ after) ∧
      (cover mid).offset = pos.offset + byteSize before ∧
      (cover mid).stop = pos.offset + byteSize (before ++ old) ∧ Lexes after back ∧
      ∀ y ts, Scan.Opens y → Lexes y ts → (∀ a, front.getLast? = some a → a.Shuts y) →
        ∃ toks stop' rest', Lexed pos (before ++ y) (front ++ toks) stop' rest' ∧ Spent rest' ∧
          toks.map Token.bare = ts.map Token.bare := by
  obtain ⟨m₁, r₁, hfront, h⟩ := h.split
  obtain ⟨m₂, after, hmid, hback⟩ := h.split
  obtain ⟨a, b, ha, hb, ham, -⟩ := exists_ends hne
  obtain ⟨hoff, hstop, -⟩ := cover_spec hmid.ordered ha hb
  obtain ⟨skipped, c, tail, old, ht, hold, hscan, hm₂⟩ := hmid.first ha
  have hr₁ : r₁ = skipped ++ (c :: tail) := (Scan.trivia_eq_iff.mp ht).append_eq.symm
  have hopen : Scan.Opens (c :: tail) := by
    have hk : a.kind ≠ .error := hok a (List.mem_append_right _ ham)
    rw [hscan] at hk
    exact Scan.opens_of_token ht (Token.result_of_kind rfl hk)
  obtain ⟨read, hcs, hm₁⟩ := hfront.eq_append
  have hoffset : m₁.offset = pos.offset + byteSize read := by
    rw [hm₁, Position.offset_after]
  have hfirst : a.span.offset = m₁.offset + byteSize skipped := by
    simp [hscan, Token.scanned, Span.between, Position.offset_after]
  refine ⟨read ++ skipped, old, after, ?_, ?_, ?_, hback.lexes hs, fun y ts hy hlex hshut => ?_⟩
  · rw [hcs, hr₁, hold, List.append_assoc]
  · rw [hoff, hfirst, hoffset, Text.byteSize_append, Nat.add_assoc]
  · rw [hstop, hmid.stop_getLast hb, hm₂]
    simp only [Position.offset_after, hoffset, Text.byteSize_append]
    omega
  · obtain ⟨read', hcs', hnew, -⟩ := hfront.before (y := y) hr₁
      (fun a ha => hok a (List.mem_append_left _ ha)) (Scan.trivia_head ht)
      fun a ha _ => hshut a ha
    obtain rfl : read' = read := by
      rw [← hr₁, hcs] at hcs'
      exact (List.append_cancel_right hcs').symm
    obtain ⟨toks, stop', rest', hl, hspent, hbare⟩ := hlex (m₁.after skipped)
    have hlater := hl.skip hspent hy (Scan.trivia_local ht hopen hy)
    rw [List.append_assoc]
    exact ⟨toks, stop', rest', hnew.append hlater, hspent, hbare⟩

end Recast
