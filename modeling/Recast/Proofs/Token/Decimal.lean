/-
# The text of a number

Every floating-point number is printed as digits with a fraction or an exponent, which are one token,
with a sign before them if it is negative; infinity and what is no number are printed as words.

* `Scan.IsDecimal cs`: the characters are digits with a fraction or an exponent;
* `Scan.number_of_isDecimal`: they are read as one number, in front of anything but a word character;
* `Scan.IsDecimal.prints`: so they are as a text, and with the letter of a number of single precision;
* `Binary64.isDecimal_magnitudeText`: **the text of a finite number without its sign is of this form.**
-/
import Mathlib.Data.List.TakeWhile
import Recast.Proofs.Grammar.Writable
import Recast.Proofs.Token.Local

namespace Recast

/-! ## 1. Digits with a fraction or an exponent -/

namespace Scan

/-- Digits, at least one. -/
def IsDigits (cs : List Char) : Prop := cs ≠ [] ∧ ∀ c ∈ cs, c.isDigit = true

/-- The sign of an exponent as it is printed. -/
def IsMark (mark : List Char) : Prop := mark = [] ∨ mark = ['-']

/-- Digits with a fraction or an exponent. -/
inductive IsDecimal : List Char → Prop
  | fraction {ds fs : List Char} : IsDigits ds → IsDigits fs → IsDecimal (ds ++ '.' :: fs)
  | exponent {ds mark ps : List Char} : IsDigits ds → IsMark mark → IsDigits ps →
      IsDecimal (ds ++ 'e' :: (mark ++ ps))
  | both {ds fs mark ps : List Char} : IsDigits ds → IsDigits fs → IsMark mark → IsDigits ps →
      IsDecimal (ds ++ '.' :: (fs ++ 'e' :: (mark ++ ps)))

/-- No digit stands in front. -/
def EndsDigits (cs : List Char) : Prop := ∀ c, cs.head? = some c → isDigitChar c = false

variable {ds fs mark ps cs rest : List Char}

theorem IsDigits.split (h : IsDigits ds) (hr : EndsDigits rest) :
    (ds ++ rest).takeWhile isDigitChar = ds ∧ (ds ++ rest).dropWhile isDigitChar = rest :=
  takeWhile_append_of_all (fun c hc => (isDigit_spec (h.2 c hc)).2.2.2.2.2.2) hr

theorem EndsDigits.cons {c : Char} (hc : isDigitChar c = false) (cs : List Char) :
    EndsDigits (c :: cs) := by
  intro d hd
  cases hd
  exact hc

theorem fraction_of_isDigits (h : IsDigits fs) (hr : EndsDigits rest) :
    Scan.fraction ('.' :: (fs ++ rest)) = ('.' :: fs, rest) := by
  obtain ⟨htake, hdrop⟩ := h.split hr
  obtain ⟨f, gs, rfl⟩ := List.exists_cons_of_ne_nil h.1
  rw [List.cons_append] at htake hdrop ⊢
  rw [Scan.fraction, if_pos (h.2 f (List.mem_cons_self ..)), htake, hdrop]

theorem exponent_of_isDigits (hm : IsMark mark) (h : IsDigits ps) (hr : EndsDigits rest) :
    Scan.exponent ('e' :: (mark ++ (ps ++ rest))) = (true, 'e' :: (mark ++ ps), rest) := by
  obtain ⟨htake, hdrop⟩ := h.split hr
  obtain ⟨p, qs, rfl⟩ := List.exists_cons_of_ne_nil h.1
  have hdigit := h.2 p (List.mem_cons_self ..)
  rw [List.cons_append] at htake hdrop ⊢
  have hsign : Scan.sign (mark ++ p :: (qs ++ rest)) = (mark, p :: (qs ++ rest)) := by
    rcases hm with rfl | rfl
    · have hplus : p ≠ '+' := by
        rintro rfl
        cases hdigit
      have hminus : p ≠ '-' := by
        rintro rfl
        cases hdigit
      rw [List.nil_append, Scan.sign]
      · simp [hplus]
      · simp [hminus]
    · rfl
  rw [Scan.exponent, if_pos (by simp), hsign]
  simp only [hdigit, if_true, htake, hdrop, List.cons_append]

/-- **Digits with a fraction or an exponent are one number**, in front of anything but a word
character.  The letter after them says of what kind it is. -/
theorem number_of_isDecimal {letter : List Char} {k : TokenKind} (h : IsDecimal cs)
    (ht : EndsDigits (letter ++ rest)) (he : Scan.exponent (letter ++ rest) = (true, [], letter ++ rest))
    (hs : suffix true (letter ++ rest) = (k, letter, rest)) (hr : EndsWord rest) :
    number (cs ++ (letter ++ rest)) = ⟨.ok k, cs ++ letter, rest⟩ := by
  have hextra : rest.takeWhile isWordChar = [] :=
    (takeWhile_append_of_all (List.forall_mem_nil _) hr).1
  cases h with
  | @fraction ds fs hd hf =>
    obtain ⟨htake, hdrop⟩ := hd.split (.cons (c := '.') (by decide) (fs ++ (letter ++ rest)))
    have hpoint := fraction_of_isDigits hf ht
    simp [number, htake, hdrop, hpoint, he, hs, hextra]
  | @exponent ds mark ps hd hm hp =>
    obtain ⟨htake, hdrop⟩ := hd.split
      (.cons (c := 'e') (by decide) (mark ++ (ps ++ (letter ++ rest))))
    have hpoint : Scan.fraction ('e' :: (mark ++ (ps ++ (letter ++ rest)))) =
        ([], 'e' :: (mark ++ (ps ++ (letter ++ rest)))) := fraction_eq_nil_iff.mpr (by simp)
    have hpower := exponent_of_isDigits hm hp ht
    simp [number, htake, hdrop, hpoint, hpower, hs, hextra]
  | @both ds fs mark ps hd hf hm hp =>
    obtain ⟨htake, hdrop⟩ := hd.split
      (.cons (c := '.') (by decide) (fs ++ 'e' :: (mark ++ (ps ++ (letter ++ rest)))))
    have hpoint := fraction_of_isDigits hf
      (.cons (c := 'e') (by decide) (mark ++ (ps ++ (letter ++ rest))))
    have hpower := exponent_of_isDigits hm hp ht
    simp [number, htake, hdrop, hpoint, hpower, hs, hextra]

theorem IsDecimal.head (h : IsDecimal cs) : ∃ d ds, cs = d :: ds ∧ d.isDigit = true := by
  have hhead : ∀ {ds more : List Char}, IsDigits ds → ∃ d tail, ds ++ more = d :: tail ∧
      d.isDigit = true := by
    intro ds more hd
    obtain ⟨d, tail, rfl⟩ := List.exists_cons_of_ne_nil hd.1
    exact ⟨d, tail ++ more, rfl, hd.2 d (List.mem_cons_self ..)⟩
  cases h with
  | fraction hd _ | exponent hd _ _ | both hd _ _ _ => exact hhead hd

theorem IsDecimal.newline_not_mem (h : IsDecimal cs) : '\n' ∉ cs := by
  have hdigits : ∀ {ds : List Char}, IsDigits ds → '\n' ∉ ds := by
    intro ds hd hn
    exact absurd (hd.2 _ hn) (by decide)
  have hmark : ∀ {mark : List Char}, IsMark mark → '\n' ∉ mark := by
    rintro mark (rfl | rfl) <;> decide
  cases h with
  | fraction hd hf => simp [hdigits hd, hdigits hf]
  | exponent hd hm hp => simp [hdigits hd, hmark hm, hdigits hp]
  | both hd hf hm hp => simp [hdigits hd, hdigits hf, hmark hm, hdigits hp]

end Scan

/-- **Digits with a fraction or an exponent are read as one token**, and so they are with the letter
of a number of single precision. -/
theorem Scan.IsDecimal.prints {cs : List Char} (h : IsDecimal cs) :
    Prints false (String.ofList cs) [⟨.doubleLiteral, String.ofList cs, default⟩] ∧
      Prints false (String.ofList cs ++ "f") [⟨.floatLiteral, String.ofList cs ++ "f", default⟩] := by
  obtain ⟨d, ds, rfl, hd⟩ := h.head
  obtain ⟨hblank, hmark, hslash, hquote, hequal, -⟩ := isDigit_spec hd
  have hnumber : ∀ tail, token d tail = number (d :: tail) := by
    intro tail
    rw [token, if_neg (by simp [hslash]), if_neg hquote, if_pos (by simp [startsNumber, hd])]
  have hword : ∀ {x : Char} {rest : List Char}, EndsWord rest → isWordChar x = true →
      ∀ c, rest.head? = some c → c ≠ x := by
    rintro x rest hr hx c hc rfl
    rw [hr c hc] at hx
    cases hx
  constructor
  · refine .leaf ⟨d, by simp, hequal⟩ (by simpa using h.newline_not_mem) fun {rest us} hr hlex => ?_
    have hends : EndsWord rest := hr.1.1
    have htail : EndsDigits rest := by
      intro c hc
      refine Bool.eq_false_iff.mpr fun hdc => ?_
      have := hends c hc
      rw [isWordChar_of_isDigitChar hdc] at this
      cases this
    have hpower : Scan.exponent rest = (true, [], rest) := by
      cases rest with
      | nil => rfl
      | cons c cs =>
        exact exponent_of_ne (hword hends (by decide) c rfl) (hword hends (by decide) c rfl)
    have hsuffix : suffix true rest = (.doubleLiteral, [], rest) := by
      cases rest with
      | nil => rfl
      | cons c cs =>
        have h₁ : c ≠ 'f' := hword hends (by decide) c rfl
        have h₂ : c ≠ 'F' := hword hends (by decide) c rfl
        simp [suffix, h₁, h₂]
    have hscan : number (d :: ds ++ ([] ++ rest)) = ⟨.ok .doubleLiteral, d :: ds ++ [], rest⟩ :=
      number_of_isDecimal h htail hpower hsuffix hends
    rw [String.toList_ofList, List.cons_append]
    refine .token hblank hmark (fun he => absurd he hslash) ?_ hlex
    rw [hnumber, String.toList_ofList]
    simpa using hscan
  · refine .leaf ⟨d, by simp, hequal⟩ (by simpa using h.newline_not_mem) fun {rest us} hr hlex => ?_
    have hscan : number (d :: ds ++ (['f'] ++ rest)) =
        ⟨.ok .floatLiteral, d :: ds ++ ['f'], rest⟩ :=
      number_of_isDecimal h (.cons (by decide) rest) (exponent_of_ne (by decide) (by decide)) rfl
        hr.1.1
    rw [String.toList_append, String.toList_ofList, List.append_assoc, List.cons_append]
    refine .token hblank hmark (fun he => absurd he hslash) ?_ hlex
    rw [hnumber, String.toList_append, String.toList_ofList]
    simpa using hscan

/-! ## 2. The text of a number -/

namespace Binary64

open Scan (IsDigits IsDecimal)

theorem isDigits_zero : IsDigits ['0'] := ⟨by simp, List.forall_mem_singleton.mpr (by decide)⟩

theorem isDigits_toDigits (n : Nat) : IsDigits (Nat.toDigits 10 n) :=
  ⟨Nat.toDigits_ne_nil, fun _ hc => Nat.isDigit_of_mem_toDigits (by decide) (by decide) hc⟩

/-- A positive number has a digit other than zero. -/
theorem isDigits_significantDigits {n : Nat} (hn : 0 < n) : IsDigits (significantDigits n) := by
  constructor
  · intro hnil
    rw [significantDigits, List.reverse_eq_nil_iff, List.dropWhile_eq_nil_iff] at hnil
    have hzero : ∀ cs : List Char, (∀ c ∈ cs, c = '0') → digitsValue cs = 0 := by
      intro cs h
      rw [List.eq_replicate_of_mem h]
      induction cs.length with
      | zero => rfl
      | succ k ih => exact ih
    have hvalue : digitsValue (Nat.toDigits 10 n) = n := Nat.ofDigitChars_ten_toDigits
    rw [hzero _ fun c hc => by simpa using hnil c (List.mem_reverse.mpr hc)] at hvalue
    omega
  · intro c hc
    have hmem := (List.dropWhile_sublist _).subset (List.mem_reverse.mp hc)
    exact (isDigits_toDigits n).2 c (List.mem_reverse.mp hmem)

/-- Zeros on either side of digits. -/
theorem isDigits_zeros {ds : List Char} (h : IsDigits ds) (k : Nat) :
    IsDigits (List.replicate k '0' ++ ds) ∧ IsDigits (ds ++ List.replicate k '0') := by
  have hall : ∀ c ∈ List.replicate k '0', c.isDigit = true := by
    intro c hc
    rw [List.eq_of_mem_replicate hc]
    decide
  exact ⟨⟨by simp [h.1], List.forall_mem_append.mpr ⟨hall, h.2⟩⟩,
    ⟨by simp [h.1], List.forall_mem_append.mpr ⟨h.2, hall⟩⟩⟩

/-- Of two choices one is taken that passes the test. -/
theorem test_of_choice {p : Nat → Bool} {a b : Nat} {power : Int} {d : Decimal}
    (h : (if p a then some ⟨a, power⟩ else if p b then some ⟨b, power⟩ else none) = some d) :
    p d.coefficient = true := by
  split at h
  · cases h
    assumption
  · split at h
    · cases h
      assumption
    · cases h

/-- A decimal on the grid is at least the lower end of the neighbourhood, on a common scale. -/
theorem low_le_of_onGrid? {n : Neighbourhood} {count : Nat} {d : Decimal}
    (h : onGrid? n count = some d) :
    ∃ up unit, 0 < up ∧ n.low * up ≤ d.coefficient * unit := by
  let power : Int := decimalPoint n.mid n.den - count
  let up := Nat.pow 10 (-power).toNat
  let unit := n.den * Nat.pow 10 power.toNat
  let inside (x : Nat) : Bool :=
    if n.closed then n.low * up ≤ x * unit && x * unit ≤ n.high * up
    else n.low * up < x * unit && x * unit < n.high * up
  have hin : inside d.coefficient = true := test_of_choice (p := inside) h
  refine ⟨up, unit, Nat.pow_pos (by decide), ?_⟩
  unfold inside at hin
  split at hin
  · exact of_decide_eq_true (Bool.and_eq_true_iff.mp hin).1
  · exact Nat.le_of_lt (of_decide_eq_true (Bool.and_eq_true_iff.mp hin).1)

/-- The shortest decimal of a positive number is positive, unless the search for it fails. -/
theorem shortest_spec {m : Nat} (hm : m ≠ 0) (e : Nat) :
    0 < (shortest m e).coefficient ∨ shortest m e = ⟨0, 0⟩ := by
  have hlow : 0 < (neighbourhood m e).low := by
    refine Nat.mul_pos ?_ (Nat.pow_pos (by decide))
    split <;> omega
  unfold shortest
  dsimp only
  cases hfind : (List.range 17).findSome? fun i => onGrid? (neighbourhood m e) (i + 1) with
  | none => exact .inr rfl
  | some d =>
    obtain ⟨i, -, hd⟩ := List.exists_of_findSome?_eq_some hfind
    obtain ⟨up, unit, hup, hle⟩ := low_le_of_onGrid? hd
    refine .inl (Nat.pos_of_ne_zero fun hzero => ?_)
    have hpos := Nat.mul_pos hlow hup
    rw [Option.getD_some] at hzero
    rw [hzero] at hle
    omega

theorem isDecimal_positional {digits : List Char} (h : IsDigits digits) (point : Int) :
    IsDecimal (positional digits point) := by
  match point with
  | .negSucc z =>
    simpa [positional] using IsDecimal.fraction isDigits_zero (isDigits_zeros h (z + 1)).1
  | .ofNat 0 => exact .fraction isDigits_zero h
  | .ofNat (p + 1) =>
    rw [positional]
    split
    · rename_i hlt
      have htake : IsDigits (digits.take (p + 1)) := by
        refine ⟨fun hnil => ?_, fun c hc => h.2 c (List.mem_of_mem_take hc)⟩
        rcases List.take_eq_nil_iff.mp hnil with h₀ | h₀
        · omega
        · exact h.1 h₀
      have hdrop : IsDigits (digits.drop (p + 1)) := by
        refine ⟨fun hnil => ?_, fun c hc => h.2 c (List.mem_of_mem_drop hc)⟩
        have := List.drop_eq_nil_iff.mp hnil
        omega
      simpa using IsDecimal.fraction htake hdrop
    · exact .fraction (isDigits_zeros h _).2 isDigits_zero
    · simp

theorem isDecimal_scientific {digits : List Char} (h : IsDigits digits) (point : Int) :
    IsDecimal (scientific digits point) := by
  obtain ⟨mark, ps, hpower, hm, hp⟩ : ∃ mark ps, (toString (point - 1)).toList = mark ++ ps ∧
      Scan.IsMark mark ∧ IsDigits ps := by
    cases point - 1 with
    | ofNat n =>
      refine ⟨[], Nat.toDigits 10 n, ?_, .inl rfl, isDigits_toDigits n⟩
      change n.repr.toList = _
      simp [Nat.repr_eq_ofList_toDigits]
    | negSucc n =>
      refine ⟨['-'], Nat.toDigits 10 (n + 1), ?_, .inr rfl, isDigits_toDigits _⟩
      change ("-" ++ (n + 1).repr).toList = _
      simp [Nat.repr_eq_ofList_toDigits]
  have hone : ∀ {d : Char} {ds : List Char}, IsDigits (d :: ds) → IsDigits [d] := fun h =>
    ⟨by simp, fun c hc => h.2 c (by rw [List.mem_singleton.mp hc]; exact List.mem_cons_self ..)⟩
  unfold scientific
  rw [hpower]
  match digits, h with
  | [], h => exact absurd rfl h.1
  | [d], h => simpa using IsDecimal.exponent h hm hp
  | d :: e :: ds, h =>
    have hmore : IsDigits (e :: ds) := ⟨by simp, fun c hc => h.2 c (List.mem_cons_of_mem _ hc)⟩
    simpa using IsDecimal.both (hone h) hmore hm hp

/-- **The text of a finite number without its sign has digits, and a fraction or an exponent.** -/
theorem isDecimal_magnitudeText (m e : Nat) : IsDecimal (magnitudeText m e) := by
  have hzero : IsDecimal ['0', '.', '0'] := IsDecimal.fraction isDigits_zero isDigits_zero
  unfold magnitudeText
  split
  · exact hzero
  · rename_i hm
    rcases shortest_spec hm e with hpos | hnone
    · have hdigits := isDigits_significantDigits hpos
      dsimp only
      split
      · exact isDecimal_scientific hdigits _
      · exact isDecimal_positional hdigits _
    · rw [hnone]
      exact hzero

end Binary64

end Recast
