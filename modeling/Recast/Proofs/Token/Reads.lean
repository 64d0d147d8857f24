/-
# Tokens of a text, from its end on

What the lexer makes of a text does not depend on where the text stands, so tokens can be put in
front of a text whose tokens are known, one by one and with blanks between them.

* `Reads cs ts`: the characters are read, to their end, as the tokens `ts`, up to places;
* `Reads.blank`: a blank in front changes nothing; `Reads.token`: a token in front is read first;
* `reads_word`, `reads_digits`, `reads_quoted`, `reads_sign`: **each kind of token is read as
  itself in front of characters that do not carry it on**.
-/
import Recast.Proofs.Token.Lexed
import Recast.Proofs.Token.Trivia

namespace Recast

/-! ## 1. Reading to the end -/

/-- The kind and the spelling of a token, without its place. -/
def Token.bare (t : Token) : TokenKind × String := (t.kind, t.lexeme)

/-- Wherever the characters stand after a token, they are read to their end as tokens of these kinds
and spellings. -/
def Lexes (cs : List Char) (ts : List Token) : Prop :=
  ∀ pos, ∃ toks stop rest, Lexed pos cs toks stop rest ∧ Spent rest ∧
    toks.map Token.bare = ts.map Token.bare

/-- The same where blanks may stand before the characters.  A byte-order mark in front would be
skipped directly after a token and not after a blank. -/
def Reads (cs : List Char) (ts : List Token) : Prop :=
  cs.head? ≠ some Scan.byteOrderMark ∧ Lexes cs ts

namespace Reads

variable {cs : List Char} {ts : List Token}

theorem nil : Reads [] [] := by
  refine ⟨by simp, fun pos => ⟨[], pos, [], .nil, ?_, rfl⟩⟩
  rfl

/-- **A blank in front changes nothing.** -/
theorem blank {b : Char} (h : Reads cs ts) (hb : Text.isAsciiBlank b = true) :
    Reads (b :: cs) ts := by
  have htriv := Scan.trivia_blank hb h.1
  refine ⟨?_, fun pos => ?_⟩
  · intro hm
    cases hm
    revert hb
    decide
  · obtain ⟨toks, stop, rest, hlex, hs, hbare⟩ := h.2 (pos.after [b])
    cases hlex with
    | nil =>
      refine ⟨[], pos, b :: cs, .nil, ?_, hbare⟩
      rw [Spent, htriv]
      exact hs
    | cons ht hl =>
      rw [ht] at htriv
      refine ⟨_, stop, rest, .cons htriv ?_, hs, hbare⟩
      exact hl

theorem blanks {bs : List Char} (h : Reads cs ts) (hb : ∀ b ∈ bs, Text.isAsciiBlank b = true) :
    Reads (bs ++ cs) ts := by
  induction bs with
  | nil => exact h
  | cons b bs ih =>
    exact (ih fun c hc => hb c (List.mem_cons_of_mem _ hc)).blank (hb b (List.mem_cons_self ..))

/-- **A token in front is read first.** -/
theorem token {c : Char} {tail : List Char} {k : TokenKind} {lexeme : String}
    (hb : Text.isAsciiBlank c = false) (hm : c ≠ Scan.byteOrderMark)
    (hs : c = '/' → tail.head? ≠ some '/' ∧ tail.head? ≠ some '*')
    (ht : Scan.token c tail = ⟨.ok k, lexeme.toList, cs⟩) (h : Lexes cs ts) :
    Reads (c :: tail) (⟨k, lexeme, default⟩ :: ts) := by
  refine ⟨fun h => hm (Option.some.inj h), fun pos => ?_⟩
  obtain ⟨toks, stop, rest, hlex, hspent, hbare⟩ := h (pos.after lexeme.toList)
  have hopen : Scan.Opens (c :: tail) := ⟨c, tail, rfl, hb, hm, hs⟩
  refine ⟨Token.scanned (pos.after []) (Scan.token c tail) :: toks, stop, rest,
    .cons hopen.trivia_eq ?_, hspent, ?_⟩
  · rw [ht]
    exact hlex
  · rw [List.map_cons, List.map_cons, hbare, ht]
    simp [Token.scanned, Token.bare]

end Reads

/-! ## 2. Words and numbers -/

/-- No word character stands in front. -/
def EndsWord (cs : List Char) : Prop := ∀ c, cs.head? = some c → Scan.isWordChar c = false

/-- Nothing stands in front that would be part of a number before it. -/
def EndsNumber (cs : List Char) : Prop :=
  EndsWord cs ∧ ∀ d tail, cs = '.' :: d :: tail → d.isDigit = false

/-- Whether the characters are a word: they start like one and go on like one. -/
def Scan.isWord : List Char → Bool
  | [] => false
  | c :: cs => isWordStart c && cs.all isWordChar

theorem Scan.isWordChar_of_isWordStart {c : Char} (h : isWordStart c = true) :
    isWordChar c = true := by
  simp only [isWordStart, Bool.or_eq_true] at h
  simp only [isWordChar, Char.isAlphanum, Bool.or_eq_true]
  exact h.imp id .inl

theorem Scan.isWord_iff {cs : List Char} : isWord cs = true ↔
    ∃ c tail, cs = c :: tail ∧ isWordStart c = true ∧ ∀ d ∈ cs, isWordChar d = true := by
  cases cs with
  | nil => simp [isWord]
  | cons c cs =>
    simp only [isWord, Bool.and_eq_true, List.all_eq_true]
    constructor
    · rintro ⟨hc, hcs⟩
      refine ⟨c, cs, rfl, hc, fun d hd => ?_⟩
      rcases List.mem_cons.mp hd with rfl | hd
      · exact isWordChar_of_isWordStart hc
      · exact hcs d hd
    · rintro ⟨c', tail, he, hc, hall⟩
      cases he
      exact ⟨hc, fun d hd => hall d (List.mem_cons_of_mem _ hd)⟩

/-- What starts a word is none of the characters that start anything else. -/
theorem Scan.isWordStart_spec {c : Char} (h : isWordStart c = true) :
    Text.isAsciiBlank c = false ∧ c ≠ byteOrderMark ∧ c ≠ '/' ∧ c ≠ '"' ∧ c ≠ '.' ∧ c ≠ '=' ∧
      c.isDigit = false := by
  have hne : ∀ {d : Char}, isWordStart d = false → c ≠ d := by
    rintro d hd rfl
    rw [h] at hd
    cases hd
  refine ⟨?_, hne (by decide), hne (by decide), hne (by decide), hne (by decide), hne (by decide),
    ?_⟩
  · simp only [Text.isAsciiBlank, Bool.or_eq_false_iff, decide_eq_false_iff_not]
    exact ⟨⟨⟨⟨hne (by decide), hne (by decide)⟩, hne (by decide)⟩, hne (by decide)⟩, hne (by decide)⟩
  · simp only [isWordStart, Bool.or_eq_true, decide_eq_true_eq] at h
    rcases h with rfl | h
    · decide
    · delta Char.isAlpha Char.isUpper Char.isLower at h
      simp only [Bool.or_eq_true, Bool.and_eq_true, decide_eq_true_eq, ge_iff_le,
        UInt32.le_iff_toNat_le] at h
      simp only [Char.isDigit, Bool.and_eq_false_iff, decide_eq_false_iff_not, ge_iff_le,
        UInt32.le_iff_toNat_le]
      have hcodes : 'A'.val.toNat = 65 ∧ 'a'.val.toNat = 97 ∧ '9'.val.toNat = 57 := by decide
      omega

theorem Scan.token_of_isWordStart {c : Char} (h : isWordStart c = true) (cs : List Char) :
    token c cs = word (c :: cs) := by
  obtain ⟨-, -, hslash, hquote, hdot, -, hdigit⟩ := isWordStart_spec h
  rw [token, if_neg (by simp [hslash]), if_neg hquote,
    if_neg (by simp [startsNumber, hdigit, hdot]), if_pos h]

/-- **A word is read as itself** in front of anything but a word character. -/
theorem reads_word {word : String} {rest : List Char} {ts : List Token}
    (hw : Scan.isWord word.toList = true) (hr : EndsWord rest) (h : Lexes rest ts) :
    Reads (word.toList ++ rest)
      (⟨(TokenKind.keyword? word).getD .identifier, word, default⟩ :: ts) := by
  obtain ⟨c, tail, hc, hstart, hall⟩ := Scan.isWord_iff.mp hw
  obtain ⟨hblank, hmark, hslash, -⟩ := Scan.isWordStart_spec hstart
  obtain ⟨htake, hdrop⟩ := takeWhile_append_of_all hall hr
  rw [hc, List.cons_append]
  refine .token hblank hmark (fun h => absurd h hslash) ?_ h
  rw [Scan.token_of_isWordStart hstart, ← List.cons_append, ← hc, Scan.word, htake, hdrop,
    String.ofList_toList]

/-- What is a digit is none of the characters that start anything else but a word. -/
theorem Scan.isDigit_spec {c : Char} (h : c.isDigit = true) :
    Text.isAsciiBlank c = false ∧ c ≠ byteOrderMark ∧ c ≠ '/' ∧ c ≠ '"' ∧ c ≠ '=' ∧
      c ≠ '_' ∧ isDigitChar c = true := by
  have hne : ∀ {d : Char}, d.isDigit = false → c ≠ d := by
    rintro d hd rfl
    rw [h] at hd
    cases hd
  refine ⟨?_, hne (by decide), hne (by decide), hne (by decide), hne (by decide), hne (by decide),
    by simp [isDigitChar, h]⟩
  simp only [Text.isAsciiBlank, Bool.or_eq_false_iff, decide_eq_false_iff_not]
  exact ⟨⟨⟨⟨hne (by decide), hne (by decide)⟩, hne (by decide)⟩, hne (by decide)⟩, hne (by decide)⟩

theorem Scan.isWordChar_of_isDigitChar {c : Char} (h : isDigitChar c = true) :
    isWordChar c = true := by
  simp only [isDigitChar, Bool.or_eq_true, decide_eq_true_eq] at h
  simp only [isWordChar, Char.isAlphanum, Bool.or_eq_true, decide_eq_true_eq]
  rcases h with h | h
  · exact .inr (.inr h)
  · exact .inl h

/-- A number without a fraction and an exponent: its digits and a suffix. -/
theorem Scan.number_of_digits {ds more letter rest : List Char} {k : TokenKind}
    (hd : ∀ d ∈ ds, isDigitChar d = true) (hm : ∀ c, more.head? = some c → isDigitChar c = false)
    (hf : fraction more = ([], more)) (he : exponent more = (true, [], more))
    (hs : suffix false more = (k, letter, rest)) (hr : EndsWord rest) :
    number (ds ++ more) = ⟨.ok k, ds ++ letter, rest⟩ := by
  obtain ⟨htake, hdrop⟩ := takeWhile_append_of_all hd hm
  have hextra : rest.takeWhile isWordChar = [] := by
    have := (takeWhile_append_of_all (List.forall_mem_nil _) hr).1
    exact this
  simp [number, htake, hdrop, hf, he, hs, hextra]

theorem Scan.exponent_of_ne {c : Char} {cs : List Char} (he : c ≠ 'e') (hE : c ≠ 'E') :
    exponent (c :: cs) = (true, [], c :: cs) := by
  simp [exponent, he, hE]

/-- Digits are read as a number, and so are digits with the letter of a long number. -/
theorem Scan.token_of_digits {d : Char} {ds rest : List Char} (hd : d.isDigit = true)
    (hds : ∀ c ∈ ds, c.isDigit = true) (hr : EndsNumber rest) :
    token d (ds ++ rest) = ⟨.ok .intLiteral, d :: ds, rest⟩ ∧
      token d (ds ++ 'L' :: rest) = ⟨.ok .longLiteral, d :: ds ++ ['L'], rest⟩ := by
  obtain ⟨-, -, hslash, hquote, -⟩ := isDigit_spec hd
  have hnumber : ∀ cs : List Char, token d cs = number (d :: cs) := by
    intro cs
    rw [token, if_neg (by simp [hslash]), if_neg hquote, if_pos (by simp [startsNumber, hd])]
  have hall : ∀ c ∈ d :: ds, isDigitChar c = true := by
    intro c hc
    rcases List.mem_cons.mp hc with rfl | hc
    · exact (isDigit_spec hd).2.2.2.2.2.2
    · exact (isDigit_spec (hds c hc)).2.2.2.2.2.2
  have hne : ∀ {x : Char}, isWordChar x = true → ∀ c, rest.head? = some c → c ≠ x := by
    rintro x hx c hc rfl
    rw [hr.1 c hc] at hx
    cases hx
  constructor
  · rw [hnumber, ← List.cons_append]
    have hmore : ∀ c, rest.head? = some c → isDigitChar c = false := by
      intro c hc
      cases hdc : isDigitChar c with
      | false => rfl
      | true =>
        have := hr.1 c hc
        rw [isWordChar_of_isDigitChar hdc] at this
        cases this
    have hf : fraction rest = ([], rest) := by
      unfold fraction
      split
      · rename_i e cs
        rw [if_neg (by simp [hr.2 e cs rfl])]
      · rfl
    have he : exponent rest = (true, [], rest) := by
      cases rest with
      | nil => rfl
      | cons c cs => exact exponent_of_ne (hne (by decide) c rfl) (hne (by decide) c rfl)
    have hs : suffix false rest = (.intLiteral, [], rest) := by
      cases rest with
      | nil => rfl
      | cons c cs =>
        have h₁ : c ≠ 'f' := hne (by decide) c rfl
        have h₂ : c ≠ 'F' := hne (by decide) c rfl
        have h₃ : c ≠ 'L' := hne (by decide) c rfl
        have h₄ : c ≠ 'l' := hne (by decide) c rfl
        simp [suffix, h₁, h₂, h₃, h₄]
    rw [number_of_digits hall hmore hf he hs hr.1, List.append_nil]
  · rw [hnumber, ← List.cons_append]
    refine number_of_digits hall (fun c hc => ?_) rfl (exponent_of_ne (by decide) (by decide)) rfl
      hr.1
    cases hc
    decide

/-- **Digits are read as themselves** in front of what is not part of a number. -/
theorem reads_digits {digits : String} {rest : List Char} {ts : List Token}
    (hne : digits.toList ≠ []) (hd : ∀ c ∈ digits.toList, c.isDigit = true) (hr : EndsNumber rest)
    (h : Lexes rest ts) :
    Reads (digits.toList ++ rest) (⟨.intLiteral, digits, default⟩ :: ts) ∧
      Reads ((digits ++ "L").toList ++ rest) (⟨.longLiteral, digits ++ "L", default⟩ :: ts) := by
  obtain ⟨d, ds, hcs⟩ := List.exists_cons_of_ne_nil hne
  rw [hcs] at hd
  have hdigit := hd d (List.mem_cons_self ..)
  obtain ⟨hblank, hmark, hslash, -⟩ := Scan.isDigit_spec hdigit
  obtain ⟨hint, hlong⟩ := Scan.token_of_digits hdigit
    (fun c hc => hd c (List.mem_cons_of_mem _ hc)) hr
  constructor
  · rw [hcs, List.cons_append]
    refine .token hblank hmark (fun h => absurd h hslash) ?_ h
    rw [hint, hcs]
  · rw [String.toList_append, hcs, List.append_assoc, List.cons_append]
    refine .token hblank hmark (fun h => absurd h hslash) ?_ h
    rw [String.toList_append, hcs]
    exact hlong

/-! ## 3. Strings -/

/-- A character is written as itself, or as a backslash and a letter that stand for it. -/
theorem Text.escapeChar_cases (c : Char) :
    (escapeChar c = [c] ∧ c ≠ '\n' ∧ c ≠ '"' ∧ c ≠ '\\') ∨
      ∃ e, escapeChar c = ['\\', e] ∧ escaped? e = some c := by
  by_cases hn : c = '\n'
  · exact .inr ⟨'n', by subst hn; rfl, by subst hn; rfl⟩
  by_cases ht : c = '\t'
  · exact .inr ⟨'t', by subst ht; rfl, by subst ht; rfl⟩
  by_cases hr : c = '\r'
  · exact .inr ⟨'r', by subst hr; rfl, by subst hr; rfl⟩
  by_cases hz : c = '\x00'
  · exact .inr ⟨'0', by subst hz; rfl, by subst hz; rfl⟩
  by_cases hb : c = '\\'
  · exact .inr ⟨'\\', by subst hb; rfl, by subst hb; rfl⟩
  by_cases hq : c = '"'
  · exact .inr ⟨'"', by subst hq; rfl, by subst hq; rfl⟩
  exact .inl ⟨by simp [escapeChar, hn, ht, hr, hz, hb, hq], hn, hq, hb⟩

/-- The body of a quoted text ends with its own quote. -/
theorem Scan.stringBody_quoted (s rest : List Char) :
    stringBody (s.flatMap Text.escapeChar ++ '"' :: rest) =
      (true, s.flatMap Text.escapeChar ++ ['"'], rest) := by
  induction s with
  | nil =>
    rw [List.flatMap_nil, List.nil_append, stringBody]
    rfl
  | cons c s ih =>
    rw [List.flatMap_cons, List.append_assoc]
    rcases Text.escapeChar_cases c with ⟨he, hn, hq, hb⟩ | ⟨e, he, -⟩
    · rw [he, List.singleton_append, stringBody, ih]
      all_goals simp_all
    · rw [he, List.cons_append, List.cons_append, List.nil_append, stringBody, ih]
      rfl

/-- **A quoted text can be read back.** -/
theorem Text.unescape_escape (s : List Char) : unescape (s.flatMap escapeChar) = .ok s := by
  induction s with
  | nil => rfl
  | cons c s ih =>
    rw [List.flatMap_cons]
    rcases escapeChar_cases c with ⟨he, -, -, hb⟩ | ⟨e, he, hc⟩
    · rw [he, List.singleton_append, unescape, ih]
      · rfl
      all_goals simp_all
    · rw [he, List.cons_append, List.cons_append, List.nil_append, unescape, hc, ih]
      rfl

/-- **A quoted text is read as itself**, whatever follows. -/
theorem reads_quoted {s : List Char} {rest : List Char} {ts : List Token} (h : Lexes rest ts) :
    Reads (Text.quote s ++ rest) (⟨.stringLiteral, String.ofList (Text.quote s), default⟩ :: ts) := by
  rw [Text.quote, List.cons_append]
  refine .token (by decide) (by decide) (by simp) ?_ h
  rw [Scan.token, if_neg (by simp), if_pos rfl, Scan.string, List.append_assoc,
    List.singleton_append, Scan.stringBody_quoted]
  simp

/-! ## 4. Signs -/

namespace Scan

theorem mem_of_ite {c d : Char} {a k : TokenKind} {later : Option TokenKind} {cs : List Char}
    (h : (if c = d then some a else later) = some k) (hl : later = some k → c ∈ cs) :
    c ∈ d :: cs := by
  split at h
  · rename_i hc
    rw [hc]
    exact List.mem_cons_self ..
  · exact List.mem_cons_of_mem _ (hl h)

theorem mem_of_single? {c : Char} {k : TokenKind} (h : single? c = some k) :
    c ∈ "()[]\x7b\x7d;,.+-*/%=!<>".toList := by
  unfold single? at h
  iterate 18 refine mem_of_ite h fun h => ?_
  cases h

/-- The characters of operators and delimiters start nothing else. -/
theorem single?_spec {c : Char} {k : TokenKind} (h : single? c = some k) :
    (Text.isAsciiBlank c = false ∧ c ≠ byteOrderMark ∧ c ≠ '"' ∧ c.isDigit = false ∧
      isWordStart c = false) ∧ ∀ d, d ≠ '=' → pair? c d = none := by
  have hall : ∀ c ∈ "()[]\x7b\x7d;,.+-*/%=!<>".toList, (Text.isAsciiBlank c = false ∧
      c ≠ byteOrderMark ∧ c ≠ '"' ∧ c.isDigit = false ∧ isWordStart c = false) ∧
      c ≠ '&' ∧ c ≠ '|' := @of_decide_eq_true _ (List.decidableBAll _ _) (by decide)
  obtain ⟨hc, ha, hp⟩ := hall c (mem_of_single? h)
  exact ⟨hc, fun d hd => by simp [pair?, hd, ha, hp]⟩

/-- A sign of one character, in front of what makes no longer token with it. -/
theorem token_of_single? {c : Char} {k : TokenKind} {rest : List Char} (hk : single? c = some k)
    (he : ∀ d, rest.head? = some d → pair? c d = none)
    (hd : c = '.' → ∀ d, rest.head? = some d → d.isDigit = false)
    (hs : c = '/' → rest.head? ≠ some '*') : token c rest = ⟨.ok k, [c], rest⟩ := by
  obtain ⟨⟨-, -, hquote, hdigit, hword⟩, -⟩ := single?_spec hk
  have hcomment : ¬ (c = '/' && rest.head? = some '*') = true := by
    intro hc
    simp only [Bool.and_eq_true, decide_eq_true_eq] at hc
    exact hs hc.1 hc.2
  have hnumber : ¬ startsNumber c rest = true := by
    cases rest with
    | nil => simp [startsNumber, hdigit]
    | cons d rest =>
      simp only [startsNumber, hdigit, Bool.false_or, Bool.and_eq_true, decide_eq_true_eq, not_and]
      intro hdot
      simp [hd hdot d rfl]
  have hsingle : single c rest = ⟨.ok k, [c], rest⟩ := by
    rw [single, hk]
  rw [token, if_neg hcomment, if_neg hquote, if_neg hnumber, if_neg (by simp [hword])]
  cases rest with
  | nil => exact hsingle
  | cons d rest => simp only [operator, he d rfl, hsingle]

end Scan

/-- The text of a kind of tokens that are all spelled alike. -/
def TokenKind.spelling : TokenKind → String
  | classWord => "class"
  | returnWord => "return"
  | yieldWord => "yield"
  | ifWord => "if"
  | elseWord => "else"
  | whileWord => "while"
  | doWord => "do"
  | breakWord => "break"
  | continueWord => "continue"
  | newWord => "new"
  | castWord => "cast"
  | trueWord => "true"
  | falseWord => "false"
  | nullWord => "null"
  | plus => "+"
  | minus => "-"
  | star => "*"
  | slash => "/"
  | percent => "%"
  | equal => "="
  | plusEqual => "+="
  | minusEqual => "-="
  | starEqual => "*="
  | slashEqual => "/="
  | equalEqual => "=="
  | bangEqual => "!="
  | less => "<"
  | lessEqual => "<="
  | greater => ">"
  | greaterEqual => ">="
  | ampAmp => "&&"
  | pipePipe => "||"
  | bang => "!"
  | leftParen => "("
  | rightParen => ")"
  | leftBrace => "\x7b"
  | rightBrace => "\x7d"
  | leftBracket => "["
  | rightBracket => "]"
  | semicolon => ";"
  | comma => ","
  | dot => "."
  | intLiteral | longLiteral | floatLiteral | doubleLiteral | stringLiteral | identifier | eof
  | error => ""

/-- A delimiter, which nothing carries on. -/
def TokenKind.isDelimiter : TokenKind → Bool
  | leftParen | rightParen | leftBrace | rightBrace | leftBracket | rightBracket | semicolon
  | comma => true
  | _ => false

/-- What follows a sign does not carry it on: no word character a keyword, no equality sign any other
sign but a delimiter, and no digit a point, nor a star or slash a slash. -/
def EndsSign (k : TokenKind) (rest : List Char) : Prop :=
  (k.isKeyword = true → EndsWord rest) ∧
    (k.isKeyword = false → k.isDelimiter = false → rest.head? ≠ some '=') ∧
    (k = .dot → ∀ d, rest.head? = some d → d.isDigit = false) ∧
    (k = .slash → rest.head? ≠ some '/' ∧ rest.head? ≠ some '*')

/-- Nothing carries on a delimiter. -/
theorem endsSign_of_isDelimiter {k : TokenKind} (hk : k.isDelimiter = true) (rest : List Char) :
    EndsSign k rest := by
  have hne : k.isKeyword = false ∧ k ≠ .dot ∧ k ≠ .slash := by
    cases k <;> first | decide | cases hk
  refine ⟨fun h => ?_, fun _ h => ?_, fun h => absurd h hne.2.1, fun h => absurd h hne.2.2⟩
  · rw [hne.1] at h
    cases h
  · rw [hk] at h
    cases h

/-- A keyword, in front of what is no word character. -/
theorem reads_keyword {k : TokenKind} {rest : List Char} {ts : List Token} (hkey : k.isKeyword = true)
    (hk : TokenKind.keyword? k.spelling = some k) (hw : Scan.isWord k.spelling.toList = true)
    (hr : EndsSign k rest) (h : Lexes rest ts) :
    Reads (k.spelling.toList ++ rest) (⟨k, k.spelling, default⟩ :: ts) := by
  have := reads_word hw (hr.1 hkey) h
  rwa [hk] at this

/-- A sign of one character. -/
theorem reads_single {k : TokenKind} {c : Char} {rest : List Char} {ts : List Token}
    (hc : k.spelling = String.singleton c) (hs : Scan.single? c = some k) (hkey : k.isKeyword = false)
    (hdelim : k.isDelimiter = true → Scan.pair? c '=' = none) (hdot : c = '.' → k = .dot)
    (hslash : c = '/' → k = .slash) (hr : EndsSign k rest) (h : Lexes rest ts) :
    Reads (k.spelling.toList ++ rest) (⟨k, k.spelling, default⟩ :: ts) := by
  obtain ⟨⟨hblank, hmark, -⟩, hpair⟩ := Scan.single?_spec hs
  have hnext : ∀ d, rest.head? = some d → Scan.pair? c d = none := by
    intro d hd
    by_cases he : d = '='
    · rw [he] at hd ⊢
      cases hk : k.isDelimiter with
      | true => exact hdelim hk
      | false => exact absurd hd (hr.2.1 hkey hk)
    · exact hpair d he
  have htok := Scan.token_of_single? hs hnext (fun h => hr.2.2.1 (hdot h))
    fun h => (hr.2.2.2 (hslash h)).2
  rw [hc, String.toList_singleton, List.singleton_append]
  refine .token hblank hmark (fun h => hr.2.2.2 (hslash h)) ?_ h
  rw [htok, String.toList_singleton]

/-- A sign of two characters, whatever follows. -/
theorem reads_pair {k : TokenKind} {c d : Char} {rest : List Char} {ts : List Token}
    (hcd : k.spelling.toList = [c, d]) (hp : Scan.pair? c d = some k)
    (hstart : Text.isAsciiBlank c = false ∧ c ≠ Scan.byteOrderMark ∧ (d ≠ '/' ∧ d ≠ '*') ∧ c ≠ '"' ∧
      c.isDigit = false ∧ c ≠ '.' ∧ Scan.isWordStart c = false) (h : Lexes rest ts) :
    Reads (k.spelling.toList ++ rest) (⟨k, k.spelling, default⟩ :: ts) := by
  obtain ⟨hblank, hmark, hd, hquote, hdigit, hdot, hword⟩ := hstart
  rw [hcd, List.cons_append]
  refine .token hblank hmark (fun _ => by simp [hd]) ?_ h
  rw [Scan.token, if_neg (by simp [hd]), if_neg hquote,
    if_neg (by simp [Scan.startsNumber, hdigit, hdot]), if_neg (by simp [hword]), hcd]
  simp only [List.cons_append, List.nil_append, Scan.operator, hp]

/-- **A sign is read as itself** in front of what does not carry it on. -/
theorem reads_sign {k : TokenKind} {rest : List Char} {ts : List Token} (hk : k.spelling ≠ "")
    (hr : EndsSign k rest) (h : Lexes rest ts) :
    Reads (k.spelling.toList ++ rest) (⟨k, k.spelling, default⟩ :: ts) := by
  cases k
  case classWord | returnWord | yieldWord | ifWord | elseWord | whileWord | doWord | breakWord
    | continueWord | newWord | castWord | trueWord | falseWord | nullWord =>
    exact reads_keyword rfl (by decide) (by decide) hr h
  case plus => exact reads_single (c := '+') rfl rfl rfl (by decide) (by decide) (by decide) hr h
  case minus => exact reads_single (c := '-') rfl rfl rfl (by decide) (by decide) (by decide) hr h
  case star => exact reads_single (c := '*') rfl rfl rfl (by decide) (by decide) (by decide) hr h
  case slash => exact reads_single (c := '/') rfl rfl rfl (by decide) (by decide) (by decide) hr h
  case percent => exact reads_single (c := '%') rfl rfl rfl (by decide) (by decide) (by decide) hr h
  case equal => exact reads_single (c := '=') rfl rfl rfl (by decide) (by decide) (by decide) hr h
  case less => exact reads_single (c := '<') rfl rfl rfl (by decide) (by decide) (by decide) hr h
  case greater => exact reads_single (c := '>') rfl rfl rfl (by decide) (by decide) (by decide) hr h
  case bang => exact reads_single (c := '!') rfl rfl rfl (by decide) (by decide) (by decide) hr h
  case leftParen => exact reads_single (c := '(') rfl rfl rfl (by decide) (by decide) (by decide) hr h
  case rightParen => exact reads_single (c := ')') rfl rfl rfl (by decide) (by decide) (by decide) hr h
  case leftBrace => exact reads_single (c := '\x7b') rfl rfl rfl (by decide) (by decide) (by decide) hr h
  case rightBrace => exact reads_single (c := '\x7d') rfl rfl rfl (by decide) (by decide) (by decide) hr h
  case leftBracket => exact reads_single (c := '[') rfl rfl rfl (by decide) (by decide) (by decide) hr h
  case rightBracket => exact reads_single (c := ']') rfl rfl rfl (by decide) (by decide) (by decide) hr h
  case semicolon => exact reads_single (c := ';') rfl rfl rfl (by decide) (by decide) (by decide) hr h
  case comma => exact reads_single (c := ',') rfl rfl rfl (by decide) (by decide) (by decide) hr h
  case dot => exact reads_single (c := '.') rfl rfl rfl (by decide) (by decide) (by decide) hr h
  case plusEqual => exact reads_pair (c := '+') (d := '=') rfl rfl (by decide) h
  case minusEqual => exact reads_pair (c := '-') (d := '=') rfl rfl (by decide) h
  case starEqual => exact reads_pair (c := '*') (d := '=') rfl rfl (by decide) h
  case slashEqual => exact reads_pair (c := '/') (d := '=') rfl rfl (by decide) h
  case equalEqual => exact reads_pair (c := '=') (d := '=') rfl rfl (by decide) h
  case bangEqual => exact reads_pair (c := '!') (d := '=') rfl rfl (by decide) h
  case lessEqual => exact reads_pair (c := '<') (d := '=') rfl rfl (by decide) h
  case greaterEqual => exact reads_pair (c := '>') (d := '=') rfl rfl (by decide) h
  case ampAmp => exact reads_pair (c := '&') (d := '&') rfl rfl (by decide) h
  case pipePipe => exact reads_pair (c := '|') (d := '|') rfl rfl (by decide) h
  all_goals exact absurd rfl hk

end Recast
