/-
# Texts that are read as tokens

A text is read as some tokens if it is so wherever it stands, in front of anything that does not carry
on its last token, and however its lines are indented.  Such texts can be put together, with blanks
between them or without.

* `Clear cs`: the characters carry on no word, no number and no operator;
* `Prints closed text ts`: the text is read as the tokens `ts` in front of clear characters, or in
  front of anything if it is closed.  It does not start with an equality sign, so that it can stand
  after an operator;
* `Prints.append`, `Prints.after`, `Prints.operator`, `Prints.member`: how texts are put together;
* `PrintsLines text ts`: the same for whole lines.
-/
import Recast.Document
import Recast.Proofs.Token.Reads

namespace Recast

open Document (indentLines)

/-! ## 1. Clear characters -/

/-- The characters do not carry on a token before them. -/
def Clear (cs : List Char) : Prop := EndsNumber cs ∧ cs.head? ≠ some '='

/-- A character that carries nothing on. -/
def Scan.isBreak (c : Char) : Bool := !isWordChar c && c ≠ '=' && c ≠ '.'

namespace Clear

theorem nil : Clear [] := ⟨⟨by simp [EndsWord], by simp⟩, by simp⟩

theorem cons {c : Char} (h : Scan.isBreak c = true) (cs : List Char) : Clear (c :: cs) := by
  simp only [Scan.isBreak, Bool.and_eq_true, Bool.not_eq_true', decide_eq_true_eq] at h
  refine ⟨⟨fun d hd => ?_, fun d tail hd => ?_⟩, fun hd => h.1.2 (Option.some.inj hd)⟩
  · rw [← Option.some.inj hd]
    exact h.1.1
  · exact absurd (List.cons.inj hd).1 h.2

/-- A point does not carry a number on if no digit follows. -/
theorem dot {cs : List Char} (h : ∀ d, cs.head? = some d → d.isDigit = false) :
    Clear ('.' :: cs) := by
  refine ⟨⟨fun d hd => ?_, fun d tail hd => ?_⟩, by simp⟩
  · rw [← Option.some.inj hd]
    decide
  · cases hd
    exact h d rfl

theorem endsSign {cs : List Char} {k : TokenKind} (h : Clear cs) (hd : k ≠ .dot) (hs : k ≠ .slash) :
    EndsSign k cs :=
  ⟨fun _ => h.1.1, fun _ _ => h.2, fun hk => absurd hk hd, fun hk => absurd hk hs⟩

end Clear

/-- A blank carries no sign on. -/
theorem endsSign_blank (k : TokenKind) (cs : List Char) : EndsSign k (' ' :: cs) := by
  refine ⟨fun _ c hc => ?_, by simp, fun _ d hd => ?_, by simp⟩
  · cases hc
    decide
  · cases hd
    decide

/-! ## 2. Indented lines -/

section Indent

variable {indent cs : List Char}

/-- Only blanks. -/
def Blanks (cs : List Char) : Prop := ∀ b ∈ cs, Text.isAsciiBlank b = true

instance (cs : List Char) : Decidable (Blanks cs) :=
  List.decidableBAll _ cs

theorem indentLines_append (as bs : List Char) :
    indentLines indent (as ++ bs) = indentLines indent as ++ indentLines indent bs :=
  List.flatMap_append

theorem indentLines_of_not_mem (h : '\n' ∉ cs) : indentLines indent cs = cs := by
  induction cs with
  | nil => rfl
  | cons c cs ih =>
    simp only [List.mem_cons, not_or] at h
    rw [indentLines, List.flatMap_cons, if_neg (Ne.symm h.1)]
    exact congrArg (c :: ·) (ih h.2)

theorem indentLines_nil (cs : List Char) : indentLines [] cs = cs := by
  induction cs with
  | nil => rfl
  | cons c cs ih =>
    rw [indentLines, List.flatMap_cons]
    split
    · rename_i hc
      rw [hc]
      exact congrArg ('\n' :: ·) ih
    · exact congrArg (c :: ·) ih

theorem head?_indentLines (cs : List Char) : (indentLines indent cs).head? = cs.head? := by
  cases cs with
  | nil => rfl
  | cons c cs =>
    rw [indentLines, List.flatMap_cons]
    split
    · rename_i hc
      rw [hc]
      rfl
    · rfl

theorem Blanks.indentLines (hi : Blanks indent) (h : Blanks cs) :
    Blanks (indentLines indent cs) := by
  intro b hb
  obtain ⟨c, hc, hb⟩ := List.mem_flatMap.mp hb
  split at hb
  · rcases List.mem_cons.mp hb with rfl | hb
    · decide
    · exact hi b hb
  · rw [List.mem_singleton.mp hb]
    exact h c hc

end Indent

/-! ## 3. Texts -/

/-- The token of a kind whose tokens are all spelled alike. -/
def TokenKind.token (k : TokenKind) : Token := ⟨k, k.spelling, default⟩

/-- The text is read as the tokens `ts`, in front of clear characters, and in front of any if it is
closed. -/
structure Prints (closed : Bool) (text : String) (ts : List Token) : Prop where
  opens : ∃ c, text.toList.head? = some c ∧ c ≠ '='
  closes : closed = true → ∃ c, text.toList.getLast? = some c ∧ Text.isBlank c = false
  reads : ∀ {indent rest us}, Blanks indent → (closed = false → Clear rest) → Lexes rest us →
    Reads (indentLines indent text.toList ++ rest) (ts ++ us)

/-- A sign that can stand on its own: anything but a point, a slash and what starts with an equality
sign. -/
def TokenKind.standsAlone (k : TokenKind) : Bool :=
  k ≠ .dot && k ≠ .slash && k.spelling.toList.head?.any (· ≠ '=')

theorem TokenKind.standsAlone_spec {k : TokenKind} (h : k.standsAlone = true) :
    (∃ c, k.spelling.toList.head? = some c ∧ c ≠ '=') ∧ k.spelling ≠ "" ∧ k ≠ .dot ∧ k ≠ .slash := by
  simp only [standsAlone, Bool.and_eq_true, decide_eq_true_eq, Option.any_eq_true] at h
  obtain ⟨⟨hd, hs⟩, c, hc, hne⟩ := h
  refine ⟨⟨c, hc, hne⟩, fun he => ?_, hd, hs⟩
  rw [he] at hc
  cases hc

theorem TokenKind.newline_not_mem_spelling (k : TokenKind) : '\n' ∉ k.spelling.toList := by
  cases k <;> decide

/-- The text starts with a character that carries nothing on. -/
def Breaks (text : String) : Prop := text.toList.head?.any Scan.isBreak = true

instance (text : String) : Decidable (Breaks text) := inferInstanceAs (Decidable (_ = true))

theorem Breaks.clear {text : String} (h : Breaks text) (indent rest : List Char) :
    Clear (indentLines indent text.toList ++ rest) := by
  obtain ⟨c, hc, hb⟩ := Option.any_eq_true .. |>.mp h
  rw [← @head?_indentLines indent] at hc
  cases hl : indentLines indent text.toList with
  | nil =>
    rw [hl] at hc
    cases hc
  | cons d cs =>
    rw [hl] at hc
    cases hc
    exact .cons hb _

theorem Breaks.append {text : String} (h : Breaks text) (more : String) : Breaks (text ++ more) := by
  obtain ⟨c, hc, hb⟩ := Option.any_eq_true .. |>.mp h
  refine Option.any_eq_true .. |>.mpr ⟨c, ?_, hb⟩
  rw [String.toList_append, List.head?_append, hc]
  rfl

namespace Prints

variable {a b : Bool} {text more : String} {ts us : List Token} {k : TokenKind}

theorem opens_append (h : Prints b text ts) (more : String) :
    ∃ c, (text ++ more).toList.head? = some c ∧ c ≠ '=' := by
  obtain ⟨c, hc, hne⟩ := h.opens
  refine ⟨c, ?_, hne⟩
  rw [String.toList_append, List.head?_append, hc]
  rfl

theorem closes_append (h : Prints b more us) (text : String) (hb : b = true) :
    ∃ c, (text ++ more).toList.getLast? = some c ∧ Text.isBlank c = false := by
  obtain ⟨c, hc, hne⟩ := h.closes hb
  refine ⟨c, ?_, hne⟩
  rw [String.toList_append, List.getLast?_append, hc]
  rfl

/-- A text on one line. -/
theorem leaf (ho : ∃ c, text.toList.head? = some c ∧ c ≠ '=') (hn : '\n' ∉ text.toList)
    (h : ∀ {rest us}, Clear rest → Lexes rest us → Reads (text.toList ++ rest) (ts ++ us)) :
    Prints false text ts := by
  refine ⟨ho, by simp, fun _ hr hreads => ?_⟩
  rw [indentLines_of_not_mem hn]
  exact h (hr rfl) hreads

/-- One text after another, where the second carries nothing on. -/
theorem append (h : Prints a text ts) (h' : Prints b more us) (hb : Breaks more) :
    Prints b (text ++ more) (ts ++ us) := by
  refine ⟨h.opens_append more, h'.closes_append text, fun hi hr hreads => ?_⟩
  rw [String.toList_append, indentLines_append, List.append_assoc, List.append_assoc]
  exact h.reads hi (fun _ => hb.clear _ _) (h'.reads hi hr hreads).2

/-- A sign alone. -/
theorem sign (hk : k.standsAlone = true) : Prints false k.spelling [k.token] := by
  obtain ⟨hopen, hne, hd, hs⟩ := k.standsAlone_spec hk
  exact .leaf hopen k.newline_not_mem_spelling fun hr hreads =>
    reads_sign hne (hr.endsSign hd hs) hreads

/-- A delimiter alone. -/
theorem delimiter (hk : k.isDelimiter = true) : Prints true k.spelling [k.token] := by
  have hspec : k.standsAlone = true ∧ k.spelling.toList.getLast?.any (!Text.isBlank ·) = true := by
    cases k <;> first | decide | cases hk
  obtain ⟨hopen, hne, -⟩ := k.standsAlone_spec hspec.1
  refine ⟨hopen, fun _ => ?_, fun _ _ hreads => ?_⟩
  · obtain ⟨c, hc, hb⟩ := Option.any_eq_true .. |>.mp hspec.2
    exact ⟨c, hc, by simpa using hb⟩
  · rw [indentLines_of_not_mem k.newline_not_mem_spelling]
    exact reads_sign hne (endsSign_of_isDelimiter hk _) hreads

/-- A text directly after a sign that is no word. -/
theorem after (h : Prints b text ts) (hk : k.standsAlone = true) (hw : k.isKeyword = false) :
    Prints b (k.spelling ++ text) (k.token :: ts) := by
  obtain ⟨⟨c, hc, hne⟩, hspell, hd, hs⟩ := k.standsAlone_spec hk
  refine ⟨⟨c, ?_, hne⟩, h.closes_append _, fun {indent rest us} hi hr hreads => ?_⟩
  · rw [String.toList_append, List.head?_append, hc]
    rfl
  · obtain ⟨d, hd', hne'⟩ := h.opens
    rw [String.toList_append, indentLines_append, List.append_assoc,
      indentLines_of_not_mem k.newline_not_mem_spelling]
    refine reads_sign hspell ⟨fun hk' => ?_, fun _ _ he => ?_, fun hk' => absurd hk' hd,
      fun hk' => absurd hk' hs⟩ (h.reads hi hr hreads).2
    · rw [hw] at hk'
      cases hk'
    · rw [List.head?_append, head?_indentLines, hd'] at he
      exact hne' (Option.some.inj he)

/-- Blanks before a text. -/
theorem blanks (h : Prints b text ts) {bs : String} (hb : Blanks bs.toList) :
    Prints b (bs ++ text) ts := by
  refine ⟨?_, h.closes_append bs, fun {indent rest us} hi hr hreads => ?_⟩
  · cases hl : bs.toList with
    | nil =>
      rw [String.toList_append, hl]
      exact h.opens
    | cons d cs =>
      refine ⟨d, by rw [String.toList_append, hl]; rfl, ?_⟩
      rintro rfl
      have := hb '=' (by rw [hl]; exact List.mem_cons_self ..)
      revert this
      decide
  · rw [String.toList_append, indentLines_append, List.append_assoc]
    exact (h.reads hi hr hreads).blanks (hi.indentLines hb)

theorem blank (h : Prints b text ts) : Prints b (" " ++ text) ts := h.blanks (by decide)

/-- An operator with a blank on each side, before a text. -/
theorem operator (h : Prints b text ts) (hk : k.spelling ≠ "") :
    Prints b (" " ++ (k.spelling ++ (" " ++ text))) (k.token :: ts) := by
  refine ⟨⟨' ', by rw [String.toList_append]; rfl, by decide⟩, fun hb => ?_,
    fun {indent rest us} hi hr hreads => ?_⟩
  · rw [← String.append_assoc, ← String.append_assoc]
    exact h.closes_append _ hb
  · have hblank := (h.reads hi hr hreads).blank (b := ' ') (by decide)
    have hone : ∀ cs : List Char, indentLines indent (" ".toList ++ cs) =
        ' ' :: indentLines indent cs := fun _ => rfl
    rw [String.toList_append, hone, String.toList_append, indentLines_append,
      indentLines_of_not_mem k.newline_not_mem_spelling, String.toList_append, hone,
      List.cons_append, List.append_assoc, List.cons_append]
    exact (reads_sign hk (endsSign_blank k _) hblank.2).blank (by decide)

/-- A name after a point. -/
theorem member {name : String} (h : Prints b text ts) (hn : Prints a name us)
    (hd : ∀ c, name.toList.head? = some c → c.isDigit = false) :
    Prints a (text ++ ("." ++ name)) (ts ++ TokenKind.dot.token :: us) := by
  refine ⟨h.opens_append _, fun ha => ?_, fun {indent rest vs} hi hr hreads => ?_⟩
  · rw [← String.append_assoc]
    exact hn.closes_append _ ha
  obtain ⟨c, hc, hne⟩ := hn.opens
  have hhead : (indentLines indent name.toList ++ rest).head? = some c := by
    rw [List.head?_append, head?_indentLines, hc]
    rfl
  have hdigit : ∀ d, (indentLines indent name.toList ++ rest).head? = some d →
      d.isDigit = false := by
    intro d hd'
    rw [hhead] at hd'
    cases hd'
    exact hd c hc
  have hdot : EndsSign .dot (indentLines indent name.toList ++ rest) := by
    refine ⟨by simp [TokenKind.isKeyword], fun _ _ he => ?_, fun _ => hdigit, by simp⟩
    rw [hhead] at he
    exact hne (Option.some.inj he)
  have hname := reads_sign (k := .dot) (by decide) hdot (hn.reads hi hr hreads).2
  have hone : indentLines indent (".".toList ++ name.toList) =
      '.' :: indentLines indent name.toList := rfl
  rw [String.toList_append, String.toList_append, indentLines_append, hone, List.append_assoc,
    List.append_assoc, List.cons_append]
  exact h.reads hi (fun _ => .dot hdigit) hname.2

end Prints

/-! ## 4. Lines -/

/-- The text is read as the tokens `ts`, in front of anything that may stand after a blank. -/
def PrintsLines (text : String) (ts : List Token) : Prop :=
  ∀ {indent rest us}, Blanks indent → Reads rest us →
    Reads (indentLines indent text.toList ++ rest) (ts ++ us)

theorem PrintsLines.nil : PrintsLines "" [] := fun _ h => h

theorem PrintsLines.append {text more : String} {ts us : List Token} (h : PrintsLines text ts)
    (h' : PrintsLines more us) : PrintsLines (text ++ more) (ts ++ us) := by
  intro indent rest vs hi hreads
  rw [String.toList_append, indentLines_append, List.append_assoc, List.append_assoc]
  exact h hi (h' hi hreads)

/-- A text with a line break after it fills its lines. -/
theorem Prints.line {b : Bool} {text : String} {ts : List Token} (h : Prints b text ts) :
    PrintsLines (text ++ "\n") ts := by
  intro indent rest us hi hreads
  rw [String.toList_append, indentLines_append, List.append_assoc]
  have hbreak : Blanks (indentLines indent "\n".toList) := hi.indentLines (by decide)
  have hclear : Clear (indentLines indent "\n".toList ++ rest) := .cons (by decide) _
  exact h.reads hi (fun _ => hclear) (hreads.blanks hbreak).2

/-- A text after lines, from the end of the line before them. -/
theorem Prints.lines {b : Bool} {text lines : String} {ts us : List Token} (h : Prints b text us)
    (hl : PrintsLines lines ts) : Prints b ("\n" ++ (lines ++ text)) (ts ++ us) := by
  refine ⟨⟨'\n', by rw [String.toList_append]; rfl, by decide⟩, fun hb => ?_,
    fun {indent rest vs} hi hr hreads => ?_⟩
  · rw [← String.append_assoc]
    exact h.closes_append _ hb
  · have hbreak : Blanks (indentLines indent "\n".toList) := hi.indentLines (by decide)
    rw [String.toList_append, indentLines_append, String.toList_append, indentLines_append,
      List.append_assoc, List.append_assoc, List.append_assoc]
    exact (hl hi (h.reads hi hr hreads)).blanks hbreak

end Recast
