/-
# Tokens of texts that fit into 32 bits

What is printed for a literal, and what is left of a text when one blank stands between each two of
its tokens, are texts of their own.  Their tokens are known where these texts are small; a string
that is printed as a larger text does not survive.

* `Survives v`: the text of a literal is one token with 32 bits, which is read as the literal again;
* `literals_survive_of_small`: **a string survives exactly if it is printed as a small text, and every
  integer survives**;
* `lexed_two_names`, `reads_three_names`: the tokens of names with many blanks between them;
* `tokenize_spaced_of_small`: **a small text keeps its tokens when all that stands between them is a
  blank**, if this is a small text as well.
-/
import Recast.Proofs.Narrow.Lexer
import Recast.Proofs.Token.LiteralText
import Recast.Proofs.Token.Spaced

namespace Recast.Narrow

open Text (byteSize)

variable {text : String} {cs : List Char} {t t' : Token} {s s' : Span}

/-! ## 1. Literals -/

/-- The text of the literal is one token of its kind, at a place of 32 bits, and the value of that
token is the literal. -/
structure Survives (v : Literal) : Prop where
  covers : tokenize v.text = some ([.whole v.kind v.text, .endOf v.text], [])
  value : Literal.ofToken (.whole v.kind v.text) = .ok v

theorem survives_of_small {v : Literal} (hv : v.Survives) (h : Small v.text) : Survives v := by
  refine ⟨?_, hv.value⟩
  rw [tokenize_of_small h, hv.covers]

/-- A string is written on one line. -/
theorem newline_not_mem_quote (cs : List Char) : '\n' ∉ Text.quote cs := by
  have hchar : ∀ c : Char, '\n' ∉ Text.escapeChar c := by
    intro c hmem
    rcases Text.escapeChar_cases c with ⟨he, hn, -⟩ | ⟨e, he, hc⟩
    · rw [he, List.mem_singleton] at hmem
      exact hn hmem.symm
    · rw [he] at hmem
      obtain rfl : '\n' = e := by simpa using hmem
      cases hc
  rw [Text.quote]
  simp [hchar]

/-- A text on one line whose end keeps its place is small. -/
theorem small_of_span?_endOf (hline : '\n' ∉ text.toList)
    (h : span? (Token.endOf text).span = some (Token.endOf text).span) : Small text := by
  have hoffset : cut (byteSize text.toList) = byteSize text.toList := by
    have := congrArg Span.offset (span?_eq_some_iff.mp h).2
    exact this
  obtain ⟨-, hcol⟩ := (span?_eq_some_iff.mp h).1.1
  rw [Token.span_endOf, Span.between, Position.col_after_of_not_mem _ hline] at hcol
  have hsub : Position.start.col + byteSize text.toList - 1 = byteSize text.toList :=
    Nat.add_sub_cancel_left ..
  rw [hsub, hoffset] at hcol
  exact hcol

theorem byteSize_le_length (cs : List Char) : byteSize cs ≤ 4 * cs.length := by
  induction cs with
  | nil => exact Nat.le_refl 0
  | cons c cs ih =>
    have := c.utf8Size_le_four
    rw [Text.byteSize_cons, List.length_cons]
    omega

/-- A text of twenty characters is small. -/
theorem small_of_length_le (h : text.length ≤ 20) : Small text := by
  have hle := byteSize_le_length text.toList
  rw [String.length_toList] at hle
  exact Nat.lt_of_le_of_lt (show byteSize text.toList + 1 ≤ 81 by omega) (by decide)

/-- An integer in range is written with nineteen digits at most. -/
theorem small_integer {v : Int} (h₀ : 0 ≤ v) (h : v ≤ 9223372036854775807) :
    Small (Literal.int v).text ∧ Small (Literal.long v).text := by
  obtain ⟨n, rfl⟩ := Int.eq_ofNat_of_zero_le h₀
  have hlength : (toString n).length ≤ 19 := (Nat.length_repr_le_iff (by decide)).mpr (by omega)
  refine ⟨small_of_length_le (Nat.le_succ_of_le hlength), small_of_length_le ?_⟩
  have hlong : (Literal.long n).text = toString n ++ "L" := rfl
  rw [hlong, String.length_append]
  exact Nat.succ_le_succ hlength

/-- A string that survives is printed as a small text: its end is handed out at its own place. -/
theorem small_of_survives {v : String} (h : Survives (.string v)) : Small (Literal.string v).text := by
  obtain ⟨htoks, -⟩ := tokenize_eq_some h.covers
  rw [(Literal.strings_integers_survive.1 v).covers] at htoks
  obtain ⟨-, hend⟩ := List.forall₂_cons.mp htoks
  obtain ⟨hend, -⟩ := List.forall₂_cons.mp hend
  obtain ⟨span, lexeme, hspan, -, he⟩ := token?_eq_some_iff.mp hend
  refine small_of_span?_endOf ?_ (hspan.trans (congrArg (fun t => some t.span) he))
  rw [Literal.text, String.toList_ofList]
  exact newline_not_mem_quote _

/-- A string is written with one byte at least for each of its characters. -/
theorem length_le_byteSize_quote (cs : List Char) : cs.length ≤ byteSize (Text.quote cs) := by
  have hbody : cs.length ≤ byteSize (cs.flatMap Text.escapeChar) := by
    induction cs with
    | nil => exact Nat.le_refl 0
    | cons c cs ih =>
      have hpos : 0 < byteSize (Text.escapeChar c) := by
        refine byteSize_pos fun hnil => ?_
        rcases Text.escapeChar_cases c with ⟨he, -⟩ | ⟨e, he, -⟩ <;> simp [he] at hnil
      rw [List.flatMap_cons, Text.byteSize_append, List.length_cons]
      omega
  rw [Text.quote, Text.byteSize_cons, Text.byteSize_append]
  omega

/-- **A string survives printing exactly if it is printed as a small text, and every integer from zero
to `2 ^ 63 - 1` survives**, the greatest one that fits into 64 bits with a sign. -/
theorem literals_survive_of_small :
    (∀ v : String, Survives (.string v) ↔ Small (Literal.string v).text) ∧
    ∀ v : Int, 0 ≤ v → v ≤ 9223372036854775807 → Survives (.int v) ∧ Survives (.long v) := by
  obtain ⟨hstring, hinteger⟩ := Literal.strings_integers_survive
  refine ⟨fun v => ⟨small_of_survives, survives_of_small (hstring v)⟩, fun v h₀ hv => ?_⟩
  obtain ⟨hint, hlong⟩ := hinteger v h₀ hv
  obtain ⟨hsmall, hsmall'⟩ := small_integer h₀ hv
  exact ⟨survives_of_small hint hsmall, survives_of_small hlong hsmall'⟩

/-- A string with a quote, a line break and a backslash at its end, and the greatest integer. -/
theorem literals_survive_at_edges : Survives (.string "\"\n\\") ∧
    Survives (.int 9223372036854775807) ∧ Survives (.long 9223372036854775807) :=
  ⟨(literals_survive_of_small.1 _).mpr (by decide +kernel),
    literals_survive_of_small.2 9223372036854775807 (by decide) (by decide)⟩

/-- **A string of `2 ^ 32` characters does not survive.** -/
theorem huge_string_lost : ¬ Survives (.string (String.ofList (List.replicate size 'a'))) := by
  intro h
  have hsmall := small_of_survives h
  have hle := length_le_byteSize_quote (List.replicate size 'a')
  rw [Small, Literal.text, String.toList_ofList, String.toList_ofList] at hsmall
  rw [List.length_replicate] at hle
  omega

/-! ## 2. Tokens with blanks between them -/

/-- Whatever the size of a text that is read as tokens without errors: if tokens are handed out for it,
they are of the kinds of these. -/
theorem kinds_of_lexes {text : String} {ts toks : List Token} {errors : List LexError}
    (h : Lexes text.toList ts) (hok : ∀ a ∈ ts, a.kind ≠ .error)
    (htoks : tokenize text = some (toks, errors)) :
    errors = [] ∧ toks.map (·.kind) = ts.map (·.kind) ++ [TokenKind.eof] := by
  obtain ⟨hnone, toks', hall, hbare⟩ := tokenize_of_lexes h hok
  obtain ⟨hhanded, herrors⟩ := tokenize_eq_some htoks
  rw [hnone, List.forall₂_nil_left_iff] at herrors
  have hkinds : toks'.map (·.kind) = ts.map (·.kind) := by
    simpa [Token.bare, Function.comp_def] using congrArg (List.map Prod.fst) hbare
  refine ⟨herrors, ?_⟩
  rw [hhanded.map_kind, hall, List.map_append, hkinds]
  rfl

theorem endsWord_blanks {n : Nat} (hn : 0 < n) (cs : List Char) :
    EndsWord (List.replicate n ' ' ++ cs) := by
  obtain ⟨n, rfl⟩ := Nat.exists_eq_succ_of_ne_zero (Nat.ne_of_gt hn)
  rw [List.replicate_succ, List.cons_append]
  exact (Halts.blank _).endsWord

/-- Two names with blanks between them, and the characters after them. -/
theorem lexed_two_names {n : Nat} (hn : 0 < n) {back : List Char} (hback : EndsWord back) :
    Lexed .start (apart ['y'] n ('x' :: back)).toList
      [⟨.identifier, "y", ⟨0, 1, 1, 1⟩⟩, ⟨.identifier, "x", ⟨1 + n, 1, 1, 2 + n⟩⟩]
      ⟨1 + n + 1, 1, 2 + n + 1⟩ back := by
  have hword : ∀ {c : Char} {cs : List Char}, Scan.isWordStart c = true → EndsWord cs →
      Scan.token c cs = ⟨.ok ((TokenKind.keyword? (String.ofList [c])).getD .identifier), [c], cs⟩ := by
    intro c cs hc hcs
    have hall : ∀ d ∈ [c], Scan.isWordChar d = true := by
      simpa using Scan.isWordChar_of_isWordStart hc
    obtain ⟨htake, hdrop⟩ := takeWhile_append_of_all hall hcs
    rw [List.singleton_append] at htake hdrop
    rw [Scan.token_of_isWordStart hc, Scan.word, htake, hdrop]
  have hlast := Lexed.after_blanks (p := ⟨1, 1, 2⟩) n
    ⟨'x', back, rfl, by decide, by decide, by simp⟩ (hword (by decide) hback) .nil
  have hfirst := Lexed.after_blanks (p := .start) 0 ⟨'y', _, rfl, by decide, by decide, by simp⟩
    (hword (by decide) (endsWord_blanks hn _)) hlast
  rw [toList_apart]
  exact hfirst

/-- Three names with blanks between them, and the characters after them. -/
theorem reads_three_names {n : Nat} (hn : 0 < n) {back : List Char} {ts : List Token}
    (hback : EndsWord back) (h : Lexes back ts) :
    Reads (apart ['y', ' ', 'y'] n ('x' :: back)).toList
      (⟨.identifier, "y", default⟩ :: ⟨.identifier, "y", default⟩ ::
        ⟨.identifier, "x", default⟩ :: ts) := by
  have hblanks : ∀ b ∈ List.replicate n ' ', Text.isAsciiBlank b = true := by
    intro b hb
    rw [List.eq_of_mem_replicate hb]
    rfl
  have hx : Reads ("x".toList ++ back) _ := reads_word (by decide) hback h
  have hy : Reads ("y".toList ++ (List.replicate n ' ' ++ ("x".toList ++ back))) _ :=
    reads_word (by decide) (endsWord_blanks hn _) (hx.blanks hblanks).2
  have hfirst : Reads ("y".toList ++ ' ' :: ("y".toList ++ _)) _ :=
    reads_word (by decide) (Halts.blank _).endsWord (hy.blank rfl).2
  rw [toList_apart]
  exact hfirst

/-- **A small text keeps its tokens when all that stands between them is a blank**, if the text that
this makes is small as well: if it has no errors, its tokens written with one blank between each
two of them are read without errors as tokens of the same kinds and spellings. -/
theorem tokenize_spaced_of_small (text : String) (toks : List Token) (hsmall : Small text)
    (hspaced : Small (spaced toks)) (h : tokenize text = some (toks, [])) :
    ∃ toks', tokenize (spaced toks) = some (toks', []) ∧
      toks'.map Token.bare = toks.map Token.bare := by
  obtain ⟨rfl, hnone⟩ := hsmall.tokenize_eq h
  obtain ⟨herrors, hbare⟩ := tokenize_spaced text hnone
  refine ⟨_, ?_, hbare⟩
  rw [tokenize_of_small hspaced, ← herrors]

/-- Tokens that touch one another or a comment. -/
theorem tokenize_spaced_of_touching :
    spaced (Recast.tokenize "x.5/*c*/+=1..y//z").1 = "x .5 += 1 . . y" ∧
      ∃ toks', tokenize "x .5 += 1 . . y" = some (toks', []) ∧
        toks'.map Token.bare = (Recast.tokenize "x.5/*c*/+=1..y//z").1.map Token.bare := by
  have hspaced : spaced (Recast.tokenize "x.5/*c*/+=1..y//z").1 = "x .5 += 1 . . y" := by
    decide +kernel
  have hsmall : Small "x.5/*c*/+=1..y//z" := by decide +kernel
  have hnone : (Recast.tokenize "x.5/*c*/+=1..y//z").2 = [] := by decide +kernel
  refine ⟨hspaced, ?_⟩
  rw [← hspaced]
  refine tokenize_spaced_of_small _ _ hsmall (by decide +kernel) ?_
  rw [tokenize_of_small hsmall, ← hnone]

/-- **Two names become three**, if the second one stands `2 ^ 32` bytes after the first: its spelling
has the first one in it. -/
theorem spaced_names_differ : ∃ toks, tokenize (apart ['y'] (size - 1) ['x']) = some (toks, []) ∧
    ¬ ∃ toks', tokenize (spaced toks) = some (toks', []) ∧
      toks'.map Token.bare = toks.map Token.bare := by
  have hends : EndsWord [] := by simp [EndsWord]
  have hlex := lexed_two_names (n := size - 1) (by decide) hends
  have hslash : SlashesPlaced (Lexer.ofText (apart ['y'] (size - 1) ['x'])) :=
    slashesPlaced_of_not_mem (by simp [List.mem_replicate])
  -- the end of the text is handed out as the characters after the first name
  obtain ⟨s, hend⟩ := token?_endOf_apart (toList_apart ['y'] (size - 1) ['x']) (by decide) (by decide)
  have htoks := tokenize_of_handedOut hlex rfl hslash (handedOut_apart rfl rfl [] _ _) hend
    (errors_of_lexed hlex rfl (by simp))
  refine ⟨_, htoks, ?_⟩
  rintro ⟨toks', htoks', hbare⟩
  -- what stands between the tokens now is read as three names and the end of the text
  have hspaced : spaced ([⟨.identifier, "y", ⟨0, 1, 1, 1⟩⟩,
      ⟨.identifier, apart ['y'] (size - 1) ['x'], ⟨0, 1, 1, 1⟩⟩] ++
      [⟨.eof, String.ofList (List.replicate (size - 1) ' ' ++ ['x']), s⟩]) =
      apart ['y', ' ', 'y'] (size - 1) ['x'] := by
    rw [← String.toList_inj]
    simp [spaced, Text.join, Text.joinTail]
  have hreads := reads_three_names (n := size - 1) (by decide) hends Reads.nil.2
  obtain ⟨-, hkinds⟩ := kinds_of_lexes hreads.2 (by simp) (hspaced ▸ htoks')
  have hfour : toks'.length = 4 := by simpa using congrArg List.length hkinds
  have hthree : toks'.length = 3 := by simpa using congrArg List.length hbare
  omega

end Recast.Narrow
