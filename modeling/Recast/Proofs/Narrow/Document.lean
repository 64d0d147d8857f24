/-
# Programs that fit into 32 bits

The tree and the errors of a small text are the same with and without the bound, and so are their
places.  In a larger text a place may be that of something else: the root of as many blanks as there
are numbers of 32 bits covers none of them, and two errors may be at one place.

* `Lexed.unquotable`: a string literal starts with a quote, so where nothing is cut its first byte can
  be taken away;
* `parseLenient_of_small`, `parse_of_small`: **a small text is read as it is without the bound**;
* `parseLenient_of_tokenize`: any text is read from the tokens that are handed out for it;
* `parseLenient_spans_of_small`, `parseLenient_locates_of_small`, `parseLenient_errors_of_small`:
  **what is known of the spans of a tree, of the search for a node and of the errors**;
* `parseLenient_blanks`, `errors_at_one_place`: what becomes of them in a larger text.
-/
import Mathlib
import Recast.Narrow.Document
import Recast.Proofs.Document.Spans
import Recast.Proofs.Fix.Locate
import Recast.Proofs.Narrow.Lexer
import Recast.Proofs.Parser.ErrorOrder
import Recast.Proofs.Token.Agrees
import Recast.Proofs.Token.Local

namespace Recast

open Text (byteSize)

/-! ## 1. Trees and errors -/

/-- What is read as a string literal or a number starts with a character of one byte. -/
theorem Scan.utf8Size_of_literal {c : Char} {cs : List Char} {k : TokenKind}
    (h : (token c cs).result = .ok k) (hk : k.isLiteral = true) : c.utf8Size = 1 := by
  have hdigit : c.isDigit = true → c.utf8Size = 1 := by
    intro hd
    simp only [Char.isDigit, Bool.and_eq_true, decide_eq_true_eq, ge_iff_le] at hd
    have hle : c.val ≤ 0x7f := UInt32.le_trans hd.2 (by decide)
    exact if_pos hle
  have hsolid : ∀ {lexeme : String}, lexeme = k.spelling → lexeme = "" := by
    rintro lexeme rfl
    exact TokenKind.spelling_of_isLiteral hk
  rcases token_cases h with ⟨rfl, -⟩ | ⟨hstart, -⟩ | ⟨-, -, rfl, -⟩ | ⟨-, hkey⟩ | ⟨d, hpair, -⟩ |
    ⟨hone, -⟩
  · rfl
  · simp only [startsNumber, Bool.or_eq_true, Bool.and_eq_true, decide_eq_true_eq] at hstart
    rcases hstart with hd | ⟨rfl, -⟩
    · exact hdigit hd
    · rfl
  · cases hk
  · have := hsolid (spelling_of_keyword? hkey)
    simp [token_lexeme_ne_nil] at this
  · simpa using hsolid (spelling_of_pair? hpair)
  · simpa using hsolid (spelling_of_single? hone)

/-- The quotes of the string literals of a text can be taken away. -/
theorem Lexed.unquotable {pos stop : Position} {cs rest : List Char} {toks : List Token}
    (h : Lexed pos cs toks stop rest) {t : Token} (ht : t ∈ toks) : Narrow.unquotable t = true := by
  obtain ⟨start, c, tail, rfl⟩ := h.exists_scanned ht
  by_cases hk : (Token.scanned start (Scan.token c tail)).kind = .stringLiteral
  · have hc := Scan.utf8Size_of_literal (Token.result_of_kind hk (by decide)) rfl
    obtain ⟨s, hs, -⟩ := Scan.token_lexeme_eq_cons c tail
    simp [Narrow.unquotable, Token.scanned, hs, hc]
  · simp [Narrow.unquotable, hk]

namespace Narrow

variable {text : String}

/-- **The tree and the errors of a small text are the same with and without the bound.** -/
theorem parseLenient_of_small (h : Small text) :
    parseLenient text = some (Recast.parseLenient text) := by
  have hall : (Recast.tokenize text).1.all unquotable = true := by
    obtain ⟨toks, stop, rest, hlex, -, htoks, -⟩ := tokenize_eq text
    rw [htoks, List.all_append, Bool.and_eq_true, List.all_eq_true]
    exact ⟨fun t ht => hlex.unquotable ht, rfl⟩
  have hcut : cut (byteSize text.toList) = byteSize text.toList := cut_of_lt (Nat.lt_of_succ_lt h)
  simp only [parseLenient, tokenize_of_small h, Option.bind_eq_bind, Option.bind_some, hall,
    if_true, hcut]
  rw [Recast.parseLenient, Parser.ofText]
  generalize Parse.program (.ofLexed (Recast.tokenize text) (byteSize text.toList)) = result
  rfl

/-- The tree that is put together from the tokens that are handed out. -/
theorem parseLenient_of_tokenize {lexed : List Token × List LexError} (h : tokenize text = some lexed)
    (hall : lexed.1.all unquotable = true) : parseLenient text =
      some ((Parse.program (.ofLexed lexed (cut (byteSize text.toList)))).2.tree,
        (Parse.program (.ofLexed lexed (cut (byteSize text.toList)))).2.errors) := by
  simp only [parseLenient, h, Option.bind_eq_bind, Option.bind_some, hall, if_true]
  rfl

theorem Small.parseLenient_eq {tree : SyntaxTree} {errors : List ParseError} (hsmall : Small text)
    (h : parseLenient text = some (tree, errors)) :
    (Recast.parseLenient text).1 = tree ∧ (Recast.parseLenient text).2 = errors := by
  rw [parseLenient_of_small hsmall, Option.some.injEq] at h
  exact Prod.ext_iff.mp h

theorem parse_of_small (h : Small text) : parse text = some (Recast.parse text) := by
  rw [parse, parseLenient_of_small h]
  rfl

/-! ## 2. Spans -/

/-- **The spans of a parsed tree are exact and nest**: in the tree of a small text every node of the
program but the root has an exact span inside that of its parent, the spans of the children of a
node follow one another, and the root covers the whole text. -/
theorem parseLenient_spans_of_small (text : String) (h : Small text) :
    ∃ toks lexErrors tree errors, tokenize text = some (toks, lexErrors) ∧
      parseLenient text = some (tree, errors) ∧
      tree.spanOf tree.root = ⟨0, byteSize text.toList, 1, 1⟩ ∧
      (∀ n, tree.isAttached n = true → n ≠ tree.root → (tree.spanOf n).Exact toks text ∧
        ∃ p, tree.parent? n = some p ∧ (tree.spanOf p).offset ≤ (tree.spanOf n).offset ∧
          (tree.spanOf n).stop ≤ (tree.spanOf p).stop) ∧
      ∀ n, tree.isAttached n = true →
        (tree.children n).Pairwise fun a b => (tree.spanOf a).Before (tree.spanOf b) :=
  ⟨(Recast.tokenize text).1, (Recast.tokenize text).2, (Recast.parseLenient text).1,
    (Recast.parseLenient text).2, by rw [tokenize_of_small h], by rw [parseLenient_of_small h],
    parseLenient_spans text⟩

/-- An assignment over two lines, after a comment. -/
theorem parseLenient_spans_of_assignment : ∃ tree errors,
    parseLenient "/* é */ x =\n 1;" = some (tree, errors) ∧
      tree.spanOf tree.root = ⟨0, 16, 1, 1⟩ ∧ (tree.spanOf 2).Exact
        (Recast.tokenize "/* é */ x =\n 1;").1 "/* é */ x =\n 1;" := by
  have hsmall : Small "/* é */ x =\n 1;" := by decide +kernel
  obtain ⟨toks, lexErrors, tree, errors, htoks, h, hroot, hspans, -⟩ :=
    parseLenient_spans_of_small "/* é */ x =\n 1;" hsmall
  obtain ⟨rfl, -⟩ := hsmall.tokenize_eq htoks
  obtain ⟨htree, -⟩ := hsmall.parseLenient_eq h
  refine ⟨tree, errors, h, hroot, (hspans 2 ?_ ?_).1⟩ <;> rw [← htree] <;> decide +kernel

/-- The tree of `2 ^ 32` blanks: nothing is left of the size of the text. -/
theorem parseLenient_blanks : ∃ tree, parseLenient (apart [] size []) = some (tree, []) ∧
    tree.spanOf tree.root = ⟨0, 0, 1, 1⟩ ∧ tree.nodeAt? 5 = none := by
  have hspent : Spent (apart [] size []).toList := by
    rw [toList_apart, List.nil_append, List.append_nil]
    exact spent_blanks size
  have hslash : SlashesPlaced (Lexer.ofText (apart [] size [])) :=
    slashesPlaced_of_not_mem (by simp [List.mem_replicate])
  have hcut : cut (byteSize (apart [] size []).toList) = 0 := by
    rw [byteSize_apart]
    decide
  obtain ⟨s, hend⟩ := token?_endOf_apart (List.nil_append (apart [] size []).toList).symm
    (by decide) (by decide)
  have htoks := tokenize_of_handedOut .nil hspent hslash .nil hend
    (errors_of_lexed .nil hspent (List.forall_mem_nil _))
  rw [parseLenient_of_tokenize htoks rfl, hcut]
  exact ⟨_, rfl, rfl, rfl⟩

/-- **The root of a larger text does not cover it**: that of `2 ^ 32` blanks is empty. -/
theorem root_of_blanks_empty : ∃ tree, parseLenient (apart [] size []) = some (tree, []) ∧
    tree.spanOf tree.root ≠ ⟨0, byteSize (apart [] size []).toList, 1, 1⟩ := by
  obtain ⟨tree, h, hroot, -⟩ := parseLenient_blanks
  refine ⟨tree, h, ?_⟩
  rw [hroot, byteSize_apart]
  decide

/-! ## 3. The node at an offset -/

/-- **The search finds the innermost node that covers an offset, and the one convertible statement that
covers it.**  In a small text there is no such node exactly where the text has ended. -/
theorem parseLenient_locates_of_small (text : String) (h : Small text) (offset : Nat) :
    ∃ tree errors, parseLenient text = some (tree, errors) ∧
      (tree.nodeAt? offset = none ↔ ¬ offset < byteSize text.toList) ∧
      (∀ n, tree.nodeAt? offset = some n → tree.isAttached n = true ∧
        (tree.spanOf n).contains offset = true ∧
        ∀ m, tree.isAttached m = true → (tree.spanOf m).contains offset = true →
          m = n ∨ m ∈ tree.ancestors n) ∧
      (∀ m m' c c', tree.isAttached m = true → tree.isAttached m' = true →
        (tree.spanOf m).contains offset = true → (tree.spanOf m').contains offset = true →
        tree.convertible? m = some c → tree.convertible? m' = some c' → m = m') ∧
      ∀ c, tree.convertibleAt? offset = some c ↔ ∃ m, tree.isAttached m = true ∧
        (tree.spanOf m).contains offset = true ∧ tree.convertible? m = some c :=
  ⟨(Recast.parseLenient text).1, (Recast.parseLenient text).2, by rw [parseLenient_of_small h],
    parseLenient_locates text offset⟩

/-- The last character of a statement in a branch. -/
theorem parseLenient_locates_in_branch : ∃ tree errors c,
    parseLenient "if (b) x = 1; else return y;" = some (tree, errors) ∧
      tree.convertibleAt? 27 = some c ∧
      ∃ m, (tree.spanOf m).contains 27 = true ∧ tree.convertible? m = some c := by
  have hsmall : Small "if (b) x = 1; else return y;" := by decide +kernel
  obtain ⟨tree, errors, h, -, -, -, hiff⟩ := parseLenient_locates_of_small _ hsmall 27
  have hsome : tree.convertibleAt? 27 ≠ none := by
    rw [← (hsmall.parseLenient_eq h).1]
    decide +kernel
  obtain ⟨c, hc⟩ := Option.ne_none_iff_exists'.mp hsome
  obtain ⟨m, -, hm, hm'⟩ := (hiff c).mp hc
  exact ⟨tree, errors, c, h, hc, m, hm, hm'⟩

/-- **In a larger text no node may be found before the text has ended**: that of `2 ^ 32` blanks has
none at offset five. -/
theorem no_node_among_blanks : ∃ tree, parseLenient (apart [] size []) = some (tree, []) ∧
    5 < byteSize (apart [] size []).toList ∧ tree.nodeAt? 5 = none := by
  obtain ⟨tree, h, -, hnone⟩ := parseLenient_blanks
  refine ⟨tree, h, ?_, hnone⟩
  rw [byteSize_apart]
  decide

/-! ## 4. Errors -/

/-- **The errors of a small text come in order.**  First there are those of the lexer, one for each
token that is none, each at a later place than the one before.  After them come those of the
parser: none is before an earlier one, and none is after the end of the text. -/
theorem parseLenient_errors_of_small (text : String) (h : Small text) :
    ∃ (toks : List Token) (lexErrors : List LexError) (tree : SyntaxTree) (own : List ParseError),
      tokenize text = some (toks, lexErrors) ∧
      parseLenient text = some (tree, lexErrors.map .ofLexError ++ own) ∧
      lexErrors.map (·.span) = (toks.filter (·.kind = .error)).map (·.span) ∧
      (lexErrors.Pairwise fun a b => a.span.offset < b.span.offset) ∧
      (own.Pairwise fun a b => a.span.offset ≤ b.span.offset) ∧
      ∀ e ∈ own, e.kind ≠ .lexerError ∧ e.span.offset ≤ byteSize text.toList := by
  obtain ⟨own, herrors, hspans, hlexer, hsorted, hle⟩ := parseLenient_errors text
  refine ⟨(Recast.tokenize text).1, (Recast.tokenize text).2, (Recast.parseLenient text).1, own,
    by rw [tokenize_of_small h], ?_, hspans, hlexer, hsorted, hle⟩
  rw [parseLenient_of_small h, ← herrors]

/-- Two characters that form no token, and a value that is missing between them. -/
theorem parseLenient_errors_of_two_signs : ∃ (lexErrors : List LexError) (tree : SyntaxTree)
    (own : List ParseError),
      parseLenient "# int x = ; #" = some (tree, lexErrors.map .ofLexError ++ own) ∧
      (lexErrors.Pairwise fun a b => a.span.offset < b.span.offset) ∧ own.length = 1 := by
  have hsmall : Small "# int x = ; #" := by decide +kernel
  obtain ⟨toks, lexErrors, tree, own, htoks, h, -, hlexer, -, -⟩ :=
    parseLenient_errors_of_small _ hsmall
  refine ⟨lexErrors, tree, own, h, hlexer, ?_⟩
  obtain ⟨-, herrors⟩ := hsmall.parseLenient_eq h
  have hlength := congrArg List.length herrors
  rw [← (hsmall.tokenize_eq htoks).2, List.length_append, List.length_map] at hlength
  have hthree : (Recast.parseLenient "# int x = ; #").2.length = 3 ∧
      (Recast.tokenize "# int x = ; #").2.length = 2 := by decide +kernel
  omega

/-- Two signs that form no token, with blanks between them. -/
theorem lexed_two_signs {n : Nat} (hn : 0 < n) :
    Lexed .start (apart ['#'] n ['#']).toList
      [⟨.error, "#", ⟨0, 1, 1, 1⟩⟩, ⟨.error, "#", ⟨1 + n, 1, 1, 2 + n⟩⟩] ⟨1 + n + 1, 1, 2 + n + 1⟩
      [] := by
  have hsign : Scan.token '#' (List.replicate n ' ' ++ ['#']) =
      ⟨.error (.unexpectedChar '#'), ['#'], List.replicate n ' ' ++ ['#']⟩ := by
    obtain ⟨n, rfl⟩ := Nat.exists_eq_succ_of_ne_zero (Nat.ne_of_gt hn)
    rfl
  have hlast : Lexed ⟨1, 1, 2⟩ (List.replicate n ' ' ++ ['#']) _ _ [] :=
    Lexed.after_blanks n ⟨'#', [], rfl, by decide, by decide, by simp⟩ rfl .nil
  have hfirst := Lexed.after_blanks (p := .start) 0 ⟨'#', _, rfl, by decide, by decide, by simp⟩
    hsign hlast
  rw [toList_apart]
  exact hfirst

/-- The parser finds nothing wrong where there are two signs that form no token: they are left out. -/
theorem errors_of_two_signs (l l' l'' : String) (s s' s'' : Span) (es : List LexError) (n : Nat) :
    (Parse.program (.ofLexed
      ([⟨.error, l, s⟩, ⟨.error, l', s'⟩] ++ [⟨.eof, l'', s''⟩], es) n)).2.errors =
      es.map .ofLexError := by
  cbv

/-- **In a larger text two errors may be at one place**: two signs that form no token, of which the
second one stands `2 ^ 32` bytes after the first. -/
theorem errors_at_one_place : ∃ toks lexErrors tree,
    tokenize (apart ['#'] (size - 1) ['#']) = some (toks, lexErrors) ∧
      parseLenient (apart ['#'] (size - 1) ['#']) = some (tree, lexErrors.map .ofLexError) ∧
      lexErrors.map (·.span.offset) = [0, 0] := by
  have hlex := lexed_two_signs (n := size - 1) (by decide)
  have hslash : SlashesPlaced (Lexer.ofText (apart ['#'] (size - 1) ['#'])) :=
    slashesPlaced_of_not_mem (by simp [List.mem_replicate])
  obtain ⟨s, hend⟩ := token?_endOf_apart (toList_apart ['#'] (size - 1) ['#']) (by decide) (by decide)
  -- there is an error at each of the two tokens, and both are handed out at the same place
  have hspans : (Recast.tokenize (apart ['#'] (size - 1) ['#'])).2.map (·.span) =
      [⟨0, 1, 1, 1⟩, ⟨1 + (size - 1), 1, 1, 2 + (size - 1)⟩] := by
    obtain ⟨-, -, -, -, hspans⟩ := tokenize_tiles (apart ['#'] (size - 1) ['#'])
    rw [hspans, (tokenize_of_lexed hlex rfl).1]
    rfl
  have hplace : ∀ s ∈ [(⟨0, 1, 1, 1⟩ : Span), ⟨1 + (size - 1), 1, 1, 2 + (size - 1)⟩],
      span? s = some ⟨0, 1, 1, 1⟩ := by decide
  obtain ⟨es, hes⟩ : ∃ es, (Recast.tokenize (apart ['#'] (size - 1) ['#'])).2 = es := ⟨_, rfl⟩
  rw [hes] at hspans
  have herrors : List.Forall₂ (fun e e' => lexError? e = some e') es
      (es.map fun e => ⟨e.cause, ⟨0, 1, 1, 1⟩⟩) := by
    refine List.forall₂_map_right_iff.mpr (List.forall₂_same.mpr fun e he => ?_)
    rw [lexError?, hplace e.span (hspans ▸ List.mem_map_of_mem he)]
    rfl
  have htoks := tokenize_of_handedOut hlex rfl hslash (handedOut_apart rfl rfl [] _ _) hend
    (by rw [hes]; exact herrors)
  have htree := parseLenient_of_tokenize htoks rfl
  rw [errors_of_two_signs] at htree
  refine ⟨_, _, _, htoks, htree, ?_⟩
  have htwo : es.length = 2 := by
    rw [← List.length_map LexError.span, hspans]
    rfl
  obtain ⟨e, e', rfl⟩ := List.length_eq_two.mp htwo
  rfl

end Narrow

end Recast
