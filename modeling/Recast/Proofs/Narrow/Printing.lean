/-
# Printed programs that fit into 32 bits

What a program is printed as is a text of its own.  A small text is printed as one that is read as the
same program, with the same tokens, if what is printed is small as well.  In a larger text the
spelling of a name may have another name in it, and then there is one name more among the tokens of
what is printed.

* `parse_print_of_small`: **printing a small program and parsing it again gives its shape**;
* `parse_keeps_tokens_of_small`: **a small program is printed with its own tokens**;
* `parseLenient_far_names`: a declaration whose variable stands `2 ^ 32` bytes after its type, and what
  is printed for it.
-/
import Recast.Proofs.Document.TokensKept
import Recast.Proofs.Narrow.Document
import Recast.Proofs.Narrow.Tokens

namespace Recast.Narrow

open Text (byteSize)

variable {text : String}

/-! ## 1. The round trip -/

/-- **Printing undoes parsing**: if a small text is printed as a small text, then this is read without
errors as a tree of the same shape, if no node of the program is a floating-point literal. -/
theorem parse_print_of_small (text : String) (h : Small text) :
    ∃ tree errors, parseLenient text = some (tree, errors) ∧
      (tree.Exact → Small tree.print → ∃ u, parse tree.print = some (.ok u) ∧
        SameShape tree u [tree.root] [u.root]) ∧
      ∀ t, parse text = some (.ok t) → t = tree := by
  refine ⟨(Recast.parseLenient text).1, (Recast.parseLenient text).2,
    by rw [parseLenient_of_small h], ?_, ?_⟩
  · intro hexact hprint
    obtain ⟨⟨u, hu, hshape⟩, -⟩ := parse_print text hexact
    refine ⟨u, ?_, hshape⟩
    rw [parse_of_small hprint, hu]
  · intro t ht
    rw [parse_of_small h, Option.some.injEq] at ht
    exact (parse_eq_ok_iff.mp ht).1.symm

/-- A declaration is left out, and the statement after it is printed and read again. -/
theorem parse_print_of_declaration_left_out : ∃ tree errors u,
    parseLenient "int n = ;\nif (a) while (b) x = -y * 2L; else f(\"\\n\");" = some (tree, errors) ∧
      errors ≠ [] ∧ parse tree.print = some (.ok u) := by
  have hsmall : Small "int n = ;\nif (a) while (b) x = -y * 2L; else f(\"\\n\");" := by decide +kernel
  obtain ⟨tree, errors, h, hprint, -⟩ := parse_print_of_small _ hsmall
  obtain ⟨htree, herrors⟩ := hsmall.parseLenient_eq h
  obtain ⟨u, hu, -⟩ := hprint (by rw [← htree]; decide +kernel) (by rw [← htree]; decide +kernel)
  refine ⟨tree, errors, u, h, ?_, hu⟩
  rw [← herrors]
  decide +kernel

/-! ## 2. The tokens of a program -/

/-- **A small text that is read without errors loses no token**: if it is printed as a small text, the
tokens of this are those that it was read from, one by one, once the accessors of its properties
are tidy, if it has no floating-point number and no type with more brackets than the greatest
rank. -/
theorem parse_keeps_tokens_of_small (text : String) (tree : SyntaxTree) (toks : List Token)
    (errors : List LexError) (hsmall : Small text) (hprint : Small tree.print)
    (h : parse text = some (.ok tree)) (htoks : tokenize text = some (toks, errors))
    (hexact : ∀ a ∈ toks, a.kind ≠ .floatLiteral ∧ a.kind ≠ .doubleLiteral)
    (hranks : ShortRanks toks) :
    ∃ printed errors', tokenize tree.print = some (printed, errors') ∧
      List.Forall₂ Token.Agrees (AccessorScan.between.tidy toks) printed := by
  rw [parse_of_small hsmall, Option.some.injEq] at h
  obtain ⟨rfl, -⟩ := hsmall.tokenize_eq htoks
  exact ⟨(Recast.tokenize tree.print).1, (Recast.tokenize tree.print).2,
    by rw [tokenize_of_small hprint], parse_keeps_tokens text tree h hexact hranks⟩

/-- A property with three accessors, and a number with a mark between its digits. -/
theorem parse_keeps_tokens_of_accessors : ∃ toks errors tree printed errors',
    tokenize "class C \x7b int[] n \x7b set; get; set; \x7d \x7d x = 1_000;" = some (toks, errors) ∧
      parse "class C \x7b int[] n \x7b set; get; set; \x7d \x7d x = 1_000;" = some (.ok tree) ∧
      tokenize tree.print = some (printed, errors') ∧
      List.Forall₂ Token.Agrees (AccessorScan.between.tidy toks) printed := by
  have hsmall : Small "class C \x7b int[] n \x7b set; get; set; \x7d \x7d x = 1_000;" := by
    decide +kernel
  have hparse := parse_of_small hsmall
  rw [parse_eq_ok_iff.mpr ⟨rfl, by decide +kernel⟩] at hparse
  obtain ⟨toks, errors, htoks⟩ := hsmall.exists_tokens
  obtain ⟨hall, -⟩ := hsmall.tokenize_eq htoks
  obtain ⟨printed, errors', hprinted, hagrees⟩ := parse_keeps_tokens_of_small _ _ toks errors hsmall
    (by decide +kernel) hparse htoks (by rw [← hall]; decide +kernel) (by rw [← hall]; decide +kernel)
  exact ⟨toks, errors, _, printed, errors', htoks, hparse, hprinted, hagrees⟩

/-! ## 3. A name in another name -/

theorem parseLenient_eq_some {tree : SyntaxTree} {errors : List ParseError}
    (h : parseLenient text = some (tree, errors)) : ∃ lexed, tokenize text = some lexed ∧
      (Parse.program (.ofLexed lexed (cut (byteSize text.toList)))).2.errors = errors := by
  simp only [parseLenient, Option.bind_eq_bind, Option.bind_eq_some_iff] at h
  obtain ⟨lexed, hlexed, h⟩ := h
  split at h
  · exact ⟨lexed, hlexed, congrArg Prod.snd (Option.some.inj h)⟩
  · cases h

/-- The tokens of two names and a semicolon, of which the second one has the place of the first. -/
def nameTokens (w w' l : String) : List Token :=
  [⟨.identifier, w, ⟨0, 1, 1, 1⟩⟩, ⟨.identifier, w', ⟨0, 1, 1, 1⟩⟩, ⟨.semicolon, l, ⟨1, 1, 1, 2⟩⟩]

/-- The tree of the declaration that they form, in a text of so many bytes. -/
def nameTree (w w' : String) (textSize : Nat) : SyntaxTree :=
  ⟨#[⟨.localDecl ⟨w, [], 0, ⟨0, 1, 1, 1⟩⟩ [⟨⟨w', ⟨0, 1, 1, 1⟩⟩, none⟩], ⟨0, 2, 1, 1⟩, some 1⟩,
    ⟨.unit [0], ⟨0, textSize, 1, 1⟩, none⟩], 1⟩

theorem program_of_names (w w' l l' : String) (s : Span) (textSize : Nat) :
    (Parse.program (.ofLexed (nameTokens w w' l ++ [⟨.eof, l', s⟩], []) textSize)).2.tree =
      nameTree w w' textSize ∧
    (Parse.program (.ofLexed (nameTokens w w' l ++ [⟨.eof, l', s⟩], []) textSize)).2.errors = [] := by
  constructor <;> cbv

theorem exact_nameTree (w w' : String) (textSize : Nat) : (nameTree w w' textSize).Exact := by
  intro i v _ hv
  have hi : i < 2 := SyntaxTree.lt_size_of_construct? hv
  match i, hi with
  | 0, _ | 1, _ => cases hv

theorem print_nameTree (w w' : String) (textSize : Nat) :
    (nameTree w w' textSize).print = w ++ " " ++ w' ++ ";\n" := by
  simp [SyntaxTree.print, SyntaxTree.printLimit, SyntaxTree.size, SyntaxTree.construct?, nameTree,
    Printer.lines, Printer.inline, Printer.indent, Printer.declaratorText, WrittenType.text,
    WrittenType.argsText, DataType.rankText, Construct.isExpression, Text.concat, Text.join,
    Text.joinTail, String.append_assoc]

theorem lexed_declaration {n : Nat} (hn : 0 < n) : Lexed .start (apart ['y'] n ['x', ';']).toList
    [⟨.identifier, "y", ⟨0, 1, 1, 1⟩⟩, ⟨.identifier, "x", ⟨1 + n, 1, 1, 2 + n⟩⟩,
      ⟨.semicolon, ";", ⟨1 + n + 1, 1, 1, 2 + n + 1⟩⟩] ⟨1 + n + 1 + 1, 1, 2 + n + 1 + 1⟩ [] := by
  have hends : EndsWord [';'] := by
    rintro c ⟨⟩
    rfl
  exact (lexed_two_names hn hends).append
    (Lexed.after_blanks 0 ⟨';', [], rfl, by decide, by decide, by simp⟩ rfl .nil)

/-- What is handed out for a declaration whose variable stands `2 ^ 32` bytes after its type: the name
of the variable is taken from the start of the text. -/
theorem tokenize_far_names : ∃ (l l' : String) (s : Span),
    tokenize (apart ['y'] (size - 1) ['x', ';']) =
      some (nameTokens (String.ofList ['y']) (apart ['y'] (size - 1) ['x']) l ++ [⟨.eof, l', s⟩],
        []) := by
  have hlex := lexed_declaration (n := size - 1) (by decide)
  have hslash : SlashesPlaced (Lexer.ofText (apart ['y'] (size - 1) ['x', ';'])) :=
    slashesPlaced_of_not_mem (by simp [List.mem_replicate])
  -- the semicolon and the end of the text are handed out with places at the start of the text
  have hspan : span? ⟨1 + (size - 1) + 1, 1, 1, 2 + (size - 1) + 1⟩ = some ⟨1, 1, 1, 2⟩ := by decide
  have hsemi := token?_apart (t := ⟨.semicolon, ";", _⟩) ['y'] [] (size - 1) ['x', ';'] [] hspan rfl
    (by decide)
  have htwo : (apart ['y'] (size - 1) ['x', ';']).toList =
      ['y', ' '] ++ (List.replicate (size - 2) ' ' ++ ['x', ';']) := by
    rw [toList_apart]
    exact congrArg (['y'] ++ · ++ ['x', ';']) (List.replicate_succ (n := size - 2))
  obtain ⟨s, hend⟩ := token?_endOf_apart htwo (by decide) (by decide)
  exact ⟨_, _, s, tokenize_of_handedOut hlex rfl hslash
    (List.rel_append (handedOut_apart rfl rfl [';'] _ _) (.cons hsemi .nil)) hend
    (errors_of_lexed hlex rfl (by simp))⟩

/-- **A declaration whose variable stands `2 ^ 32` bytes after its type** is printed with three
names. -/
theorem parseLenient_far_names : ∃ toks tree,
    tokenize (apart ['y'] (size - 1) ['x', ';']) = some (toks, []) ∧
      toks.map (·.kind) = [.identifier, .identifier, .semicolon, .eof] ∧
      parseLenient (apart ['y'] (size - 1) ['x', ';']) = some (tree, []) ∧ tree.Exact ∧
      tree.print = apart ['y', ' ', 'y'] (size - 1) ['x', ';', '\n'] := by
  obtain ⟨l, l', s, htoks⟩ := tokenize_far_names
  obtain ⟨htree, herrors⟩ := program_of_names (String.ofList ['y']) (apart ['y'] (size - 1) ['x'])
    l l' s (cut (byteSize (apart ['y'] (size - 1) ['x', ';']).toList))
  have hparsed := parseLenient_of_tokenize htoks rfl
  rw [htree, herrors] at hparsed
  refine ⟨_, _, htoks, rfl, hparsed, exact_nameTree _ _ _, (print_nameTree _ _ _).trans ?_⟩
  rw [← String.toList_inj]
  simp

/-- What is handed out for three names and a semicolon. -/
theorem kinds_of_three_names {toks : List Token} {errors : List LexError}
    (h : tokenize (apart ['y', ' ', 'y'] (size - 1) ['x', ';', '\n']) = some (toks, errors)) :
    errors = [] ∧
      toks.map (·.kind) = [.identifier, .identifier, .identifier, .semicolon, .eof] := by
  have hsemi : Reads [';', '\n'] _ :=
    reads_sign (k := .semicolon) (by decide) (endsSign_of_isDelimiter rfl _) (Reads.nil.blank rfl).2
  have hends : EndsWord [';', '\n'] := by
    rintro c ⟨⟩
    rfl
  have hreads := reads_three_names (n := size - 1) (by decide) hends hsemi.2
  exact kinds_of_lexes hreads.2 (by simp) h

theorem exists_of_kinds {toks : List Token} {k : TokenKind} {ks : List TokenKind}
    (h : toks.map (·.kind) = k :: ks) :
    ∃ l s more, toks = ⟨k, l, s⟩ :: more ∧ more.map (·.kind) = ks := by
  obtain ⟨⟨_, l, s⟩, more, rfl, rfl, hmore⟩ := List.map_eq_cons_iff.mp h
  exact ⟨l, s, more, rfl, hmore⟩

/-- Three names and a semicolon are no program. -/
theorem errors_of_three_names {toks : List Token}
    (h : toks.map (·.kind) = [.identifier, .identifier, .identifier, .semicolon, .eof]) (n : Nat) :
    (Parse.program (.ofLexed (toks, []) n)).2.errors.isEmpty = false := by
  obtain ⟨l₁, s₁, _, rfl, h₁⟩ := exists_of_kinds h
  obtain ⟨l₂, s₂, _, rfl, h₂⟩ := exists_of_kinds h₁
  obtain ⟨l₃, s₃, _, rfl, h₃⟩ := exists_of_kinds h₂
  obtain ⟨l₄, s₄, _, rfl, h₄⟩ := exists_of_kinds h₃
  obtain ⟨l₅, s₅, _, rfl, h₅⟩ := exists_of_kinds h₄
  obtain rfl := List.map_eq_nil_iff.mp h₅
  cbv

/-- **The text of a larger program may not be parsed again**: that of a declaration whose variable
stands `2 ^ 32` bytes after its type has three names. -/
theorem far_names_not_parsed_again : ∃ tree,
    parseLenient (apart ['y'] (size - 1) ['x', ';']) = some (tree, []) ∧ tree.Exact ∧
      ∀ u, parse tree.print ≠ some (.ok u) := by
  obtain ⟨-, tree, -, -, htree, hexact, hprint⟩ := parseLenient_far_names
  refine ⟨tree, htree, hexact, fun u hu => ?_⟩
  rw [hprint, parse, Option.map_eq_some_iff] at hu
  obtain ⟨⟨t, errors⟩, ht, hok⟩ := hu
  obtain ⟨⟨toks, lexErrors⟩, htoks, rfl⟩ := parseLenient_eq_some ht
  obtain ⟨rfl, hkinds⟩ := kinds_of_three_names htoks
  dsimp only at hok
  rw [errors_of_three_names hkinds] at hok
  cases hok

/-- Two names and a semicolon keep their number where accessors are put in order. -/
theorem tidy_of_two_names {toks : List Token}
    (h : toks.map (·.kind) = [.identifier, .identifier, .semicolon, .eof]) :
    (∀ a ∈ toks, a.kind ≠ .floatLiteral ∧ a.kind ≠ .doubleLiteral) ∧ ShortRanks toks ∧
      (AccessorScan.between.tidy toks).length = 4 := by
  obtain ⟨l₁, s₁, _, rfl, h₁⟩ := exists_of_kinds h
  obtain ⟨l₂, s₂, _, rfl, h₂⟩ := exists_of_kinds h₁
  obtain ⟨l₃, s₃, _, rfl, h₃⟩ := exists_of_kinds h₂
  obtain ⟨l₄, s₄, _, rfl, h₄⟩ := exists_of_kinds h₃
  obtain rfl := List.map_eq_nil_iff.mp h₄
  exact ⟨by simp, by simp [ShortRanks, TypeScan.bracketPairs], rfl⟩

/-- **The tokens of a larger program may not be kept**: there is one name more in what is printed for a
declaration whose variable stands `2 ^ 32` bytes after its type. -/
theorem far_names_not_kept : ∃ toks tree,
    tokenize (apart ['y'] (size - 1) ['x', ';']) = some (toks, []) ∧
      (∀ a ∈ toks, a.kind ≠ .floatLiteral ∧ a.kind ≠ .doubleLiteral) ∧ ShortRanks toks ∧
      parse (apart ['y'] (size - 1) ['x', ';']) = some (.ok tree) ∧
      ¬ ∃ printed errors, tokenize tree.print = some (printed, errors) ∧
        List.Forall₂ Token.Agrees (AccessorScan.between.tidy toks) printed := by
  obtain ⟨toks, tree, htoks, hkinds, htree, -, hprint⟩ := parseLenient_far_names
  obtain ⟨hexact, hranks, hfour⟩ := tidy_of_two_names hkinds
  refine ⟨toks, tree, htoks, hexact, hranks, ?_, ?_⟩
  · rw [parse, htree]
    rfl
  · rintro ⟨printed, errors, hprinted, hagrees⟩
    obtain ⟨-, hkinds'⟩ := kinds_of_three_names (hprint ▸ hprinted)
    have hfive : printed.length = 5 := by simpa using congrArg List.length hkinds'
    have := hagrees.length_eq
    omega

end Recast.Narrow
