/-
# The blanks that a fix copies

The lines of a block that a fix writes start with the blanks of the line on which the old statement
starts.  These are all the characters with the property White_Space, while only five of them may stand
between tokens.  In a document without errors the others can start a line inside a comment, and the
statement can follow that comment on the same line.

* `exists_reads_error`: a blank that is none between tokens is an error of the lexer;
* `Recasts.clean`: the statement that a fix writes stands on one line and has no such error;
* `fix_errors_eq_nil_iff`: **a fix brings no error of the lexer exactly if it writes no block, or if the
  line of the old statement starts with blanks that may stand between tokens**;
* `fix_copies_vertical_tab`: otherwise it does.
-/
import Recast.Proofs.Fix.Reparse
import Recast.Proofs.Tree.Clean

namespace Recast

open Text (byteSize)

/-! ## 1. Blanks that are none between tokens -/

/-- A blank is neither a digit nor a letter. -/
theorem Text.isBlank_spec {c : Char} (h : isBlank c = true) :
    c.isDigit = false ∧ Scan.isWordStart c = false := by
  simp only [isBlank, blankRanges, List.any_cons, List.any_nil, Bool.or_false, Bool.or_eq_true,
    Bool.and_eq_true, decide_eq_true_eq] at h
  refine ⟨Bool.eq_false_iff.mpr fun hd => ?_, Bool.eq_false_iff.mpr fun hw => ?_⟩
  · simp only [Char.isDigit, Bool.and_eq_true, decide_eq_true_eq, ge_iff_le,
      UInt32.le_iff_toNat_le] at hd
    have hcodes : '0'.val.toNat = 48 ∧ '9'.val.toNat = 57 := by decide
    have hval : c.val.toNat = c.toNat := rfl
    omega
  · simp only [Scan.isWordStart, Bool.or_eq_true, decide_eq_true_eq] at hw
    rcases hw with rfl | hw
    · revert h
      decide
    · delta Char.isAlpha Char.isUpper Char.isLower at hw
      simp only [Bool.or_eq_true, Bool.and_eq_true, decide_eq_true_eq, ge_iff_le,
        UInt32.le_iff_toNat_le] at hw
      have hcodes : 'A'.val.toNat = 65 ∧ 'Z'.val.toNat = 90 ∧ 'a'.val.toNat = 97 ∧
        'z'.val.toNat = 122 := by decide
      have hval : c.val.toNat = c.toNat := rfl
      omega

/-- No token starts with a blank. -/
theorem Scan.token_of_isBlank {c : Char} (h : Text.isBlank c = true) (cs : List Char) :
    token c cs = ⟨.error (.unexpectedChar c), [c], cs⟩ := by
  obtain ⟨hdigit, hword⟩ := Text.isBlank_spec h
  have hne : ∀ {d : Char}, Text.isBlank d = false → c ≠ d := by
    rintro d hd rfl
    rw [h] at hd
    cases hd
  have hsingle : single? c = none := by
    cases hs : single? c with
    | none => rfl
    | some k =>
      have hall : ∀ d ∈ "()[]\x7b\x7d;,.+-*/%=!<>".toList, Text.isBlank d = false :=
        @of_decide_eq_true _ (List.decidableBAll _ _) (by decide)
      exact absurd rfl (hne (hall c (mem_of_single? hs)))
  have hpair : ∀ d, pair? c d = none := by
    intro d
    simp [pair?, hne (d := '+') (by decide), hne (d := '-') (by decide), hne (d := '*') (by decide),
      hne (d := '/') (by decide), hne (d := '=') (by decide), hne (d := '!') (by decide),
      hne (d := '<') (by decide), hne (d := '>') (by decide), hne (d := '&') (by decide),
      hne (d := '|') (by decide)]
  rw [token, if_neg (by simp [hne (d := '/') (by decide)]), if_neg (hne (by decide)),
    if_neg (by simp [startsNumber, hdigit, hne (d := '.') (by decide)]), if_neg (by simp [hword])]
  cases cs with
  | nil => rw [operator, single, hsingle]
  | cons d cs => rw [operator, hpair, single, hsingle]

/-- Every text is read as some tokens. -/
theorem exists_lexes (cs : List Char) : ∃ ts, Lexes cs ts := by
  obtain ⟨toks, stop, rest, -, hlex, hspent, -⟩ :=
    Lexer.readAll_spec (l := ⟨cs, .start, [], false⟩) (Nat.lt_succ_self _)
  exact ⟨toks, hlex.lexes hspent⟩

/-- **Blanks that are none between tokens are read as an error.** -/
theorem exists_reads_error (rest : List Char) : ∀ {indent : List Char},
    (∀ c ∈ indent, Text.isBlank c = true) → ¬ Blanks indent →
      ∃ ts, Reads (indent ++ rest) ts ∧ ∃ a ∈ ts, a.kind = .error
  | [], _, hno => absurd (List.forall_mem_nil _) hno
  | c :: cs, hall, hno => by
    have hc := hall c (List.mem_cons_self ..)
    have hcs : ∀ d ∈ cs, Text.isBlank d = true := fun d hd => hall d (List.mem_cons_of_mem _ hd)
    cases hascii : Text.isAsciiBlank c with
    | true =>
      obtain ⟨ts, hts, herr⟩ : ∃ ts, Reads (cs ++ rest) ts ∧ ∃ a ∈ ts, a.kind = .error :=
        exists_reads_error rest hcs fun hb => hno (List.forall_mem_cons.mpr ⟨hascii, hb⟩)
      exact ⟨ts, hts.blank hascii, herr⟩
    | false =>
      have hmark : c ≠ Scan.byteOrderMark := by
        rintro rfl
        revert hc
        decide
      have hslash : c ≠ '/' := by
        rintro rfl
        revert hc
        decide
      obtain ⟨ts, hts⟩ := exists_lexes (cs ++ rest)
      refine ⟨⟨.error, String.ofList [c], default⟩ :: ts,
        ⟨fun he => hmark (Option.some.inj he), fun pos => ?_⟩, _, List.mem_cons_self .., rfl⟩
      obtain ⟨toks, stop, rest', hlex, hspent, hbare⟩ := hts (pos.after [c])
      have hopen : Scan.Opens (c :: (cs ++ rest)) :=
        ⟨c, cs ++ rest, rfl, hascii, hmark, fun he => absurd he hslash⟩
      have htok := Scan.token_of_isBlank hc (cs ++ rest)
      refine ⟨Token.scanned (pos.after []) (Scan.token c (cs ++ rest)) :: toks, stop, rest',
        .cons hopen.trivia_eq ?_, hspent, ?_⟩
      · rw [htok]
        exact hlex
      · rw [List.map_cons, List.map_cons, hbare, htok]
        rfl

/-! ## 2. The statement that is written -/

section Statement

variable {t u : SyntaxTree} {type : DataType} {c : Convertible} {s : NodeId}

/-- The expression of an assignment statement stands for an expression. -/
theorem Fits.expr_of_exprStmt {role : Role} {i e : NodeId} (h : Fits t role i)
    (hc : t.construct? i = some (.exprStmt e)) : ∃ l r, Fits t (.expr l r) e := by
  cases h with
  | node ρ hd ha hk =>
    rw [hc] at hd
    cases hd
    obtain ⟨l, r, hρ⟩ := ha.expr_of_exprStmt
    exact ⟨l, r, hρ ▸ hk e (List.mem_singleton_self _)⟩

/-- **The new statement is printed cleanly**, from where it starts. -/
theorem Recasts.clean (ht : t.WellFormed) (hu : u.WellFormed) (hc : IsConvertible t c)
    (h : Recasts t u type c s) {role : Role} (hf : Fits t role c.stmt)
    (hp : PiecesUnder u Piece.Legible [s])
    (hd : ∀ i d, u.Under [s] i → u.construct? i = some d → ∀ k ∈ d.children, k < i)
    (limit depth : Nat) : Clean true (Printer.inline u (limit + 1) depth s) ∧
      Solid (Printer.inline u (limit + 1) depth s) := by
  obtain ⟨l, r, hv⟩ := hc.fits_source hf
  have hroot : u.Under [s] s := .root (List.mem_singleton_self _)
  have expr : ∀ {e l r : Nat} {d : Construct}, u.construct? s = some d → e ∈ d.children →
      Fits u (.expr l r) e → Clean false (Printer.exprText u u.size e) ∧
        Solid (Printer.exprText u u.size e) := by
    intro e l r d hs he hfit
    refine Printer.clean_exprText hp hd ?_ (hroot.slot hs he) hfit
    cases hfit with
    | node _ he _ _ => exact SyntaxTree.lt_size_of_construct? he
  rw [Printer.inline]
  cases h with
  | @assignment stmt target value _ e g k hk hg he hs =>
    cases hc with
    | @assignment _ a _ _ hid ha =>
      obtain ⟨l, r, hassign⟩ := hf.expr_of_exprStmt hid
      obtain ⟨l', r', hfit⟩ := hk.fits_assign ht hu hg he ha hassign
      obtain ⟨hclean, hsolid⟩ := expr hs (List.mem_singleton_self _) hfit
      simp only [hs]
      exact ⟨hclean.append .semicolon (by decide), hsolid.append _⟩
  | @returned stmt value _ k hk hs =>
    obtain ⟨hclean, -⟩ := expr hs (List.mem_singleton_self _) (hk.fits ht hu hv)
    have hopen : "return " = TokenKind.returnWord.spelling ++ " " := rfl
    simp only [hs, hopen, String.append_assoc]
    exact ⟨(hclean.append .semicolon (by decide)).keyword (k := .returnWord) rfl,
      Solid.append (by decide) _⟩
  | @yielded stmt value _ k hk hs =>
    obtain ⟨hclean, -⟩ := expr hs (List.mem_singleton_self _) (hk.fits ht hu hv)
    have hopen : "yield return " = TokenKind.yieldWord.spelling ++ (" " ++
      (TokenKind.returnWord.spelling ++ " ")) := rfl
    simp only [hs, hopen, String.append_assoc]
    exact ⟨((hclean.append .semicolon (by decide)).keyword (k := .returnWord) rfl).keyword
      (k := .yieldWord) rfl, Solid.append (by decide) _⟩
  | @declaration stmt init _ k w name hk hid hs =>
    obtain ⟨hclean, -⟩ := expr hs (List.mem_singleton_self _) (hk.fits ht hu hv)
    have htype : (WrittenType.ofDataType type).Legible := hp s _ hroot hs
      (.type (.ofDataType type)) (by simp [Construct.pieces])
    have hname : IsName name.name := hp s _ hroot hs (.name name.name)
      (by simp [Construct.pieces, Declarator.pieces, Piece.separated, Ident.synthetic])
    have hinit := (hclean.append .semicolon (by decide)).operator (k := .equal) (by decide)
    have hvar := ((Clean.name hname).append hinit (Breaks.append (by decide) _)).blank
    have hall := htype.clean.1.append hvar (Breaks.append (by decide) _)
    have hop : " = " = " " ++ (TokenKind.equal.spelling ++ " ") := rfl
    simp only [hs, List.map_cons, List.map_nil, Text.join, Text.joinTail, Printer.declaratorText,
      Ident.synthetic, hop, String.append_empty, String.append_assoc]
    exact ⟨hall, htype.clean.2.append _⟩

end Statement

/-! ## 3. A statement by itself and in a block -/

section Text

variable {t : SyntaxTree} {id s : Nat} {cc : Construct}

theorem Printer.lines_of_isStatement (hc : t.construct? id = some cc) (hs : cc.isStatement = true)
    (limit depth : Nat) :
    lines t (limit + 1) depth id = indent depth ++ inline t limit depth id ++ "\n" := by
  rw [lines]
  cases cc with
  | block _ | exprStmt _ | localDecl _ _ | returnStmt _ | yieldStmt _ | ifStmt _ _ _ | whileStmt _ _
  | doStmt _ _ | breakStmt | continueStmt | emptyStmt =>
    simp only [hc]
    rfl
  | _ => cases hs

/-- A statement by itself is printed from where it starts to its last character. -/
theorem SyntaxTree.printNode_of_isStatement (hc : t.construct? id = some cc)
    (hs : cc.isStatement = true) {limit : Nat} (hl : 2 * t.size = limit + 1) {c : Char}
    (hlast : (Printer.inline t limit 0 id).toList.getLast? = some c)
    (hblank : Text.isBlank c = false) : t.printNode id = Printer.inline t limit 0 id := by
  have hzero : Printer.indent 0 = "" := rfl
  rw [printNode, printLimit, hl, Printer.lines_of_isStatement hc hs, hzero, String.empty_append,
    String.toList_append]
  exact (congrArg String.ofList (Text.trimEnd_append hlast hblank (by decide))).trans
    (String.ofList_toList ..)

/-- A block of one statement has a line for each brace and one for the statement. -/
theorem SyntaxTree.printNode_block (hc : t.construct? id = some (.block [s]))
    (hs : t.construct? s = some cc) (hstmt : cc.isStatement = true) (hlt : s < id) :
    ∃ limit, t.printNode id = "\x7b" ++ ("\n" ++ ((Printer.indent 1 ++
      Printer.inline t (limit + 1) 1 s ++ "\n") ++ "\x7d")) := by
  have hsize : id < t.size := lt_size_of_construct? hc
  obtain ⟨limit, hl⟩ : ∃ limit, 2 * t.size = limit + 1 + 1 + 1 + 1 := by
    refine ⟨2 * t.size - 4, ?_⟩
    omega
  have htext : Printer.inline t (limit + 1 + 1 + 1) 0 id = "\x7b" ++ ("\n" ++ ((Printer.indent 1 ++
      Printer.inline t (limit + 1) 1 s ++ "\n") ++ "\x7d")) := by
    have hopen : "\x7b\n" = "\x7b" ++ "\n" := rfl
    have hzero : Printer.indent 0 = "" := rfl
    have hline := Printer.lines_of_isStatement hs hstmt (limit + 1) 1
    rw [Printer.inline]
    simp only [hc, Printer.bracedText, List.isEmpty_cons, Bool.false_eq_true, if_false, List.map_cons,
      List.map_nil, Nat.zero_add, hline, Text.concat, hopen, hzero, String.append_empty,
      String.append_assoc]
  refine ⟨limit, ?_⟩
  rw [← htext]
  refine printNode_of_isStatement hc rfl hl (c := '\x7d') ?_ (by decide)
  rw [htext]
  simp [List.getLast?_cons, List.getLast?_append]

end Text

/-! ## 4. The text of a fix -/

/-- The text of a fix has an error of the lexer exactly if one is read from the new text on. -/
theorem Surrounds.errors_eq_nil_iff {d : Document} {f : Fix} {o n : NodeId} {front back : List Token}
    {before after : List Char} (h : Surrounds d f o n front back before after)
    (hsolid : Solid (f.document.tree.printNode n))
    (hbrace : ∀ stmts, f.document.tree.construct? n = some (.block stmts) →
      (f.document.tree.printNode n).toList.head? = some '\x7b')
    {ts : List Token} (hts : Lexes (f.inserted before n ++ after) ts) :
    (tokenize f.document.text).2 = [] ↔ ∀ a ∈ ts, a.kind ≠ .error := by
  obtain ⟨toks, stop, rest, hlex, hspent, hbare⟩ := h.lexed ts hsolid hbrace hts
  obtain ⟨toks', stop', rest', -, hlex', hspent', -, -, herr⟩ := tokenize_spec f.document.text
  obtain rfl := hlex'.unique hlex hspent' hspent
  have hkinds : toks.map Token.kind = ts.map Token.kind := by
    simpa [List.map_map, Function.comp_def, Token.bare] using congrArg (List.map Prod.fst) hbare
  have hsame : (∀ a ∈ toks, a.kind ≠ .error) ↔ ∀ a ∈ ts, a.kind ≠ .error := by
    have hmem := congrArg (TokenKind.error ∈ ·) hkinds
    simp only [List.mem_map, eq_iff_iff] at hmem
    constructor
    · rintro hno a ha hk
      obtain ⟨b, hb, hkb⟩ := hmem.mpr ⟨a, ha, hk⟩
      exact hno b hb hkb
    · rintro hno a ha hk
      obtain ⟨b, hb, hkb⟩ := hmem.mp ⟨a, ha, hk⟩
      exact hno b hb hkb
  rw [herr, List.forall_mem_append, ← hsame]
  exact and_iff_right fun a ha => h.kind_ne_error a (List.mem_append_left _ ha)

namespace Converts

variable {d : Document} {c : Convertible} {f : Fix} {n s : NodeId}

/-- What is under the new statement is under the new node. -/
theorem under_new {model : SemanticModel} (h : Converts d model c f n s) {i : NodeId}
    (hi : f.document.tree.Under [s] i) : f.document.tree.Under [n] i := by
  refine hi.mono fun k hk => ?_
  rw [List.mem_singleton.mp hk]
  obtain ⟨p, -, ⟨-, -, rfl⟩ | ⟨-, -, hn⟩⟩ := h.placed
  · exact .root (List.mem_singleton_self _)
  · exact SyntaxTree.Under.slot (.root (List.mem_singleton_self _)) hn (List.mem_singleton_self _)

variable (h : Converts d (Analysis.ofTree d.tree).model c f n s)
include h

/-- The names and types of the new statement are printed cleanly. -/
theorem legible : PiecesUnder f.document.tree Piece.Legible [s] := by
  have htype : (WrittenType.ofDataType f.request.destinationType).Legible := by
    by_cases hnull : f.request.destinationType = .null
    · rw [hnull]
      exact .inr rfl
    · exact .inl (h.nameable hnull).writable
  have hold : PiecesUnder d.tree Piece.Legible [c.stmt] := by
    intro i cc hi hc p hp
    have hin : d.tree.InTree i := hi.mono fun k hk => by
      rw [List.mem_singleton.mp hk]
      exact h.rewrites.inTree
    rw [h.tree_eq] at hin hc
    by_cases hv : ∃ v, cc = .literal v ∧ v.isExact = false
    · obtain ⟨v, rfl, hexact⟩ := hv
      rw [List.mem_singleton.mp hp]
      intro htrue
      rw [hexact] at htrue
      cases htrue
    · refine (parseLenient_writable d.text hin hc (fun v hc => ?_) p hp).legible
      cases hexact : v.isExact with
      | true => rfl
      | false => exact absurd ⟨v, hc, hexact⟩ hv
  exact h.recasts.pieces ⟨fun _ => trivial, fun _ => trivial⟩ h.rewrites.before h.convertible htype
    hold

/-- **The new statement is printed cleanly.** -/
theorem clean {role : Role} (hf : Fits d.tree role c.stmt) (limit depth : Nat) :
    Clean true (Printer.inline f.document.tree (limit + 1) depth s) ∧
      Solid (Printer.inline f.document.tree (limit + 1) depth s) := by
  refine h.recasts.clean h.rewrites.before h.rewrites.after h.convertible hf h.legible
    (fun i cc hi hc k hk => (h.rewrites.fresh i (h.under_new hi)).2 k ?_) limit depth
  rwa [SyntaxTree.children_of_construct? hc]

/-- What is written is a statement, and not a block. -/
theorem construct_new : ∃ cc, f.document.tree.construct? s = some cc ∧ cc.isStatement = true ∧
    ∀ stmts, cc ≠ .block stmts := by
  cases h.recasts with
  | assignment _ _ _ hs | returned _ hs | yielded _ hs | declaration _ _ hs =>
    exact ⟨_, hs, rfl, by simp⟩

section Place

variable {role : Role} {front back : List Token} {before after : List Char}
  (hf : Fits d.tree role c.stmt) (hplace : Surrounds d f c.stmt n front back before after)
include hf hplace

/-- A statement by itself stands on one line, so that no blanks are copied. -/
theorem errors_eq_nil_of_spliced (hn : n = s) : (tokenize f.document.text).2 = [] := by
  subst hn
  obtain ⟨cc, hs, hstmt, hblock⟩ := h.construct_new
  have hsize : n < f.document.tree.size := SyntaxTree.lt_size_of_construct? hs
  obtain ⟨limit, hl⟩ : ∃ limit, 2 * f.document.tree.size = limit + 1 + 1 :=
    ⟨2 * f.document.tree.size - 2, by have : 0 < f.document.tree.size := Nat.zero_lt_of_lt hsize; omega⟩
  obtain ⟨hclean, hsolid⟩ := h.clean hf limit 0
  obtain ⟨ts, hts, hp⟩ := hclean.tokens
  obtain ⟨ch, hlast, hblank⟩ := hp.closes rfl
  have htext := SyntaxTree.printNode_of_isStatement hs hstmt hl hlast hblank
  rw [← htext] at hclean hsolid hp
  have hreads := hp.reads (List.forall_mem_nil _) (by simp) hplace.lexes_after
  rw [indentLines_nil] at hreads
  refine (hplace.errors_eq_nil_iff hsolid (fun stmts hc => ?_) ?_).mpr
    (List.forall_mem_append.mpr ⟨hts, fun a ha => hplace.kind_ne_error a (List.mem_append_right _ ha)⟩)
  · rw [hs] at hc
    exact absurd (Option.some.inj hc) (hblock stmts)
  · rw [Fix.inserted, indentLines_of_not_mem hclean.line]
    exact hreads.2

/-- A block has lines of its own, and the blanks that they start with are read. -/
theorem errors_eq_nil_iff_of_wrapped (hn : f.document.tree.construct? n = some (.block [s])) :
    (tokenize f.document.text).2 = [] ↔ Blanks ((Text.lastLine before).takeWhile Text.isBlank) := by
  obtain ⟨cc, hs, hstmt, -⟩ := h.construct_new
  have hlt : s < n := (h.rewrites.fresh n (.root (List.mem_singleton_self _))).2 s (by
    rw [SyntaxTree.children_of_construct? hn]
    exact List.mem_singleton_self _)
  obtain ⟨limit, htext⟩ := SyntaxTree.printNode_block hn hs hstmt hlt
  obtain ⟨ts, hts, hp⟩ := (h.clean hf limit 1).1.tokens
  have hsolid : Solid (f.document.tree.printNode n) := by
    rw [htext]
    exact Solid.append (by decide) _
  have hbrace : ∀ stmts, f.document.tree.construct? n = some (.block stmts) →
      (f.document.tree.printNode n).toList.head? = some '\x7b' := by
    intro stmts _
    rw [htext]
    simp
  by_cases hindent : Blanks ((Text.lastLine before).takeWhile Text.isBlank)
  · have hline : PrintsLines (Printer.indent 1 ++
        Printer.inline f.document.tree (limit + 1) 1 s ++ "\n") ts :=
      (hp.blanks (Printer.blanks_indent 1)).line
    have hprints := ((Prints.delimiter (k := .rightBrace) rfl).lines hline).after
      (k := .leftBrace) rfl rfl
    have hreads := hprints.reads hindent (by simp) hplace.lexes_after
    have hlexes : Lexes (f.inserted before n ++ after)
        (TokenKind.leftBrace.token :: (ts ++ [TokenKind.rightBrace.token]) ++ back) := by
      rw [Fix.inserted, htext]
      exact hreads.2
    refine iff_of_true ((hplace.errors_eq_nil_iff hsolid hbrace hlexes).mpr ?_) hindent
    simp only [List.forall_mem_append, List.forall_mem_cons, List.cons_append]
    exact ⟨by decide, ⟨hts, by decide, List.forall_mem_nil _⟩,
      fun a ha => hplace.kind_ne_error a (List.mem_append_right _ ha)⟩
  · -- the first line break brings the blanks with it
    obtain ⟨more, hmore⟩ : ∃ more, f.document.tree.printNode n = "\x7b" ++ ("\n" ++ more) :=
      ⟨_, htext⟩
    obtain ⟨us, hus, x, hx, herr⟩ := exists_reads_error
      (Document.indentLines ((Text.lastLine before).takeWhile Text.isBlank) more.toList ++ after)
      (fun ch hch => List.all_eq_true.mp List.all_takeWhile ch hch) hindent
    have hlexes : Lexes (f.inserted before n ++ after) (TokenKind.leftBrace.token :: us) := by
      have hreads := reads_sign (k := .leftBrace) (by decide) (endsSign_of_isDelimiter rfl _)
        (hus.blank (b := '\n') (by decide)).2
      rw [Fix.inserted, hmore]
      simpa [Document.indentLines, TokenKind.spelling, TokenKind.token] using hreads.2
    exact iff_of_false (fun hnil => (hplace.errors_eq_nil_iff hsolid hbrace hlexes).mp hnil x
      (List.mem_cons_of_mem _ hx) herr) hindent

end Place

end Converts

/-! ## 5. The errors of a fix -/

/-- **A fix brings no error of the lexer exactly if it writes no block, or if the line of the old
statement starts with blanks that may stand between tokens.** -/
theorem fix_errors_eq_nil_iff {name text : String} {d : Document}
    (hd : Document.parse name text = .ok d) {diagnostic : Diagnostic} {point : CancelPoint}
    {a a' : Activity} {f : Fix}
    (h : FixProvider.casting.fix d diagnostic point a = (.ok (some f), a')) :
    ∃ before after, text.toList = before ++ after ∧
      (d.tree.spanOf f.replaced).offset = byteSize before ∧
      ((tokenize f.document.text).2 = [] ↔ (∃ p count, f.placement = .spliced p count) ∨
        Blanks ((Text.lastLine before).takeWhile Text.isBlank)) := by
  obtain ⟨c, produced, working, hfound⟩ := fix_eq_ok h
  obtain ⟨n, s, hc⟩ := hfound.converts (.parse hd)
  obtain ⟨herr, htext⟩ : (parseLenient d.text).2 = [] ∧ d.text = text := by
    obtain ⟨herr, he⟩ := Document.parse_eq_ok_iff.mp hd
    rw [he]
    exact ⟨herr, rfl⟩
  obtain ⟨-, role, front, back, before, after, -, -, hrole, hplace, -⟩ := hc.surrounds herr
  obtain ⟨old, hcut⟩ := hplace.cut
  have hstmt : f.replaced = c.stmt := hfound.requested.stmt
  refine ⟨before, old ++ after, htext ▸ hcut, hstmt ▸ hplace.offset_eq, ?_⟩
  obtain ⟨p, -, ⟨-, hspliced, hn⟩ | ⟨-, hwrapped, hn⟩⟩ := hc.placed
  · exact iff_of_true (hc.errors_eq_nil_of_spliced hrole hplace hn) (.inl ⟨p, 1, hspliced⟩)
  · rw [hc.errors_eq_nil_iff_of_wrapped hrole hplace hn, hwrapped]
    simp

/-- A vertical tab on another line than that of the statement is not copied. -/
theorem fix_errors_eq_nil_of_tab :
    ∃ d f, Document.parse "p" "int x; long y; /*\n\x0b*/\n\tif (true) x = y;" = .ok d ∧
      (FixProvider.casting.fix d (.invalidConversion ⟨37, 1, 3, 16⟩ "long" "int") .never .start).1 =
        .ok (some f) ∧
      f.document.text =
        "int x; long y; /*\n\x0b*/\n\tif (true) \x7b\n\t    x = cast<int>(y);\n\t\x7d" ∧
      (tokenize f.document.text).2 = [] := by
  obtain ⟨d, hd⟩ : ∃ d, Document.parse "p"
      "int x; long y; /*\n\x0b*/\n\tif (true) x = y;" = .ok d :=
    ⟨_, Document.parse_eq_ok_iff.mpr ⟨by decide +kernel, rfl⟩⟩
  obtain ⟨-, he⟩ := Document.parse_eq_ok_iff.mp hd
  have hfound : (FixProvider.casting.fix d (.invalidConversion ⟨37, 1, 3, 16⟩ "long" "int") .never
      .start).1.toOption.join.any (fun f => f.document.text =
        "int x; long y; /*\n\x0b*/\n\tif (true) \x7b\n\t    x = cast<int>(y);\n\t\x7d" &&
        f.replaced = 6) = true := by
    rw [he]
    decide +kernel
  -- the line of the statement starts with the second of the two tabs
  have hline : (Text.splitAtByte? "int x; long y; /*\n\x0b*/\n\tif (true) x = y;".toList
      (d.tree.spanOf 6).offset).any (fun cut => Text.lastLine cut.1 = "\tif (true) ".toList) = true := by
    rw [he]
    decide +kernel
  obtain ⟨f, a', h⟩ := exists_fix_of_isSome (Option.isSome_of_any hfound)
  rw [h] at hfound
  have hboth : (f.document.text =
      "int x; long y; /*\n\x0b*/\n\tif (true) \x7b\n\t    x = cast<int>(y);\n\t\x7d" &&
      f.replaced = 6) = true := hfound
  simp only [Bool.and_eq_true, decide_eq_true_eq] at hboth
  obtain ⟨before, after, hcut, hoff, hiff⟩ := fix_errors_eq_nil_iff hd h
  rw [← hboth.2, Text.splitAtByte?_eq_some_iff.mpr ⟨hcut.symm, hoff.symm⟩] at hline
  have hlast : Text.lastLine before = "\tif (true) ".toList := of_decide_eq_true hline
  refine ⟨d, f, hd, congrArg Prod.fst h, hboth.1, hiff.mpr (.inr ?_)⟩
  rw [hlast]
  decide

/-- **The blanks that a line starts with inside a comment are copied out of the comment**, and are
errors there. -/
theorem fix_copies_vertical_tab :
    ∃ d f, Document.parse "p" "int x = 1; long y = 2L;\n/*\n\x0b*/ if (true) x = y;" = .ok d ∧
      (FixProvider.casting.fix d (.invalidConversion ⟨45, 1, 3, 20⟩ "long" "int") .never .start).1 =
        .ok (some f) ∧
      f.document.text =
        "int x = 1; long y = 2L;\n/*\n\x0b*/ if (true) \x7b\n\x0b    x = cast<int>(y);\n\x0b\x7d" ∧
      (tokenize f.document.text).2 ≠ [] := by
  obtain ⟨d, hd⟩ : ∃ d, Document.parse "p"
      "int x = 1; long y = 2L;\n/*\n\x0b*/ if (true) x = y;" = .ok d :=
    ⟨_, Document.parse_eq_ok_iff.mpr ⟨by decide +kernel, rfl⟩⟩
  obtain ⟨-, he⟩ := Document.parse_eq_ok_iff.mp hd
  have hfound : (FixProvider.casting.fix d (.invalidConversion ⟨45, 1, 3, 20⟩ "long" "int") .never
      .start).1.toOption.join.any (fun f => f.document.text =
        "int x = 1; long y = 2L;\n/*\n\x0b*/ if (true) \x7b\n\x0b    x = cast<int>(y);\n\x0b\x7d") =
          true := by
    rw [he]
    decide +kernel
  obtain ⟨f, a', h⟩ := exists_fix_of_isSome (Option.isSome_of_any hfound)
  rw [h] at hfound
  have htext : f.document.text =
      "int x = 1; long y = 2L;\n/*\n\x0b*/ if (true) \x7b\n\x0b    x = cast<int>(y);\n\x0b\x7d" :=
    of_decide_eq_true hfound
  refine ⟨d, f, hd, congrArg Prod.fst h, htext, ?_⟩
  rw [htext]
  decide +kernel

end Recast
