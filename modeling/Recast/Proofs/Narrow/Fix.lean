/-
# Fixes that fit into 32 bits

The text of a fix may be larger than the text before it.  Where both are small, the fix is what it
is without a bound.  Where the first is not small, a statement far out may be located by a span at
the start of the text, and where the second is not small, it may not be parsed again.

* `Document.Reachable`: the documents that some history leads to; `Reachable.tree_eq`: **where its
  spans are current, a document has the tree of its text**, of whatever size;
* `Document.Reachable.fix_keeps_text_of_small`: **a fix of a small text changes only the bytes of the
  replaced statement**;
* `fix_of_far_return_prints_all`: the fix of a larger text that keeps nothing of it;
* `fix_reparse_of_small`: **a small text of a fix of a small text is read without errors as a tree of
  the shape that the fix has**;
* `fix_of_declaration_not_parsed`: a fix whose text is too large to be parsed again.
-/
import Recast.Proofs.Fix.Reparse
import Recast.Proofs.Fix.TextEdit
import Recast.Proofs.Narrow.Document

namespace Recast

open Text (byteSize)

theorem Document.tree_withReplacement (d : Document) (tree : SyntaxTree) (span : Span)
    (nodes : List NodeId) : (d.withReplacement tree span nodes).tree = tree ∧
      (d.withReplacement tree span nodes).version = d.version + 1 := by
  unfold withReplacement
  split <;> exact ⟨rfl, rfl⟩

/-- Where the end of the span falls inside a character, the whole is printed. -/
theorem Document.withReplacement_of_not_cut {d : Document} {tree : SyntaxTree} {span : Span}
    {nodes : List NodeId} (h : Text.splitAtByte? d.text.toList span.stop = none) :
    d.withReplacement tree span nodes = d.withTree tree := by
  rw [withReplacement, h]
  cases Text.splitAtByte? d.text.toList span.offset <;> rfl

theorem Document.text_parseLenient (name text : String) :
    (Document.parseLenient name text).1.text = text := by
  simp only [Document.parseLenient]

namespace Narrow

/-! ## 1. Documents -/

namespace Document

theorem parse_of_small (name : String) {text : String} (h : Small text) :
    Document.parse name text = some (Recast.Document.parse name text) := by
  rw [Document.parse, Narrow.parse_of_small h]
  rfl

theorem parseLenient_of_small (name : String) {text : String} (h : Small text) :
    Document.parseLenient name text = some ((Recast.Document.parseLenient name text).1,
      (Recast.Document.parseLenient name text).2) := by
  rw [Document.parseLenient, Narrow.parseLenient_of_small h]
  rfl

theorem reparse_of_small {d : Recast.Document} (h : Small d.text) :
    Document.reparse d = some d.reparse := by
  rw [Document.reparse, Narrow.parse_of_small h]
  rfl

/-- The documents that can be made by parsing, editing and parsing again. -/
inductive Reachable : Recast.Document → Prop
  | parse {name text : String} {d : Recast.Document} :
      Document.parse name text = some (.ok d) → Reachable d
  | parseLenient {name text : String} {d : Recast.Document} {errors : List ParseError} :
      Document.parseLenient name text = some (d, errors) → Reachable d
  | withTree {d d' : Recast.Document} (tree : SyntaxTree) :
      Reachable d → Document.withTree d tree = some d' → Reachable d'
  | withReplacement {d d' : Recast.Document} (tree : SyntaxTree) (span : Span) (nodes : List NodeId) :
      Reachable d → Document.withReplacement d tree span nodes = some d' → Reachable d'
  | reparse {d d' : Recast.Document} :
      Reachable d → Document.reparse d = some (.ok d') → Reachable d'

theorem parseLenient_of_parse {text : String} {tree : SyntaxTree}
    (h : Narrow.parse text = some (.ok tree)) : Narrow.parseLenient text = some (tree, []) := by
  obtain ⟨⟨tree', errors⟩, htree, hok⟩ := Option.map_eq_some_iff.mp h
  cases errors with
  | nil =>
    cases hok
    exact htree
  | cons => cases hok

theorem counted?_eq_some {d d' : Recast.Document} (h : counted? d = some d') : d' = d := by
  rw [counted?, Option.ite_none_right_eq_some] at h
  exact (Option.some.inj h.2).symm

/-- **A document whose spans are current has the tree of its text**, whatever its history is. -/
theorem Reachable.tree_eq {d : Recast.Document} (h : Reachable d) (hs : d.spansCurrent = true) :
    ∃ errors, Narrow.parseLenient d.text = some (d.tree, errors) := by
  cases h with
  | @parse name text _ hp =>
    obtain ⟨parsed, htree, hd⟩ := Option.map_eq_some_iff.mp hp
    cases parsed with
    | error => cases hd
    | ok tree =>
      cases hd
      exact ⟨[], parseLenient_of_parse htree⟩
  | @parseLenient name text _ _ hp =>
    obtain ⟨⟨tree, errors⟩, htree, hd⟩ := Option.map_eq_some_iff.mp hp
    cases hd
    exact ⟨_, htree⟩
  | withTree tree _ he =>
    rw [counted?_eq_some he] at hs
    cases hs
  | withReplacement tree span nodes _ he =>
    rw [Document.withReplacement, Option.ite_none_right_eq_some] at he
    rw [counted?_eq_some he.2, Recast.Document.withReplacement] at hs
    split at hs <;> cases hs
  | @reparse d _ _ hr =>
    obtain ⟨parsed, htree, hd⟩ := Option.map_eq_some_iff.mp hr
    cases parsed with
    | error => cases hd
    | ok tree =>
      cases hd
      exact ⟨[], parseLenient_of_parse htree⟩

end Document

/-! ## 2. The text of a fix -/

/-- A fix is the one without a bound. -/
theorem found?_eq_some {found found' : Except FixError (Option Fix) × Activity}
    (h : found? found = some found') : found' = found := by
  unfold found? at h
  split at h
  · split at h
    · obtain ⟨d, -, he⟩ := Option.map_eq_some_iff.mp h
      exact he.symm
    · cases h
  · exact (Option.some.inj h).symm

/-- Whether there are numbers of 32 bits for what a fix makes: for the end of the statement that is
replaced, the nodes of the new tree and the version of the new document. -/
def hasRoom (f : Fix) : Bool :=
  (f.document.tree.spanOf f.replaced).stop < size && f.document.tree.size ≤ size &&
    f.document.version < size

theorem found?_of_hasRoom {f : Fix} {a : Activity} (h : hasRoom f = true) :
    found? (.ok (some f), a) = some (.ok (some f), a) := by
  simp only [hasRoom, Bool.and_eq_true, decide_eq_true_eq] at h
  rw [found?, if_pos h.1, Document.counted?, if_pos h.2]
  rfl

theorem hasRoom_of_document_eq {f : Fix} {d : Recast.Document} {tree : SyntaxTree} {span : Span}
    {nodes : List NodeId} (h : f.document = d.withReplacement tree span nodes)
    (hstop : (tree.spanOf f.replaced).stop < size) (hsize : tree.size ≤ size)
    (hversion : d.version + 1 < size) : hasRoom f = true := by
  obtain ⟨htree, hnext⟩ := d.tree_withReplacement tree span nodes
  simp [hasRoom, h, htree, hnext, hstop, hsize, hversion]

/-- A search that ends with a fix for which there is room, seen from its result. -/
theorem exists_found_of_any {r : Except FixError (Option Fix) × Activity}
    (h : r.1.toOption.join.any hasRoom = true) :
    ∃ f a, r = (.ok (some f), a) ∧ found? r = some (.ok (some f), a) := by
  obtain ⟨f, a, rfl⟩ := exists_fix_of_isSome (Option.isSome_of_any h)
  exact ⟨f, a, rfl, found?_of_hasRoom h⟩

/-- The model in which every expression is an `int`. -/
def allInt : SemanticModel := ⟨fun _ => .ok ⟨.int, .int⟩, fun _ => none⟩

/-- **A fix changes only the bytes of the replaced statement.**  A document whose spans are current
has the tree of its text, whatever its history is.  So in a small text, for every model and every
engine that works through the factory, the span of the replaced statement is a range of whole
characters, and what comes before and after it stays.  The printed whole is never what is left. -/
theorem Document.Reachable.fix_keeps_text_of_small {d : Recast.Document}
    (hd : Document.Reachable d) :
    (d.spansCurrent = true → ∃ errors, Narrow.parseLenient d.text = some (d.tree, errors)) ∧
    (Small d.text → ∀ (p : FixProvider) (model : SemanticModel) (diagnostic : Diagnostic)
      (point : CancelPoint) (a a' : Activity) (f : Fix), p.engine.UsesFactory →
      fixWith p d model diagnostic point a = some (.ok (some f), a') →
      ∃ before old after new : String, d.text = before ++ old ++ after ∧
        (d.tree.spanOf f.replaced).offset = byteSize before.toList ∧
        (d.tree.spanOf f.replaced).stop = byteSize (before ++ old).toList ∧
        f.document.text = before ++ new ++ after ∧
        (∃ nodes, new = Recast.Document.replacementText f.document.tree before.toList nodes) ∧
        f.document.name = d.name ∧ f.document.version = d.version + 1 ∧
        f.document.spansCurrent = false) := by
  refine ⟨hd.tree_eq, fun hsmall p model diagnostic point a a' f hp h => ?_⟩
  have hfound := (found?_eq_some h).symm
  obtain ⟨c, produced, working, hf⟩ := fixWith_eq_ok hfound
  obtain ⟨errors, htree⟩ := hd.tree_eq hf.current
  exact fixWith_keeps_text (hsmall.parseLenient_eq htree).1.symm hp hfound

/-- A value that is assigned in a branch, before a comment. -/
theorem Document.Reachable.fix_keeps_text_before_comment :
    ∃ (d : Recast.Document) (errors : List ParseError) (f : Fix) (a' : Activity)
      (before old after new : String),
      Document.parseLenient "p" "if (b) y = 2; // kept" = some (d, errors) ∧
      fixWith .casting d allInt (.invalidConversion ⟨11, 1, 1, 12⟩ "int" "int") .never .start =
        some (.ok (some f), a') ∧
      d.text = before ++ old ++ after ∧ f.document.text = before ++ new ++ after := by
  have hsmall : Small "if (b) y = 2; // kept" := by decide +kernel
  have hparsed := Document.parseLenient_of_small "p" hsmall
  have hd := Document.Reachable.parseLenient hparsed
  obtain ⟨f, a', -, h⟩ := exists_found_of_any (r := FixProvider.casting.fixWith
    (Recast.Document.parseLenient "p" "if (b) y = 2; // kept").1 allInt
    (.invalidConversion ⟨11, 1, 1, 12⟩ "int" "int") .never .start) (by decide +kernel)
  obtain ⟨before, old, after, new, htext, -, -, hnew, -⟩ :=
    hd.fix_keeps_text_of_small.2 (by rwa [Document.text_parseLenient]) _ _ _ _ _ _ f
      castEngine_usesFactory h
  exact ⟨_, _, f, a', before, old, after, new, hparsed, h, htext, hnew⟩

/-! ## 3. A fix of a larger text -/

theorem fix_never (p : FixProvider) (d : Recast.Document) (diagnostic : Diagnostic) (a : Activity) :
    fix p d diagnostic .never a =
      fixWith p d (Analysis.ofTree d.tree).model diagnostic .never a :=
  congrArg found? (bind_of_ok (FixM.check_never a))

/-- A value that is converted by one statement has a fix, if there is room for it. -/
theorem fixWith_of_cast (t : String) (model : SemanticModel) (diagnostic : Diagnostic)
    {tree working : SyntaxTree} {c : Convertible} {r : MappingRequest} {n : NodeId}
    {placement : Placement} {a : Activity} (hcode : diagnostic.code ∈ FixProvider.fixableCodes)
    (hc : tree.convertibleAt? diagnostic.start = some c)
    (hr : MappingRequest.gather tree model .never c .start = (.ok r, a))
    (he : castEngine r tree = (.ok [n], working)) (hstmt : working.isStatement n = true)
    (hplaced : (working.replaceStatement r.stmt [n]).1 = .ok placement)
    (hstop : ((working.replaceStatement r.stmt [n]).2.spanOf r.stmt).stop < size)
    (hsize : (working.replaceStatement r.stmt [n]).2.size ≤ size) :
    ∃ f a', fixWith .casting ⟨"p", t, tree, 0, true⟩ model diagnostic .never .start =
        some (.ok (some f), a') ∧ f.request = r ∧
      f.document = Recast.Document.withReplacement ⟨"p", t, tree, 0, true⟩
        (working.replaceStatement r.stmt [n]).2 (working.spanOf r.stmt)
        (FixProvider.shownNodes placement [n]) := by
  have hfilter : [n].filter working.isStatement = [n] := by simp [hstmt]
  obtain ⟨a', h⟩ := fixWith_of_placed .casting ⟨"p", t, tree, 0, true⟩ model diagnostic hcode rfl hc
    hr he (by simp [hfilter]) (by rw [hfilter]; exact Prod.ext hplaced rfl)
  rw [hfilter] at h
  refine ⟨_, a', (congrArg found? h).trans (found?_of_hasRoom ?_), rfl, rfl⟩
  exact hasRoom_of_document_eq rfl hstop hsize (show 0 + 1 < size by decide)

/-- The statement `return true;` after a comment and so many blanks. -/
def returnAfter (n : Nat) : String :=
  apart ['/', '/', ' ', 'r', 'e', 't', 'u', 'r', 'n', 's', ' ', 'é', '\n'] n
    ['r', 'e', 't', 'u', 'r', 'n', ' ', 't', 'r', 'u', 'e', ';', '\n']

theorem lexed_returnAfter (n : Nat) : Lexed .start (returnAfter n).toList
    [⟨.returnWord, "return", ⟨14 + n, 6, 2, 1 + n⟩⟩,
      ⟨.trueWord, "true", ⟨14 + n + 7, 4, 2, 1 + n + 7⟩⟩,
      ⟨.semicolon, ";", ⟨14 + n + 11, 1, 2, 1 + n + 11⟩⟩] ⟨14 + n + 12, 2, 1 + n + 12⟩ ['\n'] := by
  rw [returnAfter, toList_apart]
  refine Lexed.after_comment [' ', 'r', 'e', 't', 'u', 'r', 'n', 's', ' ', 'é'] (by decide)
    (Scan.head?_blanks (by decide) n) (by simp) ?_
  refine Lexed.after_blanks (s := ⟨.ok .returnWord, ['r', 'e', 't', 'u', 'r', 'n'], _⟩) n
    (Scan.opens_cons (by decide)) rfl ?_
  refine Lexed.after_blanks (s := ⟨.ok .trueWord, ['t', 'r', 'u', 'e'], _⟩) 1
    (Scan.opens_cons (by decide)) rfl ?_
  exact Lexed.after_blanks (s := ⟨.ok .semicolon, [';'], _⟩) 0 (Scan.opens_cons (by decide)) rfl .nil

/-- The tokens of that statement with offsets from the start of the text, in a column of the second
line, with any spellings. -/
def returnTokens (col : Nat) (l₁ l₂ l₃ : String) : List Token :=
  [⟨.returnWord, l₁, ⟨0, 6, 2, col⟩⟩, ⟨.trueWord, l₂, ⟨7, 4, 2, col + 7⟩⟩,
    ⟨.semicolon, l₃, ⟨11, 1, 2, col + 11⟩⟩]

/-- What is handed out for a statement that stands `2 ^ 32` bytes from the start of the text: its spans
are those of the comment. -/
theorem tokenize_returnAfter : ∃ (l₁ l₂ l₃ l₄ : String) (s : Span),
    tokenize (returnAfter (size - 14)) =
      some (returnTokens (size - 13) l₁ l₂ l₃ ++ [⟨.eof, l₄, s⟩], []) := by
  have hlex := lexed_returnAfter (size - 14)
  have hslash : SlashesPlaced (Lexer.ofText (returnAfter (size - 14))) :=
    slashesPlaced_of_comment (by rw [returnAfter, toList_apart]; rfl) (by simp [List.mem_replicate])
  have hreturn : span? ⟨14 + (size - 14), 6, 2, 1 + (size - 14)⟩ =
      some ⟨0, 6, 2, size - 13⟩ := by decide
  have htrue : span? ⟨14 + (size - 14) + 7, 4, 2, 1 + (size - 14) + 7⟩ =
      some ⟨7, 4, 2, size - 13 + 7⟩ := by decide
  have hsemi : span? ⟨14 + (size - 14) + 11, 1, 2, 1 + (size - 14) + 11⟩ =
      some ⟨11, 1, 2, size - 13 + 11⟩ := by decide
  have htoks : HandedOut (returnAfter (size - 14)).toList _ _ :=
    .cons (token?_apart (t := ⟨.returnWord, "return", _⟩) []
      ['/', '/', ' ', 'r', 'e', 't', 'u', 'r', 'n', 's', ' ', 'é', '\n'] (size - 14)
      ['r', 'e', 't', 'u', 'r', 'n'] [' ', 't', 'r', 'u', 'e', ';', '\n'] hreturn rfl (by decide))
    (.cons (token?_apart (t := ⟨.trueWord, "true", _⟩) ['/', '/', ' ', 'r', 'e', 't', 'u']
      ['r', 'n', 's', ' ', 'é', '\n'] (size - 14)
      ['r', 'e', 't', 'u', 'r', 'n', ' ', 't', 'r', 'u', 'e'] [';', '\n'] htrue rfl (by decide))
    (.cons (token?_apart (t := ⟨.semicolon, ";", _⟩)
      ['/', '/', ' ', 'r', 'e', 't', 'u', 'r', 'n', 's', ' '] ['é', '\n'] (size - 14)
      ['r', 'e', 't', 'u', 'r', 'n', ' ', 't', 'r', 'u', 'e', ';'] ['\n'] hsemi rfl (by decide))
      .nil))
  have htext : (returnAfter (size - 14)).toList =
      ['/', '/', ' ', 'r', 'e', 't', 'u', 'r', 'n', 's', ' ', 'é'] ++
        ('\n' :: (List.replicate (size - 14) ' ' ++
          ['r', 'e', 't', 'u', 'r', 'n', ' ', 't', 'r', 'u', 'e', ';', '\n'])) := by
    rw [returnAfter, toList_apart]
    rfl
  obtain ⟨s, hend⟩ := token?_endOf_apart htext (by decide) (by decide)
  exact ⟨_, _, _, _, s, tokenize_of_handedOut hlex rfl hslash htoks hend
    (errors_of_lexed hlex rfl (by simp))⟩

/-- The tree of a statement `return true;` that is handed out at the start of a text of so many bytes,
in a column of the second line. -/
def returnTree (col textSize : Nat) : SyntaxTree :=
  ⟨#[⟨.literal (.bool true), ⟨7, 4, 2, col + 7⟩, some 1⟩,
    ⟨.returnStmt (some 0), ⟨0, 12, 2, col⟩, some 2⟩,
    ⟨.unit [1], ⟨0, textSize, 1, 1⟩, none⟩], 2⟩

theorem program_of_return (l₁ l₂ l₃ l₄ : String) (s : Span) (col textSize : Nat) :
    (Parse.program (.ofLexed (returnTokens col l₁ l₂ l₃ ++ [⟨.eof, l₄, s⟩], []) textSize)).2.tree =
      returnTree col textSize ∧
    (Parse.program (.ofLexed (returnTokens col l₁ l₂ l₃ ++ [⟨.eof, l₄, s⟩], []) textSize)).2.errors =
      [] := by
  constructor <;> cbv

theorem parse_returnAfter :
    Document.parse "p" (returnAfter (size - 14)) =
      some (.ok ⟨"p", returnAfter (size - 14), returnTree (size - 13) 13, 0, true⟩) := by
  obtain ⟨l₁, l₂, l₃, l₄, s, htoks⟩ := tokenize_returnAfter
  have hsize : cut (byteSize (returnAfter (size - 14)).toList) = 13 := by
    rw [returnAfter, byteSize_apart]
    decide
  obtain ⟨htree, herrors⟩ := program_of_return l₁ l₂ l₃ l₄ s (size - 13) 13
  rw [Document.parse, parse, parseLenient_of_tokenize htoks rfl, hsize, htree, herrors]
  rfl

/-- The fix for the value of that statement prints the whole program, if its span cannot be cut out of
the text. -/
theorem fixWith_returnTree {text : String} (hcut : Text.splitAtByte? text.toList 12 = none) :
    ∃ tree f a', fixWith .casting ⟨"p", text, returnTree (size - 13) 13, 0, true⟩ allInt
      (.invalidConversion ⟨0, 12, 2, 1⟩ "int" "int") .never .start = some (.ok (some f), a') ∧
      f.replaced = 1 ∧ f.document =
        Recast.Document.withTree ⟨"p", text, returnTree (size - 13) 13, 0, true⟩ tree := by
  let r : MappingRequest := ⟨.int, .int, 0, none, 1, .returned, false, false⟩
  let working := (castEngine r (returnTree (size - 13) 13)).2
  let u := (working.replaceStatement r.stmt [5]).2
  have hc : (returnTree (size - 13) 13).convertibleAt? 0 = some (.returned 1 0) := by decide +kernel
  have he : castEngine r (returnTree (size - 13) 13) = (.ok [5], working) :=
    Prod.ext (by cbv) rfl
  obtain ⟨hstmt, hplaced, hstop, hsize, hspan⟩ : working.isStatement 5 = true ∧
      (working.replaceStatement r.stmt [5]).1 = .ok (.spliced 2 1) ∧ (u.spanOf r.stmt).stop < size ∧
      u.size ≤ size ∧ working.spanOf r.stmt = ⟨0, 12, 2, size - 13⟩ := by decide +kernel
  obtain ⟨f, a', h, hr, hdoc⟩ := fixWith_of_cast text allInt
    (.invalidConversion ⟨0, 12, 2, 1⟩ "int" "int") (r := r) (by decide) hc rfl he hstmt hplaced hstop
    hsize
  refine ⟨u, f, a', h, congrArg MappingRequest.stmt hr, hdoc.trans ?_⟩
  exact Recast.Document.withReplacement_of_not_cut (hspan ▸ hcut)

/-- **A fix of a larger text may lose all that the text has**: that of a value which stands `2 ^ 32`
bytes from the start of the text, of whose statement the span ends in the middle of a character,
prints the whole program. -/
theorem fix_of_far_return_prints_all : ∃ d f a',
    Document.parse "p" (returnAfter (size - 14)) = some (.ok d) ∧
      fixWith .casting d allInt (.invalidConversion ⟨0, 12, 2, 1⟩ "int" "int") .never .start =
        some (.ok (some f), a') ∧
      f.document.text = f.document.tree.print ∧
      ¬ ∃ before old after : String, d.text = before ++ old ++ after ∧
        (d.tree.spanOf f.replaced).stop = byteSize (before ++ old).toList := by
  have hcut : Text.splitAtByte? (returnAfter (size - 14)).toList 12 = none := by
    rw [returnAfter, toList_apart]
    rfl
  obtain ⟨tree, f, a', hfix, hreplaced, hdoc⟩ := fixWith_returnTree hcut
  refine ⟨_, f, a', parse_returnAfter, hfix, ?_, ?_⟩
  · rw [hdoc]
    rfl
  · rintro ⟨before, old, after, htext, hstop⟩
    have htwelve : byteSize (before ++ old).toList = 12 := by
      rw [← hstop, hreplaced]
      rfl
    have hsplit := Text.splitAtByte?_byteSize (before ++ old).toList after.toList
    rw [htwelve, ← String.toList_append, ← htext, hcut] at hsplit
    cases hsplit

/-! ## 4. Both edits -/

theorem onlyAsciiBlanks {cs : List Char}
    (h : cs.all (fun ch => !Text.isBlank ch || Text.isAsciiBlank ch) = true) :
    ∀ ch ∈ cs, Text.isBlank ch = true → Text.isAsciiBlank ch = true := by
  intro ch hch hblank
  simpa [hblank] using List.all_eq_true.mp h ch hch

/-- **A small text of a fix is read without errors as a tree of the shape that the fix has.**  The
document was read without errors from a small text, with no other blanks than those between tokens; the
type that is cast to is not that of `null`, and no floating-point literal is written again. -/
theorem fix_reparse_of_small {name text : String} {d : Recast.Document} (hsmall : Small text)
    (hd : Document.parse name text = some (.ok d))
    (hblank : ∀ ch ∈ text.toList, Text.isBlank ch = true → Text.isAsciiBlank ch = true)
    {diagnostic : Diagnostic} {point : CancelPoint} {a a' : Activity} {f : Fix}
    (h : fix .casting d diagnostic point a = some (.ok (some f), a'))
    (hfixed : Small f.document.text) (hnull : f.request.destinationType ≠ .null)
    (hexact : ∀ i v, d.tree.Under [f.replaced] i → d.tree.construct? i = some (.literal v) →
      v.isExact = true) :
    ∃ d', Document.reparse f.document = some (.ok d') ∧
      SameShape f.document.tree d'.tree [f.document.tree.root] [d'.tree.root] := by
  rw [Document.parse_of_small name hsmall, Option.some.injEq] at hd
  obtain ⟨d', hd', hshape⟩ := fix_reparse hd hblank (found?_eq_some h).symm hnull hexact
  refine ⟨d', ?_, hshape⟩
  rw [Document.reparse_of_small hfixed, hd']

/-- The value that one branch of an `if` returns is cast, in a block of its own. -/
theorem fix_reparse_in_branch : ∃ d f a' d',
    Document.parse "p" "long f(int x) \x7b if (true) return x; return 1; \x7d" = some (.ok d) ∧
      fix .casting d (.invalidConversion ⟨33, 1, 1, 34⟩ "int" "long") .never .start =
        some (.ok (some f), a') ∧
      Document.reparse f.document = some (.ok d') ∧
      SameShape f.document.tree d'.tree [f.document.tree.root] [d'.tree.root] := by
  have hsmall : Small "long f(int x) \x7b if (true) return x; return 1; \x7d" := by decide +kernel
  obtain ⟨d, hd⟩ : ∃ d, Recast.Document.parse "p"
      "long f(int x) \x7b if (true) return x; return 1; \x7d" = .ok d :=
    ⟨_, Recast.Document.parse_eq_ok_iff.mpr ⟨by decide +kernel, rfl⟩⟩
  have hparsed := Document.parse_of_small "p" hsmall
  rw [hd] at hparsed
  obtain ⟨-, he⟩ := Recast.Document.parse_eq_ok_iff.mp hd
  have hblank : "long f(int x) \x7b if (true) return x; return 1; \x7d".toList.all
      (fun ch => !Text.isBlank ch || Text.isAsciiBlank ch) = true := by decide +kernel
  have hfound : (FixProvider.casting.fix d (.invalidConversion ⟨33, 1, 1, 34⟩ "int" "long") .never
      .start).1.toOption.join.any (fun f => hasRoom f && decide (Small f.document.text) &&
        f.request.destinationType.name = "long" && f.replaced = 2) = true := by
    rw [he]
    decide +kernel
  have hexact : d.tree.isAttached 2 = true ∧ d.tree.Exact := by
    rw [he]
    decide +kernel
  have hrooted : d.tree.Rooted := by
    rw [Recast.Document.Reachable.tree_eq (.parse hd) (by rw [he])]
    exact parseLenient_rooted d.text
  obtain ⟨f, a', h⟩ := exists_fix_of_isSome (Option.isSome_of_any hfound)
  rw [h] at hfound
  obtain ⟨⟨⟨hroom, hfixed⟩, hlong⟩, hreplaced⟩ : ((hasRoom f = true ∧ Small f.document.text) ∧
      f.request.destinationType.name = "long") ∧ f.replaced = 2 := by
    simpa using (show (hasRoom f && decide (Small f.document.text) &&
      f.request.destinationType.name = "long" && f.replaced = 2) = true from hfound)
  have hnull : f.request.destinationType ≠ .null := by
    intro hn
    rw [hn] at hlong
    exact absurd hlong (by decide)
  have hfix : fix .casting d (.invalidConversion ⟨33, 1, 1, 34⟩ "int" "long") .never .start =
      some (.ok (some f), a') := (congrArg found? h).trans (found?_of_hasRoom hroom)
  have hunder : ∀ i v, d.tree.Under [f.replaced] i → d.tree.construct? i = some (.literal v) →
      v.isExact = true := by
    intro i v hi
    rw [hreplaced] at hi
    refine hexact.2 i v (hrooted.isAttached_iff.mpr (hi.mono fun k hk => ?_))
    rw [List.mem_singleton.mp hk]
    exact hrooted.isAttached_iff.mp hexact.1
  obtain ⟨d', hd', hshape⟩ :=
    fix_reparse_of_small hsmall hparsed (onlyAsciiBlanks hblank) hfix hfixed hnull hunder
  exact ⟨d, f, a', d', hparsed, hfix, hd', hshape⟩

/-- The declaration `int x=1;` after a comment, and so many blanks. -/
def declarationBefore (n : Nat) : String :=
  apart ['/', '/', 'é', '\n', 'i', 'n', 't', ' ', 'x', '=', '1', ';'] n []

/-- The tokens of that declaration. -/
def declarationTokens : List Token :=
  [⟨.identifier, "int", ⟨5, 3, 2, 1⟩⟩, ⟨.identifier, "x", ⟨9, 1, 2, 5⟩⟩,
    ⟨.equal, "=", ⟨10, 1, 2, 6⟩⟩, ⟨.intLiteral, "1", ⟨11, 1, 2, 7⟩⟩,
    ⟨.semicolon, ";", ⟨12, 1, 2, 8⟩⟩]

/-- The tree of that declaration, in a text of so many bytes. -/
def declarationTree (textSize : Nat) : SyntaxTree :=
  ⟨#[⟨.literal (.int 1), ⟨11, 1, 2, 7⟩, some 1⟩,
    ⟨.localDecl ⟨"int", [], 0, ⟨5, 3, 2, 1⟩⟩ [⟨⟨"x", ⟨9, 1, 2, 5⟩⟩, some 0⟩], ⟨5, 8, 2, 1⟩, some 2⟩,
    ⟨.unit [1], ⟨0, textSize, 1, 1⟩, none⟩], 2⟩

theorem lexed_declarationBefore {n : Nat} (hn : 0 < n) : Lexed .start (declarationBefore n).toList
    declarationTokens ⟨13, 2, 9⟩ (List.replicate n ' ' ++ []) := by
  have hsemi : Scan.token ';' (List.replicate n ' ' ++ []) =
      ⟨.ok .semicolon, [';'], List.replicate n ' ' ++ []⟩ := by
    obtain ⟨n, rfl⟩ := Nat.exists_eq_succ_of_ne_zero (Nat.ne_of_gt hn)
    rfl
  rw [declarationBefore, toList_apart]
  refine Lexed.after_comment ['é'] (by decide) (by simp [Scan.byteOrderMark])
    (List.cons_ne_nil _ _) ?_
  refine Lexed.after_blanks (s := ⟨.ok .identifier, ['i', 'n', 't'], _⟩) 0
    (Scan.opens_cons (by decide)) rfl ?_
  refine Lexed.after_blanks (s := ⟨.ok .identifier, ['x'], _⟩) 1 (Scan.opens_cons (by decide)) rfl ?_
  refine Lexed.after_blanks (s := ⟨.ok .equal, ['='], _⟩) 0 (Scan.opens_cons (by decide)) rfl ?_
  refine Lexed.after_blanks (s := ⟨.ok .intLiteral, ['1'], _⟩) 0 (Scan.opens_cons (by decide)) rfl ?_
  exact Lexed.after_blanks 0 (Scan.opens_cons (by decide)) hsemi .nil

theorem program_of_declaration (l : String) (s : Span) (textSize : Nat) :
    (Parse.program (.ofLexed (declarationTokens ++ [⟨.eof, l, s⟩], []) textSize)).2.tree =
      declarationTree textSize ∧
    (Parse.program (.ofLexed (declarationTokens ++ [⟨.eof, l, s⟩], []) textSize)).2.errors = [] := by
  constructor <;> cbv

theorem byteSize_declarationBefore :
    byteSize (declarationBefore (size - 23)).toList = size - 10 := by
  rw [declarationBefore, byteSize_apart]
  decide

theorem parse_declarationBefore : Document.parse "p" (declarationBefore (size - 23)) =
    some (.ok ⟨"p", declarationBefore (size - 23), declarationTree (size - 10), 0, true⟩) := by
  have hlex := lexed_declarationBefore (n := size - 23) (by decide)
  have hspent : Spent (List.replicate (size - 23) ' ' ++ []) := by
    rw [List.append_nil]
    exact spent_blanks _
  have hsmall : Small (declarationBefore (size - 23)) := by
    rw [Small, byteSize_declarationBefore]
    decide
  have hsize : cut (byteSize (declarationBefore (size - 23)).toList) = size - 10 := by
    rw [byteSize_declarationBefore]
    decide
  obtain ⟨htoks, hnone⟩ := tokenize_of_lexed hlex hspent
  obtain ⟨l, s, hend⟩ : ∃ l s, Token.endOf (declarationBefore (size - 23)) = ⟨.eof, l, s⟩ :=
    ⟨_, _, rfl⟩
  rw [hend] at htoks
  have htokens : tokenize (declarationBefore (size - 23)) =
      some (declarationTokens ++ [⟨.eof, l, s⟩], []) :=
    (tokenize_of_small hsmall).trans (congrArg some (Prod.ext htoks (hnone.mpr (by decide))))
  obtain ⟨htree, herrors⟩ := program_of_declaration l s (size - 10)
  rw [Document.parse, parse, parseLenient_of_tokenize htokens rfl, hsize, htree, herrors]
  rfl

/-- The fix for the value of that declaration casts it. -/
theorem fix_declarationTree {n : Nat} {text : String}
    (htext : text.toList = ['/', '/', 'é', '\n'] ++ (['i', 'n', 't', ' ', 'x', '=', '1', ';'] ++
      List.replicate n ' ')) :
    ∃ f a', fix .casting ⟨"p", text, declarationTree (size - 10), 0, true⟩
      (.invalidConversion ⟨11, 1, 2, 7⟩ "int" "int") .never .start = some (.ok (some f), a') ∧
      f.replaced = 1 ∧ f.request.destinationType = .int ∧
      f.document.text = apart (['/', '/', 'é', '\n'] ++ "int x = cast<int>(1);".toList) n [] := by
  let r : MappingRequest := ⟨.int, .int, 0, none, 1, .declaration, true, false⟩
  let working := (castEngine r (declarationTree (size - 10))).2
  let u := (working.replaceStatement r.stmt [5]).2
  have hc : (declarationTree (size - 10)).convertibleAt? 11 = some (.declaration 1 0) := by
    decide +kernel
  have hr : MappingRequest.gather (declarationTree (size - 10))
      (Analysis.ofTree (declarationTree (size - 10))).model .never (.declaration 1 0) .start =
      (.ok r, _) := Prod.ext (by cbv) rfl
  have he : castEngine r (declarationTree (size - 10)) = (.ok [5], working) :=
    Prod.ext (by cbv) rfl
  obtain ⟨hstmt, hplaced, hstop, hsize, hspan⟩ : working.isStatement 5 = true ∧
      (working.replaceStatement r.stmt [5]).1 = .ok (.spliced 2 1) ∧ (u.spanOf r.stmt).stop < size ∧
      u.size ≤ size ∧ working.spanOf r.stmt = ⟨5, 8, 2, 1⟩ := by decide +kernel
  have hprinted : Document.replacementText u ['/', '/', 'é', '\n'] [5] = "int x = cast<int>(1);" := by
    decide +kernel
  obtain ⟨f, a', h, hrequest, hdoc⟩ := fixWith_of_cast text _
    (.invalidConversion ⟨11, 1, 2, 7⟩ "int" "int") (r := r) (by decide) hc hr he hstmt hplaced hstop
    hsize
  refine ⟨f, a', (fix_never ..).trans h, congrArg MappingRequest.stmt hrequest,
    congrArg MappingRequest.destinationType hrequest, ?_⟩
  rw [hdoc, hspan, Recast.Document.withReplacement_of_cut htext rfl rfl]
  change String.ofList _ ++ Document.replacementText _ _ [5] ++ String.ofList _ = _
  rw [hprinted, ← String.toList_inj, toList_apart]
  simp

/-- **The text of a fix may be too large to be parsed again**: here the end of it, as it is handed out,
falls into the middle of a character. -/
theorem fix_of_declaration_not_parsed : ∃ d f a',
    Document.parse "p" (declarationBefore (size - 23)) = some (.ok d) ∧
      (∀ ch ∈ d.text.toList, Text.isBlank ch = true → Text.isAsciiBlank ch = true) ∧
      fix .casting d (.invalidConversion ⟨11, 1, 2, 7⟩ "int" "int") .never .start =
        some (.ok (some f), a') ∧
      f.request.destinationType ≠ .null ∧
      (∀ i v, d.tree.Under [f.replaced] i → d.tree.construct? i = some (.literal v) →
        v.isExact = true) ∧
      Document.reparse f.document = none := by
  have hsplit : (declarationBefore (size - 23)).toList = ['/', '/', 'é', '\n'] ++
      (['i', 'n', 't', ' ', 'x', '=', '1', ';'] ++ List.replicate (size - 23) ' ') := by
    rw [declarationBefore, toList_apart, List.append_nil]
    rfl
  obtain ⟨f, a', hfix, hreplaced, hint, htext⟩ := fix_declarationTree hsplit
  refine ⟨_, f, a', parse_declarationBefore, ?_, hfix, ?_, ?_, ?_⟩
  · change ∀ ch ∈ (declarationBefore (size - 23)).toList, _
    rw [hsplit, List.forall_mem_append, List.forall_mem_append]
    refine ⟨onlyAsciiBlanks (by decide), onlyAsciiBlanks (by decide), fun ch hch _ => ?_⟩
    rw [List.eq_of_mem_replicate hch]
    rfl
  · intro hnull
    exact absurd (congrArg DataType.name (hint.symm.trans hnull)) (by decide)
  · intro i v _ hv
    have hi : i < 3 := SyntaxTree.lt_size_of_construct? hv
    match i, hi with
    | 0, _ =>
      cases hv
      rfl
    | 1, _ | 2, _ => cases hv
  · have hcut : cut (byteSize (apart (['/', '/', 'é', '\n'] ++ "int x = cast<int>(1);".toList)
        (size - 23) []).toList) = 3 := by
      rw [byteSize_apart]
      decide
    have hnone : tokenize f.document.text = none := by
      refine tokenize_eq_none_of_not_cut ?_
      rw [htext, hcut, toList_apart]
      rfl
    rw [Document.reparse, parse, parseLenient, hnone]
    rfl

end Narrow

end Recast
