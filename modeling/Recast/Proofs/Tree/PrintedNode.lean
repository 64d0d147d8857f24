/-
# The text of one statement

A statement that is printed by itself starts with a character that starts a token and ends with a
delimiter, so that its text can be put between other tokens.

* `Solid text`: the first character starts a token, whatever follows;
* `Printer.solid_exprText`, `Printer.solid_inline`: expressions and statements are printed so;
* `SyntaxTree.printed_node`: **the text of a statement is read as its tokens wherever it is put.**
-/
import Recast.Proofs.Token.Local
import Recast.Proofs.Tree.Printed

namespace Recast

/-! ## 1. The first character -/

/-- A character that starts a token and no comment. -/
def Scan.isSolid (c : Char) : Bool := !Text.isAsciiBlank c && c ≠ byteOrderMark && c ≠ '/'

/-- The text starts with a character that starts a token. -/
def Solid (text : String) : Prop := text.toList.head?.any Scan.isSolid = true

instance (text : String) : Decidable (Solid text) := inferInstanceAs (Decidable (_ = true))

/-- Only the first character matters. -/
theorem Solid.append {text : String} (h : Solid text) (more : String) : Solid (text ++ more) := by
  obtain ⟨c, hc, hs⟩ := Option.any_eq_true .. |>.mp h
  refine Option.any_eq_true .. |>.mpr ⟨c, ?_, hs⟩
  rw [String.toList_append, List.head?_append, hc]
  rfl

/-- Such a text is read from its first character on, however its lines are indented. -/
theorem Solid.opens {text : String} (h : Solid text) (indent rest : List Char) :
    Scan.Opens (Document.indentLines indent text.toList ++ rest) := by
  obtain ⟨c, hc, hs⟩ := Option.any_eq_true .. |>.mp h
  simp only [Scan.isSolid, Bool.and_eq_true, Bool.not_eq_true', decide_eq_true_eq] at hs
  rw [← @head?_indentLines indent] at hc
  obtain ⟨tail, htail⟩ := List.head?_eq_some_iff.mp hc
  rw [htail]
  exact ⟨c, tail ++ rest, rfl, hs.1.1, hs.1.2, fun he => absurd he hs.2⟩

theorem Scan.isSolid_of_isWordStart {c : Char} (h : isWordStart c = true) : isSolid c = true := by
  obtain ⟨hb, hm, hs, -⟩ := isWordStart_spec h
  simp [isSolid, hb, hm, hs]

theorem IsName.solid {name : String} (h : IsName name) : Solid name := by
  obtain ⟨c, hc, hstart⟩ := h.head
  exact Option.any_eq_true .. |>.mpr ⟨c, hc, Scan.isSolid_of_isWordStart hstart⟩

/-- A type starts with its name. -/
theorem WrittenType.Writable.solid {w : WrittenType} (h : w.Writable) : Solid w.text := by
  obtain ⟨name, args, rank, span⟩ := w
  rw [WrittenType.text, String.append_assoc]
  exact h.1.solid.append _

/-- A literal starts with a digit, a quote or a letter. -/
theorem Literal.Writable.solid {v : Literal} (h : v.Writable) : Solid v.text := by
  have hint : ∀ n : Nat, Solid (Literal.int n).text := by
    intro n
    rw [Literal.text_natCast]
    obtain ⟨d, ds, hd⟩ := List.exists_cons_of_ne_nil (Nat.toDigits_ne_nil (b := 10) (n := n))
    have hdigit : d.isDigit = true :=
      Nat.isDigit_of_mem_toDigits (by decide) (by decide) (hd ▸ List.mem_cons_self ..)
    obtain ⟨hb, hm, hs, -⟩ := Scan.isDigit_spec hdigit
    simp [Solid, hd, Scan.isSolid, hb, hm, hs]
  cases v with
  | float _ | double _ => cases h
  | bool b => cases b <;> decide
  | null => decide
  | string s =>
    simp only [Solid, Literal.text, Text.quote, String.toList_ofList]
    rfl
  | int v =>
    obtain ⟨n, rfl, -⟩ := h
    exact hint n
  | long v =>
    obtain ⟨n, rfl, -⟩ := h
    exact (hint n).append "L"

/-! ## 2. Expressions and statements -/

namespace Printer

variable {t : SyntaxTree}

/-- An expression starts as its first operand does, unless an operator stands in front. -/
theorem solid_exprText : ∀ {limit id l r : Nat}, id < limit → Fits t (.expr l r) id →
    Ready t [id] → Solid (exprText t limit id)
  | 0, _, _, _, hlt, _, _ => absurd hlt (Nat.not_lt_zero _)
  | limit + 1, id, l, r, hlt, @Fits.node _ _ _ c ρ hc ha hk, hready => by
    have sub : ∀ {k : NodeId} {l r : Nat}, k ∈ c.children → ρ k = .expr l r →
        Solid (exprText t limit k) := by
      intro k l r hmem hrole
      obtain ⟨hr, hklt⟩ := hready.child hc hmem
      exact solid_exprText (Nat.lt_of_lt_of_le hklt (Nat.le_of_lt_succ hlt)) (hrole ▸ hk k hmem) hr
    rw [exprText]
    cases ha with
    | literal =>
      simp only [hc]
      exact Literal.Writable.solid (hready.literal hc (by simp [Construct.pieces]))
    | ident =>
      simp only [hc]
      exact IsName.solid (hready.isName hc (by simp [Construct.pieces]))
    | paren _ | cast _ | newObject _ =>
      simp only [hc, String.append_assoc]
      exact Solid.append (by decide) _
    | member ho _ =>
      simp only [hc, String.append_assoc]
      exact (sub (by simp [Construct.children]) ho).append _
    | call hf _ _ =>
      simp only [hc, String.append_assoc]
      exact (sub (by simp [Construct.children]) hf).append _
    | @unary op _ _ _ _ _ =>
      simp only [hc]
      cases op <;> exact Solid.append (by decide) _
    | binary hx _ _ _ =>
      simp only [hc, String.append_assoc]
      exact (sub (by simp [Construct.children]) hx).append _
    | assign hx _ _ _ _ =>
      simp only [hc, String.append_assoc]
      exact (sub (by simp [Construct.children]) hx).append _

theorem solid_inline {limit depth id : Nat} {d : Bool} (h : Fits t (.stmt d) id)
    (hready : Ready t [id]) : Solid (inline t (limit + 1) depth id) := by
  cases h with
  | @node _ _ c ρ hc ha hk =>
    rw [inline]
    cases ha with
    | @exprStmt e l r he _ =>
      simp only [hc]
      have hmem : e ∈ (Construct.exprStmt e).children := by simp [Construct.children]
      have hfit := he ▸ hk e hmem
      refine Solid.append (solid_exprText ?_ hfit (hready.child hc hmem).1) _
      cases hfit with
      | node _ he _ _ => exact SyntaxTree.lt_size_of_construct? he
    | localDecl _ _ =>
      simp only [hc, String.append_assoc]
      exact (hready.type hc (by simp [Construct.pieces])).solid.append _
    | @returnStmt value _ =>
      cases value with
      | none =>
        simp only [hc]
        decide
      | some e =>
        simp only [hc, String.append_assoc]
        exact Solid.append (by decide) _
    | breakStmt | continueStmt | emptyStmt =>
      simp only [hc]
      decide
    | block _ =>
      simp only [hc, bracedText]
      split
      · decide
      · simp only [String.append_assoc]
        exact Solid.append (by decide) _
    | yieldStmt _ | ifThen _ _ | ifElse _ _ _ | whileStmt _ _ | doStmt _ _ =>
      simp only [hc, String.append_assoc]
      exact Solid.append (by decide) _

end Printer

/-! ## 3. A statement by itself -/

theorem Text.trimEnd_append {cs : List Char} {c b : Char} (hc : cs.getLast? = some c)
    (hblank : isBlank c = false) (hb : isBlank b = true) : trimEnd (cs ++ [b]) = cs := by
  obtain ⟨ds, rfl⟩ := List.getLast?_eq_some_iff.mp hc
  simp [trimEnd, hblank, hb]

/-- A statement by itself is printed from where it starts to its last character. -/
theorem SyntaxTree.printNode_eq {t : SyntaxTree} {id : Nat} {d : Bool} (h : Fits t (.stmt d) id)
    (hready : Ready t [id]) : ∃ limit, t.printNode id = Printer.inline t (limit + 1) 0 id ∧
      Printed true t [.node id] (Printer.inline t (limit + 1) 0 id) := by
  have hlt : id < t.size := by
    cases h with
    | node _ hc _ _ => exact lt_size_of_construct? hc
  obtain ⟨limit, hl⟩ : ∃ limit, 2 * t.size = limit + 1 + 1 := ⟨2 * t.size - 2, by omega⟩
  have hprinted : Printed true t [.node id] (Printer.inline t (limit + 1) 0 id) :=
    (Printer.printed_stmt h hready).2 (by omega)
  have hlines : Printer.lines t (limit + 1 + 1) 0 id = Printer.inline t (limit + 1) 0 id ++ "\n" := by
    cases h with
    | node _ hc ha _ =>
      have hzero : Printer.indent 0 = "" := rfl
      rw [Printer.lines_of_stmt hc ha, hzero, String.empty_append]
  refine ⟨limit, ?_, hprinted⟩
  obtain ⟨ts, -, hp⟩ := hprinted
  obtain ⟨c, hc, hblank⟩ := hp.closes rfl
  rw [printNode, printLimit, hl, hlines, String.toList_append]
  exact (congrArg String.ofList (Text.trimEnd_append hc hblank (by decide))).trans
    (String.ofList_toList ..)

/-- **The text of a statement is read as its tokens, wherever it is put.**  A block starts with a
brace. -/
theorem SyntaxTree.printed_node {t : SyntaxTree} {id : Nat} {d : Bool} (h : Fits t (.stmt d) id)
    (hready : Ready t [id]) :
    (∃ ts, Spells t Anywhere [.node id] ts ∧ Prints true (t.printNode id) ts) ∧
      Solid (t.printNode id) ∧
      ∀ stmts, t.construct? id = some (.block stmts) → (t.printNode id).toList.head? = some '\x7b' := by
  obtain ⟨limit, htext, ts, hw, hprints⟩ := printNode_eq h hready
  rw [htext]
  refine ⟨⟨ts, hw.spells, hprints⟩, Printer.solid_inline h hready, fun stmts hc => ?_⟩
  rw [Printer.inline, hc]
  simp only [Printer.bracedText]
  split
  · rfl
  · simp

end Recast
