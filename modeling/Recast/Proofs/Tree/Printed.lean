/-
# The text of a tree

The printer adds no parentheses and no marks of its own.  A tree that fits its role and whose names,
literals and types can be written is printed as a text that is read as its own tokens.

* `Writes t ps ts`: the tokens `ts` are those that the pieces `ps` are printed as, one of the ways to
  spell them (`Writes.spells`);
* `Printed closed t ps text`: the text is read as these tokens, in front of anything that does not
  carry it on; `Filled t ps text`: the same for whole lines;
* `Ready t ids`: what lies below some nodes can be written, and children come before their parents,
  so that the limits of the printer are not met;
* `printed_exprText`, `printed_stmt`, `filled_item`: **every expression, statement and declaration
  is printed as its pieces**;
* `written_print`: so is a whole program; `filled_print`: its text is read as tokens that spell it.
-/
import Recast.Proofs.Grammar.Writable
import Recast.Tree.Printer

namespace Recast

variable {t : SyntaxTree}

/-! ## 1. The tokens that are printed -/

/-- The tokens are a piece that is not a node, as it is printed: a type has as many brackets as its
rank, and a property is read first and set after it. -/
def Piece.Written : Piece → List Token → Prop
  | type w, ts => w.Writable ∧ ts = w.tokens
  | accessors b, ts => ts = Accessors.tokens b
  | sign k, ts => (sign k).Spelled ts
  | name n, ts => (name n).Spelled ts
  | literal v, ts => (literal v).Spelled ts
  | node _, _ => False

/-- The tokens are the pieces, one after another, each of them as it is printed. -/
inductive Writes (t : SyntaxTree) : List Piece → List Token → Prop
  | nil : Writes t [] []
  | leaf {p : Piece} {ps : List Piece} {us ts : List Token} : p.Written us → Writes t ps ts →
      Writes t (p :: ps) (us ++ ts)
  | node {id : NodeId} {c : Construct} {ps : List Piece} {us ts : List Token} :
      t.construct? id = some c → Writes t c.pieces us → Writes t ps ts →
      Writes t (.node id :: ps) (us ++ ts)

theorem Piece.Written.spelled {p : Piece} {ts : List Token} (h : p.Written ts) : p.Spelled ts := by
  cases p with
  | type w =>
    obtain ⟨hw, rfl⟩ := h
    exact (WrittenType.prints hw).1
  | accessors b =>
    obtain rfl := h
    exact Accessors.tokens_spell b
  | node _ => cases h
  | sign _ | name _ | literal _ => exact h

namespace Writes

variable {ps qs : List Piece} {ts us : List Token}

/-- What is printed is one way to spell the pieces. -/
theorem spells (h : Writes t ps ts) : Spells t Anywhere ps ts := by
  induction h with
  | nil => exact .nil
  | leaf hp _ ih => exact .leaf hp.spelled ih
  | node hc _ _ ih₁ ih₂ => exact .node hc ih₁ trivial ih₂

theorem append (h : Writes t ps ts) (h' : Writes t qs us) : Writes t (ps ++ qs) (ts ++ us) := by
  induction h with
  | nil => exact h'
  | leaf hp _ ih =>
    rw [List.append_assoc]
    exact .leaf hp ih
  | node hc hk _ _ ih =>
    rw [List.append_assoc]
    exact .node hc hk ih

theorem of_append : ∀ {ps : List Piece} {ts : List Token}, Writes t (ps ++ qs) ts →
    ∃ us vs, ts = us ++ vs ∧ Writes t ps us ∧ Writes t qs vs
  | [], ts, h => ⟨[], ts, rfl, .nil, h⟩
  | p :: ps, _, h => by
    cases h with
    | leaf hp h =>
      obtain ⟨us, vs, rfl, hus, hvs⟩ := of_append h
      exact ⟨_, vs, (List.append_assoc ..).symm, .leaf hp hus, hvs⟩
    | node hc hk h =>
      obtain ⟨us, vs, rfl, hus, hvs⟩ := of_append h
      exact ⟨_, vs, (List.append_assoc ..).symm, .node hc hk hus, hvs⟩

theorem of_leaf {p : Piece} (hp : p.isNode = false) (h : Writes t (p :: ps) ts) :
    ∃ us vs, ts = us ++ vs ∧ p.Written us ∧ Writes t ps vs := by
  cases h with
  | leaf hw h => exact ⟨_, _, rfl, hw, h⟩
  | node _ _ _ => cases hp

theorem of_node {id : NodeId} {c : Construct} (hc : t.construct? id = some c)
    (h : Writes t (.node id :: ps) ts) :
    ∃ us vs, ts = us ++ vs ∧ Writes t c.pieces us ∧ Writes t ps vs := by
  cases h with
  | leaf hw _ => cases hw
  | node hc' hk h =>
    rw [hc] at hc'
    cases hc'
    exact ⟨_, _, rfl, hk, h⟩

/-- A piece of one token. -/
theorem token {p : Piece} {a : Token} (hp : p.Written [a]) (h : Writes t ps ts) :
    Writes t (p :: ps) (a :: ts) := leaf hp h

theorem sign {k : TokenKind} (h : Writes t ps ts) : Writes t (.sign k :: ps) (k.token :: ts) :=
  token ⟨_, rfl, rfl⟩ h

theorem name (n : String) : Writes t [.name n] [.word n] := token ⟨_, rfl, rfl, rfl⟩ nil

theorem node_singleton {id : NodeId} {c : Construct} (hc : t.construct? id = some c)
    (h : Writes t c.pieces ts) : Writes t [.node id] ts := by
  rw [← List.append_nil ts]
  exact .node hc h .nil

end Writes

/-! ## 2. Texts of pieces -/

/-- The text is read as the tokens that the pieces are printed as, in front of clear characters, and
in front of any if it is closed. -/
def Printed (closed : Bool) (t : SyntaxTree) (ps : List Piece) (text : String) : Prop :=
  ∃ ts, Writes t ps ts ∧ Prints closed text ts

/-- The text is read as the tokens that the pieces are printed as, in front of anything. -/
def Filled (t : SyntaxTree) (ps : List Piece) (text : String) : Prop :=
  ∃ ts, Writes t ps ts ∧ PrintsLines text ts

namespace Printed

variable {a b : Bool} {ps qs : List Piece} {text more : String} {k : TokenKind}

theorem append (h : Printed a t ps text) (h' : Printed b t qs more) (hb : Breaks more) :
    Printed b t (ps ++ qs) (text ++ more) := by
  obtain ⟨ts, hs, hp⟩ := h
  obtain ⟨us, hs', hp'⟩ := h'
  exact ⟨ts ++ us, hs.append hs', hp.append hp' hb⟩

theorem sign (hk : k.standsAlone = true) : Printed false t [.sign k] k.spelling :=
  ⟨[k.token], .sign .nil, .sign hk⟩

theorem delimiter (hk : k.isDelimiter = true) : Printed true t [.sign k] k.spelling :=
  ⟨[k.token], .sign .nil, .delimiter hk⟩

theorem after (h : Printed b t ps text) (hk : k.standsAlone = true) (hw : k.isKeyword = false) :
    Printed b t (.sign k :: ps) (k.spelling ++ text) := by
  obtain ⟨ts, hs, hp⟩ := h
  exact ⟨k.token :: ts, hs.sign, hp.after hk hw⟩

/-- A text after a keyword or any other sign, where it carries nothing on. -/
theorem follows (h : Printed b t ps text) (hk : k.standsAlone = true) (hb : Breaks text) :
    Printed b t (.sign k :: ps) (k.spelling ++ text) :=
  (sign hk).append h hb

theorem blanks (h : Printed b t ps text) {bs : String}
    (hb : Blanks bs.toList) : Printed b t ps (bs ++ text) := by
  obtain ⟨ts, hs, hp⟩ := h
  exact ⟨ts, hs, hp.blanks hb⟩

theorem blank (h : Printed b t ps text) : Printed b t ps (" " ++ text) := h.blanks (by decide)

theorem newline (h : Printed b t ps text) : Printed b t ps ("\n" ++ text) := h.blanks (by decide)

/-- A text after a keyword and a blank. -/
theorem keyword (h : Printed b t ps text) (hk : k.standsAlone = true) :
    Printed b t (.sign k :: ps) (k.spelling ++ (" " ++ text)) :=
  h.blank.follows hk (Breaks.append (by decide) _)

theorem operator (h : Printed b t ps text) (hk : k.spelling ≠ "") :
    Printed b t (.sign k :: ps) (" " ++ (k.spelling ++ (" " ++ text))) := by
  obtain ⟨ts, hs, hp⟩ := h
  exact ⟨k.token :: ts, hs.sign, hp.operator hk⟩

theorem name {n : String} (h : IsName n) : Printed false t [.name n] n :=
  ⟨[.word n], .name n, h.prints⟩

theorem literal {v : Literal} (h : v.Writable) : Printed false t [.literal v] v.text := by
  obtain ⟨hv, hp⟩ := Literal.prints h
  exact ⟨[v.token], .token ⟨v.token, rfl, hv⟩ .nil, hp⟩

theorem type {w : WrittenType} (h : w.Writable) : Printed false t [.type w] w.text := by
  have hs : Writes t [.type w] (w.tokens ++ []) := .leaf ⟨h, rfl⟩ .nil
  rw [List.append_nil] at hs
  exact ⟨w.tokens, hs, (WrittenType.prints h).2⟩

theorem member {n : String} (h : Printed b t ps text) (hn : IsName n) :
    Printed false t (ps ++ [Piece.sign .dot, .name n]) (text ++ ("." ++ n)) := by
  obtain ⟨ts, hs, hp⟩ := h
  exact ⟨ts ++ [TokenKind.dot.token, .word n], hs.append (Writes.name n).sign,
    hp.member hn.prints hn.isDigit_eq_false⟩

/-- A node is printed as its construct is. -/
theorem node {id : NodeId} {c : Construct} (hc : t.construct? id = some c)
    (h : Printed b t c.pieces text) : Printed b t [.node id] text := by
  obtain ⟨ts, hs, hp⟩ := h
  exact ⟨ts, .node_singleton hc hs, hp⟩

theorem parens (h : Printed b t ps text) :
    Printed false t (.sign .leftParen :: (ps ++ [Piece.sign .rightParen])) ("(" ++ (text ++ ")")) :=
  (h.append (sign (k := .rightParen) rfl) (by decide)).after (k := .leftParen) rfl rfl

theorem semicolon (h : Printed b t ps text) :
    Printed true t (ps ++ [Piece.sign .semicolon]) (text ++ ";") :=
  h.append (delimiter (k := .semicolon) rfl) (by decide)

/-- Texts with commas between them. -/
theorem join {α : Type} {f : α → String} {g : α → List Piece} : ∀ {xs : List α} {x : α},
    (∀ y ∈ x :: xs, Printed false t (g y) (f y)) →
      Printed false t (Piece.separated ((x :: xs).map g)) (Text.join ", " ((x :: xs).map f))
  | [], x, h => by
    have := h x (List.mem_cons_self ..)
    simpa [Piece.separated, Text.join, Text.joinTail] using this
  | y :: ys, x, h => by
    have hx := h x (List.mem_cons_self ..)
    have hmore := join fun z hz => h z (List.mem_cons_of_mem _ hz)
    have hcomma := (hmore.blank.after (k := .comma) rfl rfl)
    have hall := hx.append hcomma (Breaks.append (by decide) _)
    have hsep : ", " = TokenKind.comma.spelling ++ " " := rfl
    simp only [List.map_cons, Piece.separated, Text.join, Text.joinTail, hsep,
      String.append_assoc] at hall ⊢
    exact hall

/-- A list in parentheses. -/
theorem list {α : Type} {f : α → String} {g : α → List Piece} {xs : List α}
    (h : ∀ y ∈ xs, Printed false t (g y) (f y)) :
    Printed false t (.sign .leftParen :: (Piece.separated (xs.map g) ++ [Piece.sign .rightParen]))
      ("(" ++ (Text.join ", " (xs.map f) ++ ")")) := by
  cases xs with
  | nil => exact (sign (k := .rightParen) rfl).after (k := .leftParen) rfl rfl
  | cons x xs => exact (join h).parens

end Printed

/-! ## 3. Expressions -/

/-- What lies below some nodes can be written, and children come before their parents. -/
structure Ready (t : SyntaxTree) (ids : List NodeId) : Prop where
  writable : WritableUnder t ids
  descends : ∀ i c, t.Under ids i → t.construct? i = some c → ∀ k ∈ c.children, k < i

theorem Ready.child {id k : Nat} {c : Construct} (h : Ready t [id])
    (hc : t.construct? id = some c) (hk : k ∈ c.children) : Ready t [k] ∧ k < id := by
  have hid : t.Under [id] id := .root (List.mem_singleton_self _)
  have hu : ∀ i, t.Under [k] i → t.Under [id] i := by
    intro i hi
    refine hi.mono fun j hj => ?_
    rw [List.mem_singleton.mp hj]
    exact hid.slot hc hk
  exact ⟨⟨fun i c hi => h.writable i c (hu i hi), fun i c hi => h.descends i c (hu i hi)⟩,
    h.descends id c hid hc k hk⟩

section Pieces

variable {id : NodeId} {c : Construct} (h : Ready t [id]) (hc : t.construct? id = some c)

include h hc

theorem Ready.isName {n : String} (hp : .name n ∈ c.pieces) : IsName n :=
  h.writable id c (.root (List.mem_singleton_self _)) hc _ hp

theorem Ready.type {w : WrittenType} (hp : .type w ∈ c.pieces) : w.Writable :=
  h.writable id c (.root (List.mem_singleton_self _)) hc _ hp

theorem Ready.literal {v : Literal} (hp : .literal v ∈ c.pieces) : v.Writable :=
  h.writable id c (.root (List.mem_singleton_self _)) hc _ hp

end Pieces

theorem BinaryOp.spelling_kind (op : BinaryOp) :
    op.kind.spelling = op.text ∧ op.kind.spelling ≠ "" := by
  cases op <;> decide

theorem AssignOp.spelling_kind (op : AssignOp) :
    op.kind.spelling = op.text ∧ op.kind.spelling ≠ "" := by
  cases op <;> decide

namespace Printer

/-- **An expression is printed as itself.** -/
theorem printed_exprText : ∀ {limit id l r : Nat}, id < limit → Fits t (.expr l r) id →
    Ready t [id] → Printed false t [.node id] (exprText t limit id)
  | 0, _, _, _, hlt, _, _ => absurd hlt (Nat.not_lt_zero _)
  | limit + 1, id, l, r, hlt, @Fits.node _ _ _ c ρ hc ha hk, hready => by
    have sub : ∀ {k : NodeId} {l r : Nat}, k ∈ c.children → ρ k = .expr l r →
        Printed false t [.node k] (exprText t limit k) := by
      intro k l r hmem hrole
      obtain ⟨hr, hklt⟩ := hready.child hc hmem
      exact printed_exprText (Nat.lt_of_lt_of_le hklt (Nat.le_of_lt_succ hlt)) (hrole ▸ hk k hmem) hr
    have operands : ∀ {k : TokenKind} {a b : NodeId} {op : String},
        k.spelling = op ∧ k.spelling ≠ "" → Printed false t [.node a] (exprText t limit a) →
        Printed false t [.node b] (exprText t limit b) → Printed false t [.node a, .sign k, .node b]
          (exprText t limit a ++ " " ++ op ++ " " ++ exprText t limit b) := by
      intro k a b op hop pa pb
      have := pa.append (pb.operator hop.2) (Breaks.append (by decide) _)
      simp only [hop.1, String.append_assoc] at this ⊢
      exact this
    refine .node hc ?_
    rw [exprText]
    cases ha with
    | literal =>
      simp only [hc]
      exact .literal (hready.literal hc (by simp [Construct.pieces]))
    | ident =>
      simp only [hc]
      exact .name (hready.isName hc (by simp [Construct.pieces]))
    | paren he =>
      simp only [hc, String.append_assoc]
      exact (sub (by simp [Construct.children]) he).parens
    | @cast w e _ _ he =>
      have hexpr := (sub (by simp [Construct.children]) he).parens
      have hgreater := hexpr.follows (k := .greater) rfl (Breaks.append (by decide) _)
      have htype : Printed false t [.type w] w.text :=
        .type (hready.type hc (by simp [Construct.pieces]))
      have hless := (htype.append hgreater (Breaks.append (by decide) _)).after (k := .less) rfl rfl
      have hcast := hless.follows (k := .castWord) rfl (Breaks.append (by decide) _)
      have hopen : "cast<" = TokenKind.castWord.spelling ++ TokenKind.less.spelling := rfl
      have hclose : ">(" = TokenKind.greater.spelling ++ "(" := rfl
      simp only [hc, hopen, hclose, String.append_assoc]
      exact hcast
    | @newObject w args hargs =>
      have hlist := Printed.list fun k hk => by
        obtain ⟨l, r, he⟩ := hargs k hk
        exact sub (by simpa [Construct.children] using hk) he
      have htype : Printed false t [.type w] w.text :=
        .type (hready.type hc (by simp [Construct.pieces]))
      have hnew := (htype.append hlist (Breaks.append (by decide) _)).keyword (k := .newWord) rfl
      have hopen : "new " = TokenKind.newWord.spelling ++ " " := rfl
      simp only [hc, hopen, String.append_assoc]
      exact hnew
    | member ho _ =>
      simp only [hc, String.append_assoc]
      exact (sub (by simp [Construct.children]) ho).member
        (hready.isName hc (by simp [Construct.pieces]))
    | @call f args _ _ hf _ hargs =>
      have hlist := Printed.list fun k hk => by
        obtain ⟨l, r, he⟩ := hargs k hk
        exact sub (by simp [Construct.children, hk]) he
      simp only [hc, String.append_assoc]
      exact (sub (by simp [Construct.children]) hf).append hlist (Breaks.append (by decide) _)
    | @unary op _ _ _ he _ =>
      simp only [hc]
      have := sub (by simp [Construct.children]) he
      cases op with
      | neg => exact this.after (k := .minus) rfl rfl
      | not => exact this.after (k := .bang) rfl rfl
    | @binary op _ _ _ _ _ _ ha _ hb _ =>
      simp only [hc]
      exact operands op.spelling_kind (sub (by simp [Construct.children]) ha)
        (sub (by simp [Construct.children]) hb)
    | @assign op _ _ _ _ _ _ ha _ _ hb _ =>
      simp only [hc]
      exact operands op.spelling_kind (sub (by simp [Construct.children]) ha)
        (sub (by simp [Construct.children]) hb)

/-! ## 4. Statements -/

end Printer

theorem Printed.line {b : Bool} {ps : List Piece} {text : String} (h : Printed b t ps text) :
    Filled t ps (text ++ "\n") := by
  obtain ⟨ts, hs, hp⟩ := h
  exact ⟨ts, hs, hp.line⟩

theorem Filled.append {ps qs : List Piece} {text more : String} (h : Filled t ps text)
    (h' : Filled t qs more) : Filled t (ps ++ qs) (text ++ more) := by
  obtain ⟨ts, hs, hp⟩ := h
  obtain ⟨us, hs', hp'⟩ := h'
  exact ⟨ts ++ us, hs.append hs', hp.append hp'⟩

/-- Nodes on their lines, one after another. -/
theorem Filled.concat {f : NodeId → String} : ∀ {ids : List NodeId},
    (∀ id ∈ ids, Filled t [.node id] (f id)) →
      Filled t (ids.map .node) (Text.concat (ids.map f))
  | [], _ => ⟨[], .nil, PrintsLines.nil⟩
  | id :: _, h =>
    (h id (List.mem_cons_self ..)).append (concat fun k hk => h k (List.mem_cons_of_mem _ hk))

theorem Printed.lines {b : Bool} {ps qs : List Piece} {text lines : String}
    (h : Printed b t qs text) (hl : Filled t ps lines) :
    Printed b t (ps ++ qs) ("\n" ++ (lines ++ text)) := by
  obtain ⟨us, hs', hp'⟩ := h
  obtain ⟨ts, hs, hp⟩ := hl
  exact ⟨ts ++ us, hs.append hs', hp'.lines hp⟩

namespace Printer

theorem blanks_indent (depth : Nat) :
    Blanks (indent depth).toList := by
  intro b hb
  rw [indent, String.toList_ofList] at hb
  rw [List.eq_of_mem_replicate hb]
  decide

/-- Statements between braces. -/
theorem printed_braced {line : Nat → NodeId → String} {depth : Nat} {stmts : List NodeId}
    (h : ∀ s ∈ stmts, Filled t [.node s] (line (depth + 1) s)) :
    Printed true t (Construct.block stmts).pieces (bracedText line depth stmts) := by
  have hclose : Printed true t [.sign .rightBrace] (indent depth ++ "\x7d") :=
    (Printed.delimiter (k := .rightBrace) rfl).blanks (blanks_indent _)
  rw [bracedText]
  split
  · rename_i hempty
    rw [List.isEmpty_iff.mp hempty]
    exact (Printed.delimiter (k := .rightBrace) rfl).keyword (k := .leftBrace) rfl
  · have := (hclose.lines (Filled.concat h)).after (k := .leftBrace) rfl rfl
    have hopen : "\x7b\n" = TokenKind.leftBrace.spelling ++ "\n" := rfl
    simp only [hopen, String.append_assoc]
    exact this

theorem breaks_branchText {line inline : Nat → NodeId → String} {depth : Nat} {id : NodeId} :
    Breaks (branchText t line inline depth id) := by
  rw [branchText]
  split
  · exact Breaks.append (by decide) _
  · rw [String.append_assoc]
    exact Breaks.append (by decide) _

/-- A branch of an `if` or the body of a loop. -/
theorem printed_branch {line inline : Nat → NodeId → String} {depth : Nat} {id : NodeId}
    (hi : Printed true t [.node id] (inline (depth + 1) id))
    (hl : ∀ stmts, t.construct? id = some (.block stmts) →
      ∀ s ∈ stmts, Filled t [.node s] (line (depth + 1) s)) :
    Printed true t [.node id] (branchText t line inline depth id) := by
  rw [branchText]
  cases hb : isBraced t id with
  | false =>
    rw [if_neg (by simp), String.append_assoc]
    refine (hi.blanks (blanks_indent _)).newline
  | true =>
    rw [if_pos rfl]
    unfold isBraced at hb
    split at hb
    · rename_i stmts hc
      rw [SyntaxTree.children_of_construct? hc]
      exact (Printed.node hc (printed_braced (hl stmts hc))).blank
    · cases hb

/-- What stands between a branch and the word after it. -/
theorem printed_otherwise {b : Bool} {ps : List Piece} {text : String} (h : Printed b t ps text)
    (depth : Nat) (id : NodeId) :
    Printed b t ps ((if isBraced t id then " " else "\n" ++ indent depth) ++ text) ∧
      Breaks ((if isBraced t id then " " else "\n" ++ indent depth) ++ text) := by
  split
  · exact ⟨h.blank, Breaks.append (by decide) _⟩
  · rw [String.append_assoc]
    exact ⟨(h.blanks (blanks_indent _)).newline,
      Breaks.append (by decide) _⟩

/-- A condition in parentheses after its keyword. -/
theorem printed_condition {b : Bool} {k : TokenKind} {e : NodeId} {qs : List Piece}
    {text more : String} (hk : k.standsAlone = true) (he : Printed false t [.node e] text)
    (h : Printed b t qs more) (hb : Breaks more) :
    Printed b t (.sign k :: .sign .leftParen :: .node e :: .sign .rightParen :: qs)
      (k.spelling ++ (" " ++ ("(" ++ (text ++ (")" ++ more))))) := by
  have := (he.parens.append h hb).keyword hk
  simp only [String.append_assoc] at this
  exact this

/-- A name with its initializer. -/
theorem printed_declarator {expr : NodeId → String} {var : Declarator} (hn : IsName var.name.name)
    (he : ∀ e ∈ var.init, Printed false t [.node e] (expr e)) :
    Printed false t var.pieces (declaratorText expr var) := by
  rcases var with ⟨name, _ | init⟩
  · exact .name hn
  · have hinit := (he init rfl).operator (k := .equal) (by decide)
    have := (Printed.name hn).append hinit (Breaks.append (by decide) _)
    have hop : " = " = " " ++ (TokenKind.equal.spelling ++ " ") := rfl
    simp only [declaratorText, hop, String.append_assoc]
    exact this

/-- A declaration of variables. -/
theorem printed_localDecl {expr : NodeId → String} {w : WrittenType} {vars : List Declarator}
    (hw : w.Writable) (hne : vars ≠ [])
    (hvars : ∀ v ∈ vars, Printed false t v.pieces (declaratorText expr v)) :
    Printed true t (Construct.localDecl w vars).pieces
      (w.text ++ " " ++ Text.join ", " (vars.map (declaratorText expr)) ++ ";") := by
  obtain ⟨v, vs, rfl⟩ := List.exists_cons_of_ne_nil hne
  have := (Printed.type hw).append (Printed.join hvars).semicolon.blank (Breaks.append (by decide) _)
  simp only [String.append_assoc]
  exact this

/-! Statements with a condition, from the texts of the condition and of the branches. -/

section Branches

variable {line inline : Nat → NodeId → String} {depth : Nat} {e a b : NodeId} {text : String}
  (he : Printed false t [.node e] text)
  (ha : Printed true t [.node a] (branchText t line inline depth a))
include he ha

theorem printed_ifThen : Printed true t (Construct.ifStmt e a none).pieces
    ("if (" ++ text ++ ")" ++ branchText t line inline depth a) := by
  have hopen : "if (" = TokenKind.ifWord.spelling ++ (" " ++ "(") := rfl
  simp only [hopen, String.append_assoc]
  exact printed_condition rfl he ha breaks_branchText

theorem printed_ifElse (hb : Printed true t [.node b] (branchText t line inline depth b)) :
    Printed true t (Construct.ifStmt e a (some b)).pieces
      ("if (" ++ text ++ ")" ++ branchText t line inline depth a ++
        (if isBraced t a then " " else "\n" ++ indent depth) ++ "else" ++
        branchText t line inline depth b) := by
  have hopen : "if (" = TokenKind.ifWord.spelling ++ (" " ++ "(") := rfl
  have helse := hb.follows (k := .elseWord) rfl breaks_branchText
  obtain ⟨hother, hbreaks⟩ := printed_otherwise helse depth a
  simp only [hopen, String.append_assoc]
  exact printed_condition rfl he (ha.append hother hbreaks) (Breaks.append breaks_branchText _)

theorem printed_whileStmt : Printed true t (Construct.whileStmt e a).pieces
    ("while (" ++ text ++ ")" ++ branchText t line inline depth a) := by
  have hopen : "while (" = TokenKind.whileWord.spelling ++ (" " ++ "(") := rfl
  simp only [hopen, String.append_assoc]
  exact printed_condition rfl he ha breaks_branchText

theorem printed_doStmt : Printed true t (Construct.doStmt a e).pieces
    ("do" ++ branchText t line inline depth a ++
      (if isBraced t a then " " else "\n" ++ indent depth) ++ "while (" ++ text ++ ");") := by
  have hopen : "while (" = TokenKind.whileWord.spelling ++ (" " ++ "(") := rfl
  have hclose : ");" = ")" ++ TokenKind.semicolon.spelling := rfl
  have hwhile := printed_condition (k := .whileWord) rfl he
    (Printed.delimiter (k := .semicolon) rfl) (by decide)
  obtain ⟨hother, hbreaks⟩ := printed_otherwise hwhile depth a
  have hdo := (ha.append hother hbreaks).follows (k := .doWord) rfl (Breaks.append breaks_branchText _)
  simp only [hopen, hclose, String.append_assoc] at hdo ⊢
  exact hdo

end Branches

theorem isName_of_declarator {c : Construct} {id : NodeId} (h : Ready t [id])
    (hc : t.construct? id = some c) (var : Declarator) (hp : ∀ p ∈ var.pieces, p ∈ c.pieces) :
    IsName var.name.name := by
  refine h.isName hc (hp _ ?_)
  rcases var with ⟨name, _ | init⟩ <;> exact List.mem_cons_self ..

/-- A statement fills its line with what it is from where it starts. -/
theorem lines_of_stmt {limit depth : Nat} {id : NodeId} {c : Construct} {ρ : NodeId → Role}
    {d : Bool} (hc : t.construct? id = some c) (ha : Admits t ρ c (.stmt d)) :
    lines t (limit + 1) depth id = indent depth ++ inline t limit depth id ++ "\n" := by
  rw [lines]
  cases ha <;> simp only [hc] <;> rfl

/-- **A statement is printed as itself**, on its own lines and from where it starts. -/
theorem printed_stmt : ∀ {limit id depth : Nat} {d : Bool}, Fits t (.stmt d) id → Ready t [id] →
    (2 * id + 2 ≤ limit → Filled t [.node id] (lines t limit depth id)) ∧
      (2 * id + 1 ≤ limit → Printed true t [.node id] (inline t limit depth id))
  | 0, id, _, _, _, _ => ⟨fun h => absurd h (by omega), fun h => absurd h (by omega)⟩
  | limit + 1, id, depth, d, @Fits.node _ _ _ c ρ hc ha hk, hready => by
    refine ⟨fun hlimit => ?_, fun hlimit => ?_⟩
    · rw [lines_of_stmt hc ha]
      have hi := (@printed_stmt limit id depth d (.node ρ hc ha hk) hready).2 (by omega)
      exact (hi.blanks (blanks_indent _)).line
    have expr : ∀ {e : NodeId} {l r : Nat}, e ∈ c.children → ρ e = .expr l r →
        Printed false t [.node e] (exprText t t.size e) := by
      intro e l r hmem hrole
      have hfit := hrole ▸ hk e hmem
      refine printed_exprText ?_ hfit (hready.child hc hmem).1
      cases hfit with
      | node _ he _ _ => exact SyntaxTree.lt_size_of_construct? he
    have line : ∀ {s : Nat} {d : Bool} {depth : Nat}, s ∈ c.children → ρ s = .stmt d →
        Filled t [.node s] (lines t limit depth s) := by
      intro s d depth hmem hrole
      obtain ⟨hr, hlt⟩ := hready.child hc hmem
      exact (printed_stmt (hrole ▸ hk s hmem) hr).1 (by omega)
    have branch : ∀ {s : Nat} {d : Bool}, s ∈ c.children → ρ s = .stmt d →
        Printed true t [.node s] (branchText t (lines t limit) (inline t limit) depth s) := by
      intro s d hmem hrole
      obtain ⟨hr, hlt⟩ := hready.child hc hmem
      have hfit := hrole ▸ hk s hmem
      refine printed_branch ((printed_stmt hfit hr).2 (by omega)) fun stmts hs (s' : Nat) hmem' => ?_
      obtain ⟨hr', hlt'⟩ := hr.child hs hmem'
      cases hfit with
      | node ρ' hs' ha' hk' =>
        rw [hs] at hs'
        cases hs'
        cases ha' with
        | block hall =>
          obtain ⟨d', hd'⟩ := hall s' hmem'
          exact (printed_stmt (hd' ▸ hk' s' hmem') hr').1 (by omega)
    refine .node hc ?_
    rw [inline]
    cases ha with
    | exprStmt he _ =>
      simp only [hc]
      exact (expr (by simp [Construct.children]) he).semicolon
    | @localDecl w vars hne hinit =>
      simp only [hc]
      refine printed_localDecl (hready.type hc (by simp [Construct.pieces])) hne fun v hv => ?_
      refine printed_declarator (isName_of_declarator hready hc v fun p hp => ?_) fun e he => ?_
      · have := Piece.mem_separated (List.mem_map_of_mem (f := Declarator.pieces) hv) hp
        simp [Construct.pieces, this]
      · have hmem : e ∈ vars.filterMap Declarator.init := List.mem_filterMap.mpr ⟨v, hv, he⟩
        obtain ⟨l, r, hrole⟩ := hinit e hmem
        exact expr hmem hrole
    | @returnStmt value hvalue =>
      cases value with
      | none =>
        simp only [hc]
        exact (Printed.delimiter (k := .semicolon) rfl).follows (k := .returnWord) rfl (by decide)
      | some e =>
        obtain ⟨l, r, he⟩ := hvalue e rfl
        have hopen : "return " = TokenKind.returnWord.spelling ++ " " := rfl
        simp only [hc, hopen, String.append_assoc]
        exact (expr (by simp [Construct.children]) he).semicolon.keyword (k := .returnWord) rfl
    | yieldStmt he =>
      have hreturn := (expr (by simp [Construct.children]) he).semicolon.keyword
        (k := .returnWord) rfl
      have hopen : "yield return " = TokenKind.yieldWord.spelling ++ (" " ++
        (TokenKind.returnWord.spelling ++ " ")) := rfl
      simp only [hc, hopen, String.append_assoc]
      exact hreturn.keyword (k := .yieldWord) rfl
    | breakStmt =>
      simp only [hc]
      exact (Printed.delimiter (k := .semicolon) rfl).follows (k := .breakWord) rfl (by decide)
    | continueStmt =>
      simp only [hc]
      exact (Printed.delimiter (k := .semicolon) rfl).follows (k := .continueWord) rfl (by decide)
    | emptyStmt =>
      simp only [hc]
      exact Printed.delimiter (k := .semicolon) rfl
    | block hall =>
      simp only [hc]
      refine printed_braced fun s hs => ?_
      obtain ⟨d, hd⟩ := hall s hs
      exact line hs hd
    | ifThen he ha =>
      simp only [hc]
      exact printed_ifThen (expr (by simp [Construct.children]) he)
        (branch (by simp [Construct.children]) ha)
    | ifElse he ha hb =>
      simp only [hc]
      exact printed_ifElse (expr (by simp [Construct.children]) he)
        (branch (by simp [Construct.children]) ha) (branch (by simp [Construct.children]) hb)
    | whileStmt he ha =>
      simp only [hc]
      exact printed_whileStmt (expr (by simp [Construct.children]) he)
        (branch (by simp [Construct.children]) ha)
    | doStmt ha he =>
      simp only [hc]
      exact printed_doStmt (expr (by simp [Construct.children]) he)
        (branch (by simp [Construct.children]) ha)

/-! ## 5. Declarations and programs -/

/-- Accessors, as they are printed. -/
theorem printed_accessors (b : Bool) :
    Printed true t [.sign .leftBrace, .accessors b, .sign .rightBrace]
    (if b then "\x7b get; set; \x7d" else "\x7b get; \x7d") := by
  have hclose : Prints true "\x7d" [TokenKind.rightBrace.token] := .delimiter (k := .rightBrace) rfl
  have one : ∀ {name text : String} {ts : List Token}, IsName name → Prints true text ts →
      Prints true (name ++ (";" ++ (" " ++ text))) (.word name :: TokenKind.semicolon.token :: ts) :=
    fun hn h => hn.prints.append (h.blank.after (k := .semicolon) rfl rfl)
      (Breaks.append (by decide) _)
  have braces : ∀ {text : String},
      Prints true text (Accessors.tokens b ++ [TokenKind.rightBrace.token]) →
      Printed true t [.sign .leftBrace, .accessors b, .sign .rightBrace]
        ("\x7b" ++ (" " ++ text)) := by
    intro text hp
    have hwrites : Writes t [.accessors b, .sign .rightBrace] _ := .leaf rfl (.sign .nil)
    exact ⟨_, hwrites.sign, hp.blank.after (k := .leftBrace) rfl rfl⟩
  cases b with
  | false => exact braces (one (by decide) hclose)
  | true => exact braces (one (by decide) (one (by decide) hclose))

/-- A function on its lines. -/
theorem filled_function {limit id depth : Nat} {w : WrittenType} {n : Ident} {params : List Param}
    {body : NodeId} (hc : t.construct? id = some (.function w n params body))
    (hbody : Fits t .body body) (hready : Ready t [id]) (hlimit : 2 * id + 2 ≤ limit) :
    Filled t [.node id] (lines t limit depth id) := by
  obtain ⟨limit, rfl⟩ := Nat.exists_eq_add_of_le' (show 1 ≤ limit by omega)
  have htype : Printed false t [.type w] w.text := .type (hready.type hc (by simp [Construct.pieces]))
  have hname : Printed false t [.name n.name] n.name :=
    .name (hready.isName hc (by simp [Construct.pieces]))
  have hparams : ∀ p ∈ params, Printed false t p.pieces (p.type.text ++ " " ++ p.name.name) := by
    intro p hp
    have hpieces : ∀ q ∈ p.pieces, q ∈ (Construct.function w n params body).pieces := by
      intro q hq
      have := Piece.mem_separated (List.mem_map_of_mem (f := Param.pieces) hp) hq
      simp [Construct.pieces, this]
    have ht := hready.type hc (hpieces _ (List.mem_cons_self ..))
    have hn := hready.isName hc (hpieces _ (List.mem_cons_of_mem _ (List.mem_cons_self ..)))
    rw [String.append_assoc]
    exact (Printed.type ht).append (Printed.name hn).blank (Breaks.append (by decide) _)
  obtain ⟨hr, hlt⟩ := hready.child hc (k := body) (by simp [Construct.children])
  have hblock : Printed true t [.node body] (bracedText (lines t limit) depth (t.children body)) := by
    cases hbody with
    | node ρ hb ha hk =>
      cases ha with
      | body hall =>
        rw [SyntaxTree.children_of_construct? hb]
        refine .node hb (printed_braced fun (s : Nat) hs => ?_)
        obtain ⟨hr', hlt'⟩ := hr.child hb hs
        obtain ⟨d, hd⟩ := hall s hs
        exact (printed_stmt (hd ▸ hk s hs) hr').1 (by omega)
  have hlist := (Printed.list hparams).append hblock.blank (Breaks.append (by decide) _)
  have hhead := (hname.append hlist (Breaks.append (Breaks.append (by decide) _) _)).blank
  have hall := (htype.append hhead (Breaks.append (by decide) _)).blanks
    (blanks_indent depth)
  have := (Printed.node hc (by simpa [Construct.pieces] using hall)).line
  have hclose : ") " = ")" ++ " " := rfl
  simp only [lines, hc, paramsText, hclose, String.append_assoc] at this ⊢
  exact this

/-- **A member of a class is printed as itself.** -/
theorem filled_member {limit id depth : Nat} (h : Fits t .member id) (hready : Ready t [id])
    (hlimit : 2 * id + 2 ≤ limit) : Filled t [.node id] (lines t limit depth id) := by
  cases h with
  | node ρ hc ha hk =>
    cases ha with
    | method hs => exact filled_function hc (hs ▸ hk _ (by simp [Construct.children])) hready hlimit
    | @field w n init hinit =>
      obtain ⟨limit, rfl⟩ := Nat.exists_eq_add_of_le' (show 1 ≤ limit by omega)
      have htype : Printed false t [.type w] w.text :=
        .type (hready.type hc (by simp [Construct.pieces]))
      have hn : IsName n.name := isName_of_declarator hready hc ⟨n, init⟩ fun p hp => by
        simp [Construct.pieces, hp]
      have hvar : Printed false t (Declarator.pieces ⟨n, init⟩)
          (declaratorText (exprText t t.size) ⟨n, init⟩) :=
        printed_declarator hn fun e he => by
          obtain ⟨l, r, hrole⟩ := hinit e he
          have hmem : e ∈ (Construct.field w n init).children := by
            simpa [Construct.children] using he
          have hfit := hrole ▸ hk e hmem
          refine printed_exprText ?_ hfit (hready.child hc hmem).1
          cases hfit with
          | node _ he _ _ => exact SyntaxTree.lt_size_of_construct? he
      have hall := htype.append hvar.semicolon.blank (Breaks.append (by decide) _)
      have := ((Printed.node hc hall).blanks (blanks_indent depth)).line
      have hclose : ";\n" = ";" ++ "\n" := rfl
      simp only [lines, hc, hclose, String.append_assoc] at this ⊢
      exact this
    | @property w n b =>
      obtain ⟨limit, rfl⟩ := Nat.exists_eq_add_of_le' (show 1 ≤ limit by omega)
      have htype : Printed false t [.type w] w.text :=
        .type (hready.type hc (by simp [Construct.pieces]))
      have hname : Printed false t [.name n.name] n.name :=
        .name (hready.isName hc (by simp [Construct.pieces]))
      have hhead := (hname.append (printed_accessors b).blank (Breaks.append (by decide) _)).blank
      have hall := htype.append hhead (Breaks.append (by decide) _)
      have := ((Printed.node hc hall).blanks (blanks_indent depth)).line
      have hclose : (if b then " \x7b get; set; \x7d\n" else " \x7b get; \x7d\n") =
          " " ++ ((if b then "\x7b get; set; \x7d" else "\x7b get; \x7d") ++ "\n") := by
        cases b <;> rfl
      simp only [lines, hc, hclose, String.append_assoc] at this ⊢
      exact this

/-- **A class, a function or a statement of the program is printed as itself.** -/
theorem filled_item {limit id depth : Nat} (h : Fits t .item id) (hready : Ready t [id])
    (hlimit : 2 * id + 2 ≤ limit) : Filled t [.node id] (lines t limit depth id) := by
  cases h with
  | node ρ hc ha hk =>
    cases ha with
    | item ha _ => exact (printed_stmt (.node ρ hc ha hk) hready).1 hlimit
    | function hs =>
      exact filled_function hc (hs ▸ hk _ (by simp [Construct.children])) hready hlimit
    | @classDecl n members hall =>
      obtain ⟨limit, rfl⟩ := Nat.exists_eq_add_of_le' (show 1 ≤ limit by omega)
      have hname : Printed false t [.name n.name] n.name :=
        .name (hready.isName hc (by simp [Construct.pieces]))
      have hmembers := Filled.concat (f := lines t limit (depth + 1)) fun (m : Nat) hm => by
        obtain ⟨hr, hlt⟩ := hready.child hc hm
        have hlimit' : 2 * m + 2 ≤ limit := by omega
        exact filled_member (hall m hm ▸ hk m hm) hr hlimit'
      have hclose : Printed true t [.sign .rightBrace] (indent depth ++ "\x7d") :=
        (Printed.delimiter (k := .rightBrace) rfl).blanks (blanks_indent _)
      have hbraces := ((hclose.lines hmembers).after (k := .leftBrace) rfl rfl).blank
      have hhead := (hname.append hbraces (Breaks.append (by decide) _)).keyword
        (k := .classWord) rfl
      have := ((Printed.node hc hhead).blanks (blanks_indent depth)).line
      have h₁ : "class " = TokenKind.classWord.spelling ++ " " := rfl
      have h₂ : " \x7b\n" = " " ++ (TokenKind.leftBrace.spelling ++ "\n") := rfl
      have h₃ : "\x7d\n" = "\x7d" ++ "\n" := rfl
      simp only [lines, hc, h₁, h₂, h₃, String.append_assoc] at this ⊢
      exact this

/-- **A program is printed as its items.** -/
theorem written_print {items : List NodeId} (hc : t.construct? t.root = some (.unit items))
    (hall : ∀ id ∈ items, Fits t .item id) (hready : Ready t [t.root]) :
    Filled t (items.map .node) t.print := by
  have hlimit : ∀ {r k : Nat}, r < t.size → k < r → 2 * k + 2 ≤ 2 * t.size - 1 := by omega
  have hpos := Nat.zero_lt_of_lt (SyntaxTree.lt_size_of_construct? hc)
  have hl : 2 * t.size = 2 * t.size - 1 + 1 := by omega
  rw [SyntaxTree.print, SyntaxTree.printLimit, hl, lines]
  simp only [hc]
  refine Filled.concat fun id hid => ?_
  obtain ⟨hr, hlt⟩ := hready.child hc hid
  exact filled_item (hall id hid) hr (hlimit (SyntaxTree.lt_size_of_construct? hc) hlt)

/-- The text of a program is read as tokens that spell its items. -/
theorem filled_print {items : List NodeId} (hc : t.construct? t.root = some (.unit items))
    (hall : ∀ id ∈ items, Fits t .item id) (hready : Ready t [t.root]) :
    ∃ ts, Spells t Anywhere (items.map .node) ts ∧ PrintsLines t.print ts := by
  obtain ⟨ts, hw, hp⟩ := written_print hc hall hready
  exact ⟨ts, hw.spells, hp⟩

end Printer

end Recast
