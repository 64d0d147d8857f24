/-
# Trees that the parser can build

The text of a tree has no parentheses but those that the tree itself has, and nothing marks the end
of an `if` without `else`.  So not every tree can be read back.  A tree that fits its role can:

* an expression has a `lead`, the least left power among the operators on its left edge, and a
  `trail`, which a following operator has to stay below so that it is not taken by a part at the
  right edge.  Every operator in the tree respects those of its operands;
* a statement is dangling if it would take a following `else`, and the first branch of an `if` with
  `else` is not;
* an expression statement must not look like a declaration.

`Fits t r id` says this of the whole tree at a node: `Admits` is the condition at one construct,
given the roles of its parts.
-/
import Recast.Proofs.Grammar.Lookahead

namespace Recast

open Recast.Parser (headKind)

/-! ## 1. Powers of tokens -/

/-- The left power of a token that continues an expression. -/
def TokenKind.leftPower? (k : TokenKind) : Option Nat :=
  if k = .dot ∨ k = .leftParen then some BindingPower.postfixPower
  else match k.assignOp? with
    | some _ => some BindingPower.assignLeft
    | none => k.binaryOp?.map BindingPower.left

/-- A token that does not continue an expression at the power `n`. -/
def Stops (n : Nat) (k : TokenKind) : Prop := ∀ l, k.leftPower? = some l → l < n

/-- The power above all operators. -/
def BindingPower.closed : Nat := postfixPower + 1

theorem TokenKind.leftPower?_le {k : TokenKind} {l : Nat} (h : k.leftPower? = some l) : l ≤ 17 := by
  unfold leftPower? at h
  split at h
  · cases h
    exact Nat.le_refl _
  · split at h
    · cases h
      decide
    · obtain ⟨op, -, rfl⟩ := Option.map_eq_some_iff.mp h
      cases op <;> decide

/-- Nothing continues an expression at the power above all operators. -/
theorem stops_closed (k : TokenKind) : Stops BindingPower.closed k := by
  intro l hl
  have := TokenKind.leftPower?_le hl
  simp only [BindingPower.closed, BindingPower.postfixPower]
  omega

theorem Stops.min {m n : Nat} {k : TokenKind} (h : Stops m k) (h' : Stops n k) :
    Stops (min m n) k := by
  intro l hl
  exact Nat.lt_min.mpr ⟨h l hl, h' l hl⟩

theorem Stops.mono {m n : Nat} {k : TokenKind} (h : Stops m k) (hmn : m ≤ n) : Stops n k :=
  fun l hl => Nat.lt_of_lt_of_le (h l hl) hmn

/-- A token that is no operator ends every expression. -/
theorem stops_of_leftPower?_eq_none {k : TokenKind} (h : k.leftPower? = none) (n : Nat) :
    Stops n k := by
  intro l hl
  rw [h] at hl
  cases hl

@[simp] theorem AssignOp.assignOp?_kind (op : AssignOp) : op.kind.assignOp? = some op := by
  cases op <;> rfl

@[simp] theorem BinaryOp.assignOp?_kind (op : BinaryOp) : op.kind.assignOp? = none := by
  cases op <;> rfl

@[simp] theorem BinaryOp.binaryOp?_kind (op : BinaryOp) : op.kind.binaryOp? = some op := by
  cases op <;> rfl

theorem AssignOp.leftPower?_kind (op : AssignOp) :
    op.kind.leftPower? = some BindingPower.assignLeft := by
  cases op <;> rfl

theorem BinaryOp.leftPower?_kind (op : BinaryOp) :
    op.kind.leftPower? = some (BindingPower.left op) := by
  cases op <;> rfl

theorem TokenKind.kind_of_assignOp? {k : TokenKind} {op : AssignOp} (h : k.assignOp? = some op) :
    k = op.kind := by
  cases k <;> cases h <;> rfl

theorem TokenKind.kind_of_binaryOp? {k : TokenKind} {op : BinaryOp} (h : k.binaryOp? = some op) :
    k = op.kind := by
  cases k <;> cases h <;> rfl

/-! ## 2. Roles -/

/-- What a node stands for in the text. -/
inductive Role where
  | expr (lead trail : Nat)
  | stmt (dangling : Bool)
  /-- The block of a function. -/
  | body
  /-- A member of a class. -/
  | member
  /-- A class, a function or a statement of the program. -/
  | item

/-- No condition on nodes and their tokens. -/
def Anywhere : NodeId → List Token → Prop := fun _ _ => True

/-- A semicolon without a place. -/
def Token.semicolon : Token := ⟨.semicolon, ";", default⟩

/-- The expression, before a semicolon, does not look like a declaration that is told by `decl`. -/
def Undeclared (decl : List Token → Bool) (t : SyntaxTree) (e : NodeId) : Prop :=
  ∃ ts, Spells t Anywhere [.node e] ts ∧ decl (ts ++ [.semicolon]) = false

open BindingPower in
/-- The condition on a construct in a role, given the roles of its parts. -/
inductive Admits (t : SyntaxTree) (ρ : NodeId → Role) : Construct → Role → Prop
  | literal {v : Literal} : Admits t ρ (.literal v) (.expr closed closed)
  | ident {n : Ident} : Admits t ρ (.ident n) (.expr closed closed)
  | paren {e : NodeId} {l r : Nat} : ρ e = .expr l r → Admits t ρ (.paren e) (.expr closed closed)
  | cast {w : WrittenType} {e : NodeId} {l r : Nat} : ρ e = .expr l r →
      Admits t ρ (.cast w e) (.expr closed closed)
  | newObject {w : WrittenType} {args : List NodeId} : (∀ e ∈ args, ∃ l r, ρ e = .expr l r) →
      Admits t ρ (.newObject w args) (.expr closed closed)
  | member {o : NodeId} {n : Ident} {l r : Nat} : ρ o = .expr l r → postfixPower < r →
      Admits t ρ (.member o n) (.expr (min l postfixPower) closed)
  | call {f : NodeId} {args : List NodeId} {l r : Nat} : ρ f = .expr l r → postfixPower < r →
      (∀ e ∈ args, ∃ l r, ρ e = .expr l r) →
      Admits t ρ (.call f args) (.expr (min l postfixPower) closed)
  | unary {op : UnaryOp} {e : NodeId} {l r : Nat} : ρ e = .expr l r → unaryPower ≤ l →
      Admits t ρ (.unary op e) (.expr closed (min unaryPower r))
  | binary {op : BinaryOp} {a b : NodeId} {l r l' r' : Nat} : ρ a = .expr l r → left op < r →
      ρ b = .expr l' r' → right op ≤ l' →
      Admits t ρ (.binary op a b) (.expr (min l (left op)) (min (right op) r'))
  | assign {op : AssignOp} {a b : NodeId} {l r l' r' : Nat} : ρ a = .expr l r → assignLeft < r →
      (t.construct? a).any Construct.isAssignable = true → ρ b = .expr l' r' → assignRight ≤ l' →
      Admits t ρ (.assign op a b) (.expr (min l assignLeft) (min assignRight r'))
  | exprStmt {e : NodeId} {l r : Nat} : ρ e = .expr l r → Undeclared TypeScan.isVarDecl t e →
      Admits t ρ (.exprStmt e) (.stmt false)
  | localDecl {w : WrittenType} {vars : List Declarator} : vars ≠ [] →
      (∀ e ∈ vars.filterMap Declarator.init, ∃ l r, ρ e = .expr l r) →
      Admits t ρ (.localDecl w vars) (.stmt false)
  | returnStmt {value : Option NodeId} : (∀ e ∈ value, ∃ l r, ρ e = .expr l r) →
      Admits t ρ (.returnStmt value) (.stmt false)
  | yieldStmt {e : NodeId} {l r : Nat} : ρ e = .expr l r → Admits t ρ (.yieldStmt e) (.stmt false)
  | breakStmt : Admits t ρ .breakStmt (.stmt false)
  | continueStmt : Admits t ρ .continueStmt (.stmt false)
  | emptyStmt : Admits t ρ .emptyStmt (.stmt false)
  | block {stmts : List NodeId} : (∀ s ∈ stmts, ∃ d, ρ s = .stmt d) →
      Admits t ρ (.block stmts) (.stmt false)
  | ifThen {e a : NodeId} {l r : Nat} {d : Bool} : ρ e = .expr l r → ρ a = .stmt d →
      Admits t ρ (.ifStmt e a none) (.stmt true)
  | ifElse {e a b : NodeId} {l r : Nat} {d : Bool} : ρ e = .expr l r → ρ a = .stmt false →
      ρ b = .stmt d → Admits t ρ (.ifStmt e a (some b)) (.stmt d)
  | whileStmt {e a : NodeId} {l r : Nat} {d : Bool} : ρ e = .expr l r → ρ a = .stmt d →
      Admits t ρ (.whileStmt e a) (.stmt d)
  | doStmt {e a : NodeId} {l r : Nat} {d : Bool} : ρ a = .stmt d → ρ e = .expr l r →
      Admits t ρ (.doStmt a e) (.stmt false)
  | body {stmts : List NodeId} : (∀ s ∈ stmts, ∃ d, ρ s = .stmt d) →
      Admits t ρ (.block stmts) .body
  | field {w : WrittenType} {n : Ident} {init : Option NodeId} :
      (∀ e ∈ init, ∃ l r, ρ e = .expr l r) → Admits t ρ (.field w n init) .member
  | property {w : WrittenType} {n : Ident} {b : Bool} : Admits t ρ (.property w n b) .member
  | method {w : WrittenType} {n : Ident} {params : List Param} {s : NodeId} : ρ s = .body →
      Admits t ρ (.function w n params s) .member
  | function {w : WrittenType} {n : Ident} {params : List Param} {s : NodeId} : ρ s = .body →
      Admits t ρ (.function w n params s) .item
  | classDecl {n : Ident} {members : List NodeId} : (∀ m ∈ members, ρ m = .member) →
      Admits t ρ (.classDecl n members) .item
  | item {c : Construct} {d : Bool} : Admits t ρ c (.stmt d) →
      (∀ e, c = .exprStmt e → Undeclared TypeScan.isFunctionDecl t e) → Admits t ρ c .item

/-- **The tree at a node can be read back in its role.** -/
inductive Fits (t : SyntaxTree) : Role → NodeId → Prop
  | node {role : Role} {id : NodeId} {c : Construct} (ρ : NodeId → Role) :
      t.construct? id = some c → Admits t ρ c role → (∀ k ∈ c.children, Fits t (ρ k) k) →
      Fits t role id

/-! ## 3. Growth -/

variable {t u : SyntaxTree} {ρ : NodeId → Role}

theorem Undeclared.mono {decl : List Token → Bool} {e : NodeId} (h : Undeclared decl t e)
    (hc : ∀ id c, t.construct? id = some c → u.construct? id = some c) : Undeclared decl u e := by
  obtain ⟨ts, hts, hd⟩ := h
  exact ⟨ts, hts.mono hc fun _ _ _ h => h, hd⟩

theorem Admits.mono {c : Construct} {role : Role} (h : Admits t ρ c role)
    (hc : ∀ id c, t.construct? id = some c → u.construct? id = some c) : Admits u ρ c role := by
  induction h with
  | exprStmt he hd => exact .exprStmt he (hd.mono hc)
  | item _ hd ih => exact .item ih fun e he => (hd e he).mono hc
  | @assign op a b l r l' r' ha hr hassign hb hl =>
    obtain ⟨d, hd, hda⟩ := Option.any_eq_true .. |>.mp hassign
    refine .assign ha hr ?_ hb hl
    rw [hc a d hd]
    exact hda
  | literal => exact .literal
  | ident => exact .ident
  | paren he => exact .paren he
  | cast he => exact .cast he
  | newObject ha => exact .newObject ha
  | member ho hr => exact .member ho hr
  | call hf hr ha => exact .call hf hr ha
  | unary he hl => exact .unary he hl
  | binary ha hr hb hl => exact .binary ha hr hb hl
  | localDecl hn hv => exact .localDecl hn hv
  | returnStmt hv => exact .returnStmt hv
  | yieldStmt he => exact .yieldStmt he
  | breakStmt => exact .breakStmt
  | continueStmt => exact .continueStmt
  | emptyStmt => exact .emptyStmt
  | block hs => exact .block hs
  | ifThen he ha => exact .ifThen he ha
  | ifElse he ha hb => exact .ifElse he ha hb
  | whileStmt he ha => exact .whileStmt he ha
  | doStmt ha he => exact .doStmt ha he
  | body hs => exact .body hs
  | field hi => exact .field hi
  | property => exact .property
  | method hs => exact .method hs
  | function hs => exact .function hs
  | classDecl hm => exact .classDecl hm

theorem Fits.mono {role : Role} {id : NodeId} (h : Fits t role id)
    (hc : ∀ id c, t.construct? id = some c → u.construct? id = some c) : Fits u role id := by
  induction h with
  | node ρ hid ha _ ih => exact .node ρ (hc _ _ hid) (ha.mono hc) ih

/-! ## 4. Expressions -/

theorem Admits.isExpression {c : Construct} {l r : Nat} (h : Admits t ρ c (.expr l r)) :
    c.isExpression = true ∧ ∀ k ∈ c.children, ∃ l r, ρ k = .expr l r := by
  cases h with
  | literal | ident => exact ⟨rfl, by simp [Construct.children]⟩
  | paren he | cast he | unary he _ =>
    refine ⟨rfl, fun k hk => ?_⟩
    rw [List.mem_singleton.mp hk]
    exact ⟨_, _, he⟩
  | member ho _ =>
    refine ⟨rfl, fun k hk => ?_⟩
    rw [List.mem_singleton.mp hk]
    exact ⟨_, _, ho⟩
  | newObject ha => exact ⟨rfl, ha⟩
  | call hf _ ha =>
    refine ⟨rfl, fun k hk => ?_⟩
    rcases List.mem_cons.mp hk with rfl | hk
    · exact ⟨_, _, hf⟩
    · exact ha k hk
  | binary ha _ hb _ | assign ha _ _ hb _ =>
    refine ⟨rfl, fun k hk => ?_⟩
    simp only [Construct.children, List.mem_cons, List.not_mem_nil, or_false] at hk
    rcases hk with rfl | rfl
    · exact ⟨_, _, ha⟩
    · exact ⟨_, _, hb⟩

/-- What fits a role is not a whole program. -/
theorem Fits.construct?_ne_unit {role : Role} {i : NodeId} (h : Fits t role i)
    (items : List NodeId) : t.construct? i ≠ some (.unit items) := by
  cases h with
  | node ρ hc ha _ =>
    intro hu
    rw [hc] at hu
    cases hu
    cases ha with
    | item ha _ => cases ha

/-- Everything below a node that fits a role fits one. -/
theorem Fits.of_under {ids : List NodeId} {i : NodeId}
    (h : ∀ k ∈ ids, ∃ role, Fits t role k) (hu : t.Under ids i) : ∃ role, Fits t role i := by
  induction hu with
  | root hi => exact h _ hi
  | child _ hi ih =>
    obtain ⟨role, hf⟩ := ih
    cases hf with
    | node ρ hc _ hk =>
      rw [SyntaxTree.children_of_construct? hc] at hi
      exact ⟨_, hk _ hi⟩

/-- Everything below an expression is an expression. -/
theorem Fits.of_under_expr {id i : NodeId} {l r : Nat} (h : Fits t (.expr l r) id)
    (hu : t.Under [id] i) : ∃ l r, Fits t (.expr l r) i := by
  induction hu with
  | root hi =>
    rw [List.mem_singleton.mp hi]
    exact ⟨l, r, h⟩
  | child _ hi ih =>
    obtain ⟨l', r', hp⟩ := ih
    cases hp with
    | node ρ hc ha hk =>
      rw [SyntaxTree.children_of_construct? hc] at hi
      obtain ⟨l'', r'', he⟩ := ha.isExpression.2 _ hi
      exact ⟨l'', r'', he ▸ hk _ hi⟩

theorem Fits.isExpression_of_under {id i : NodeId} {l r : Nat} (h : Fits t (.expr l r) id)
    (hu : t.Under [id] i) : t.isExpression i = true := by
  obtain ⟨l', r', hi⟩ := h.of_under_expr hu
  cases hi with
  | node ρ hc ha _ => simp [SyntaxTree.isExpression, hc, ha.isExpression.1]

/-- **No way to write an expression statement looks like a declaration**, if one does not. -/
theorem Undeclared.of_spells {At : NodeId → List Token → Prop} {decl : List Token → Bool}
    (hcongr : ∀ {ts us}, lead ts = lead us → decl ts = decl us) {e : NodeId} {l r : Nat}
    (h : Undeclared decl t e) (hf : Fits t (.expr l r) e) {ts rest : List Token} {a : Token}
    (hs : Spells t At [.node e] ts) (ha : a.kind = .semicolon) :
    decl (ts ++ a :: rest) = false := by
  obtain ⟨us, hus, hd⟩ := h
  rw [← hd]
  refine hcongr (hs.alike hus trivial (fun i hi => hf.isExpression_of_under hi) _ _ ?_)
  rw [lead_cons_of_not_inType (by rw [ha]; rfl), lead_cons_of_not_inType rfl, ha]
  rfl

/-- What does not look like a declaration where it stands does not look like one anywhere. -/
theorem Undeclared.intro {At : NodeId → List Token → Prop} {decl : List Token → Bool}
    (hcongr : ∀ {ts us}, lead ts = lead us → decl ts = decl us) {e : NodeId} {ts rest : List Token}
    {a : Token} (hs : Spells t At [.node e] ts) (ha : a.kind = .semicolon)
    (hd : decl (ts ++ a :: rest) = false) {l r : Nat} (hf : Fits t (.expr l r) e) :
    Undeclared decl t e := by
  have hs' : Spells t Anywhere [.node e] ts := hs.mono (fun _ _ h => h) fun _ _ _ _ => trivial
  refine ⟨ts, hs', ?_⟩
  rw [← hd]
  refine hcongr (hs'.alike hs trivial (fun i hi => hf.isExpression_of_under hi) _ _ ?_)
  rw [lead_cons_of_not_inType rfl, lead_cons_of_not_inType (by rw [ha]; rfl), ha]
  rfl

end Recast
