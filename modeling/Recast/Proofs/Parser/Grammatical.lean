/-
# The shape of parsed nodes

Every node that the parser adds has parts of the right kind, and its operands bind tightly enough
for the text to be read that way.  This holds of all nodes in the table: also of those that were
added before a construct failed, and which no tree will ever hold.

* `Construct.Grammatical t c`: the condition on one construct, given what the table holds in its
  slots;
* `Forms pre x post`: **an activity adds grammatical nodes only**, whether it succeeds or fails, and
  establishes `post` if it succeeds from `pre`;
* `Operand m id q`: what is known of an expression while its operators are read at the power `m`.
  The operator on its right end was read at its own right power, and what follows binds more loosely
  than that; the step `forms_of_operatorAfter?` keeps it, so the loop `forms_operatorsTo` does;
* `parse_grammatical`: the result for programs, expressions, statements and blocks.
-/
import Recast.Proofs.Parser.Sound

namespace Recast

open Recast.Parser (headKind)
open BindingPower

/-! ## 1. Grammatical nodes -/

/-- The table has a construct of a certain kind at a node. -/
def SyntaxTree.Holds (P : Construct → Prop) (id : NodeId) (t : SyntaxTree) : Prop :=
  ∃ c, t.construct? id = some c ∧ P c

open SyntaxTree (Holds)

namespace Construct

def isMember : Construct → Bool
  | field .. | property .. | function .. => true
  | _ => false

def isAssignment : Construct → Bool
  | assign .. => true
  | _ => false

def isUnary : Construct → Bool
  | unary .. => true
  | _ => false

/-- The operator of a binary expression. -/
def binaryOp? : Construct → Option BinaryOp
  | binary op .. => some op
  | _ => none

/-- What may stand in a program: a class, a function or a statement. -/
def IsItem (c : Construct) : Prop := c.isClass = true ∨ c.isFunction = true ∨ c.isStatement = true

/-- What may stand after an operator before an operand. -/
def IsUnaryOperand (c : Construct) : Prop :=
  c.isExpression = true ∧ c.binaryOp? = none ∧ c.isAssignment = false

/-- What may stand before a member name or a list of arguments. -/
def IsPostfixOperand (c : Construct) : Prop := c.IsUnaryOperand ∧ c.isUnary = false

/-- What may stand to the left of a binary operator. -/
def IsLeftOperand (op : BinaryOp) (c : Construct) : Prop :=
  c.isExpression = true ∧ c.isAssignment = false ∧
    ∀ op' ∈ c.binaryOp?, op.precedence ≤ op'.precedence

/-- What may stand to the right of a binary operator. -/
def IsRightOperand (op : BinaryOp) (c : Construct) : Prop :=
  c.isExpression = true ∧ c.isAssignment = false ∧
    ∀ op' ∈ c.binaryOp?, op.precedence < op'.precedence

/-- **The slots of a construct hold nodes of the right kind.** -/
def Grammatical (t : SyntaxTree) : Construct → Prop
  | unit items => ∀ i ∈ items, t.Holds IsItem i
  | classDecl _ members => ∀ m ∈ members, t.Holds (·.isMember) m
  | function _ _ _ body => t.Holds (fun c => ∃ stmts, c = block stmts) body
  | block stmts => ∀ s ∈ stmts, t.Holds (·.isStatement) s
  | ifStmt condition thenBranch elseBranch =>
    t.Holds (·.isExpression) condition ∧ t.Holds (·.isStatement) thenBranch ∧
      ∀ s ∈ elseBranch, t.Holds (·.isStatement) s
  | whileStmt condition body | doStmt body condition =>
    t.Holds (·.isExpression) condition ∧ t.Holds (·.isStatement) body
  | field _ _ init | returnStmt init => ∀ e ∈ init, t.Holds (·.isExpression) e
  | localDecl _ vars => ∀ var ∈ vars, ∀ e ∈ var.init, t.Holds (·.isExpression) e
  | exprStmt e | yieldStmt e | cast _ e | paren e => t.Holds (·.isExpression) e
  | newObject _ args => ∀ e ∈ args, t.Holds (·.isExpression) e
  | member object _ => t.Holds IsPostfixOperand object
  | call callee args =>
    t.Holds IsPostfixOperand callee ∧ ∀ e ∈ args, t.Holds (·.isExpression) e
  | assign _ target value =>
    t.Holds (·.isAssignable) target ∧ t.Holds (·.isExpression) value
  | binary op lhs rhs => t.Holds (IsLeftOperand op) lhs ∧ t.Holds (IsRightOperand op) rhs
  | unary _ operand => t.Holds IsUnaryOperand operand
  | property .. | breakStmt | continueStmt | emptyStmt | literal _ | ident _ => True

end Construct

/-- Every node from the node `n` on is grammatical. -/
def SyntaxTree.GrammaticalFrom (n : Nat) (t : SyntaxTree) : Prop :=
  ∀ id c, n ≤ id → t.construct? id = some c → c.Grammatical t

/-- What stays true of a table when it grows. -/
def Stable (R : SyntaxTree → Prop) : Prop := ∀ t u : SyntaxTree, t.Extends u → R t → R u

theorem Stable.holds (P : Construct → Prop) (id : NodeId) : Stable (Holds P id) := by
  rintro t u he ⟨c, hc, hP⟩
  exact ⟨c, he.construct?_eq_some hc, hP⟩

theorem Stable.and {R S : SyntaxTree → Prop} (hR : Stable R) (hS : Stable S) :
    Stable fun t => R t ∧ S t :=
  fun t u he h => ⟨hR t u he h.1, hS t u he h.2⟩

theorem Stable.all {α : Type} {Q : α → Prop} {R : α → SyntaxTree → Prop}
    (h : ∀ a, Stable (R a)) : Stable fun t => ∀ a, Q a → R a t :=
  fun t u he hR a ha => h a t u he (hR a ha)

theorem Stable.true : Stable fun _ => True := fun _ _ _ _ => trivial

theorem Construct.stable_grammatical (c : Construct) : Stable c.Grammatical := by
  cases c with
  | unit _ | classDecl _ _ | block _ | newObject _ _ | field _ _ _ | returnStmt _ =>
    exact .all fun _ => .holds _ _
  | function _ _ _ _ | member _ _ | unary _ _ | exprStmt _ | yieldStmt _ | cast _ _ | paren _ =>
    exact .holds _ _
  | whileStmt _ _ | doStmt _ _ | assign _ _ _ | binary _ _ _ => exact .and (.holds _ _) (.holds _ _)
  | ifStmt _ _ _ => exact .and (.holds _ _) (.and (.holds _ _) (.all fun _ => .holds _ _))
  | call _ _ => exact .and (.holds _ _) (.all fun _ => .holds _ _)
  | localDecl _ _ => exact .all fun _ => .all fun _ => .holds _ _
  | property _ _ _ | breakStmt | continueStmt | emptyStmt | literal _ | ident _ => exact .true

theorem SyntaxTree.GrammaticalFrom.alloc {n : Nat} {t : SyntaxTree} (h : t.GrammaticalFrom n)
    {c : Construct} (hc : c.Grammatical t) (span : Span) :
    (t.alloc c span).2.GrammaticalFrom n := by
  intro id d hn hd
  have hext := Extends.alloc t c span
  rw [construct?_alloc] at hd
  split at hd
  · cases hd
    exact c.stable_grammatical _ _ hext hc
  · exact d.stable_grammatical _ _ hext (h id d hn hd)

/-! ## 2. Activities -/

/-- From `pre`, the activity adds grammatical nodes only, and if it succeeds then with `post`. -/
def Forms {α : Type} (pre : Parser → Prop) (x : Parse α) (post : α → Parser → Prop) : Prop :=
  ∀ (n : Nat) (p : Parser), pre p → p.tree.GrammaticalFrom n →
    p.tree.Extends (x p).2.tree ∧ (x p).2.tree.GrammaticalFrom n ∧
      ∀ a, (x p).1 = .ok a → post a (x p).2

namespace Forms

variable {α β : Type} {pre : Parser → Prop} {x : Parse α} {f : α → Parse β}
  {mid : α → Parser → Prop} {post : β → Parser → Prop}

theorem bind (hx : Forms pre x mid) (hf : ∀ a, Forms (mid a) (f a) post) :
    Forms pre (x >>= f) post := by
  intro n p hp hg
  obtain ⟨hext, hg', hok⟩ := hx n p hp hg
  rw [bind_apply]
  rcases hxp : x p with ⟨e | a, q⟩
  · rw [hxp] at hext hg'
    exact ⟨hext, hg', fun b hb => by cases hb⟩
  · rw [hxp] at hext hg' hok
    obtain ⟨hext', hg'', hok'⟩ := hf a n q (hok a rfl) hg'
    exact ⟨hext.trans hext', hg'', hok'⟩

theorem weaken {pre' : Parser → Prop} {mid' : α → Parser → Prop} (hx : Forms pre x mid)
    (hpre : ∀ p, pre' p → pre p) (hpost : ∀ a q, mid a q → mid' a q) : Forms pre' x mid' := by
  intro n p hp hg
  obtain ⟨hext, hg', hok⟩ := hx n p (hpre p hp) hg
  exact ⟨hext, hg', fun a ha => hpost a _ (hok a ha)⟩

theorem of_pre {pre' : Parser → Prop} (hx : Forms pre x mid) (hpre : ∀ p, pre' p → pre p) :
    Forms pre' x mid :=
  hx.weaken hpre fun _ _ h => h

theorem of_post {mid' : α → Parser → Prop} (hx : Forms pre x mid)
    (hpost : ∀ a q, mid a q → mid' a q) : Forms pre x mid' :=
  hx.weaken (fun _ h => h) hpost

/-- **What was known of the table before is known afterwards.** -/
theorem frame {R : SyntaxTree → Prop} (hx : Forms pre x mid) (hR : Stable R) :
    Forms (fun p => R p.tree ∧ pre p) x fun a q => R q.tree ∧ mid a q := by
  intro n p hp hg
  obtain ⟨hext, hg', hok⟩ := hx n p hp.2 hg
  exact ⟨hext, hg', fun a ha => ⟨hR _ _ hext hp.1, hok a ha⟩⟩

theorem pure {a : α} (h : ∀ p, pre p → mid a p) : Forms pre (Pure.pure a) mid := by
  intro n p hp hg
  refine ⟨.refl _, hg, fun b hb => ?_⟩
  cases hb
  exact h p hp

theorem throw (e : ParseError) : Forms pre (MonadExcept.throw e) mid := by
  intro n p _ hg
  exact ⟨.refl _, hg, fun b hb => by cases hb⟩

theorem throw_bind (e : ParseError) : Forms pre (MonadExcept.throw e >>= f) post := by
  have hthrow : Forms pre (MonadExcept.throw e : Parse α) fun _ _ => False := .throw e
  exact hthrow.bind fun _ _ _ hp => hp.elim

theorem exhausted : Forms pre Parse.exhausted mid := by
  intro n p _ hg
  exact ⟨.refl _, hg, fun b hb => by cases hb⟩

/-- A question has no effect, and its answer is known. -/
theorem ask (hx : ∀ p, (x p).2 = p)
    (hf : ∀ a, Forms (fun p => pre p ∧ (x p).1 = .ok a) (f a) post) :
    Forms pre (x >>= f) post := by
  intro n p hp hg
  have hq := hx p
  rw [bind_apply]
  rcases hxp : x p with ⟨e | a, q⟩
  · rw [hxp] at hq
    rw [show q = p from hq]
    exact ⟨.refl _, hg, fun b hb => by cases hb⟩
  · rw [hxp] at hq
    rw [show q = p from hq]
    exact hf a n p ⟨hp, by rw [hxp]⟩ hg

/-- **A grammatical node is added.** -/
theorem alloc {c : Construct} {span : Span} {mid : NodeId → Parser → Prop}
    (hc : ∀ p, pre p → c.Grammatical p.tree)
    (hpost : ∀ (p q : Parser) (id : NodeId), pre p → q.tokens = p.tokens →
      q.tree.construct? id = some c → mid id q) :
    Forms pre (Parse.alloc c span) mid := by
  intro n p hp hg
  refine ⟨.alloc _ _ _, hg.alloc (hc p hp) span, fun id hid => ?_⟩
  cases hid
  refine hpost p _ _ hp rfl ?_
  exact (SyntaxTree.construct?_alloc _ _ _ _).trans (if_pos rfl)

/-- A failure leaves grammatical nodes behind. -/
theorem attempt (hx : Forms pre x mid) : Forms pre (Parse.attempt x) fun r q =>
    ∀ a, r = .ok a → mid a q := by
  intro n p hp hg
  obtain ⟨hext, hg', hok⟩ := hx n p hp hg
  refine ⟨hext, hg', fun r hr a ha => ?_⟩
  cases hr
  exact hok a ha

end Forms

/-- What leaves the tree alone keeps all that is known of it. -/
theorem Quiet.forms {α : Type} {x : Parse α} (hx : Quiet x) (R : SyntaxTree → Prop) :
    Forms (fun p => R p.tree) x fun _ q => R q.tree := by
  intro n p hp hg
  obtain ⟨hadv, htree⟩ := hx n p
  refine ⟨hadv.tree, ?_, fun a _ => ?_⟩
  · rw [htree]
    exact hg
  · change R (x p).2.tree
    rw [htree]
    exact hp

/-- From a table with `R`, the activity adds grammatical nodes only, and if it succeeds then `S`
holds of the table. -/
def Shapes {α : Type} (R : SyntaxTree → Prop) (x : Parse α) (S : α → SyntaxTree → Prop) : Prop :=
  Forms (fun p => R p.tree) x fun a q => S a q.tree

/-- Nothing has to be known of the table. -/
def AnyTree : SyntaxTree → Prop := fun _ => True

theorem Quiet.bind_shapes {α β : Type} {x : Parse α} {f : α → Parse β} {R : SyntaxTree → Prop}
    {T : β → SyntaxTree → Prop} (hx : Quiet x) (hf : ∀ a, Shapes R (f a) T) :
    Shapes R (x >>= f) T :=
  (hx.forms R).bind hf

namespace Shapes

variable {α β : Type} {x : Parse α} {f : α → Parse β} {R : SyntaxTree → Prop}
  {S : α → SyntaxTree → Prop} {T : β → SyntaxTree → Prop}

/-- The second activity goes on with what the first has yielded. -/
theorem bind (hx : Shapes R x S) (hf : ∀ a, Shapes (S a) (f a) T) : Shapes R (x >>= f) T :=
  Forms.bind hx hf

/-- The second activity goes on with what was known before and what the first has yielded. -/
theorem bind_keep (hx : Shapes AnyTree x S) (hR : Stable R)
    (hf : ∀ a, Shapes (fun t => R t ∧ S a t) (f a) T) : Shapes R (x >>= f) T :=
  ((Forms.frame hx hR).of_pre fun _ h => ⟨h, trivial⟩).bind hf

theorem pure {a : α} (h : ∀ t, R t → S a t) : Shapes R (Pure.pure a) S :=
  Forms.pure fun p hp => h p.tree hp

/-- A node is added whose parts are known, and it is of the kind in question. -/
theorem alloc {c : Construct} {span : Span} {P : Construct → Prop} (hc : ∀ t, R t → c.Grammatical t)
    (hP : P c) : Shapes R (Parse.alloc c span) (Holds P) :=
  Forms.alloc (fun p hp => hc p.tree hp) fun _ _ _ _ _ hid => ⟨c, hid, hP⟩

end Shapes

namespace Parse

/-! ## 3. Sequences -/

section Sequences

variable {α : Type} {S : α → SyntaxTree → Prop}

theorem shapes_separatedTo {item : Parse α} (h : Shapes AnyTree item S) (hS : ∀ a, Stable (S a)) :
    ∀ turns, Shapes AnyTree (separatedTo item turns) fun as t => ∀ a ∈ as, S a t
  | 0 => Forms.exhausted
  | turns + 1 => by
    refine h.bind fun a => (quiet_eat .comma).bind_shapes fun more => ?_
    cases more with
    | false =>
      refine .pure fun t ha b hb => ?_
      rw [List.mem_singleton.mp hb]
      exact ha
    | true =>
      refine (shapes_separatedTo h hS turns).bind_keep (hS a) fun more => .pure ?_
      rintro t ⟨ha, hmore⟩ b hb
      rcases List.mem_cons.mp hb with rfl | hb
      · exact ha
      · exact hmore b hb

theorem shapes_separated {item : Parse α} (h : Shapes AnyTree item S) (hS : ∀ a, Stable (S a)) :
    Shapes AnyTree (separated item) fun as t => ∀ a ∈ as, S a t :=
  quiet_limit.bind_shapes fun n => shapes_separatedTo h hS n

end Sequences

section Items

variable {item : Parse NodeId} {P : Construct → Prop}

/-- One turn of a list of items, if the turns after it are as they should be. -/
theorem shapes_turn (h : Shapes AnyTree item (Holds P)) {braced : Bool}
    {turns : Nat} (hmore : Shapes AnyTree (itemsTo braced item turns) fun ids t =>
      ∀ i ∈ ids, t.Holds P i) (closed : Bool) : Shapes AnyTree (do
      if closed || (← atEnd) then pure []
      else
        let before := (← get).tokens.length
        match ← attempt item with
        | .ok id =>
          let more ← itemsTo braced item turns
          pure (id :: more)
        | .error e =>
          record e
          synchronize before
          itemsTo braced item turns) fun ids t => ∀ i ∈ ids, t.Holds P i := by
  refine quiet_atEnd.bind_shapes fun ended => ?_
  split
  · exact .pure fun t _ i hi => by cases hi
  · refine quiet_get.bind_shapes fun p => ?_
    have hattempt : Shapes AnyTree (attempt item) fun r t => ∀ id, r = .ok id → t.Holds P id :=
      Forms.attempt h
    refine hattempt.bind fun r => ?_
    cases r with
    | ok id =>
      have hknown : Stable fun t => ∀ id', Except.ok id = (.ok id' : Except ParseError NodeId) →
          t.Holds P id' := .all fun id' => .holds P id'
      refine hmore.bind_keep hknown fun more => .pure ?_
      rintro t ⟨hid, hmore⟩ i hi
      rcases List.mem_cons.mp hi with rfl | hi
      · exact hid i rfl
      · exact hmore i hi
    | error e =>
      refine (quiet_record e).bind_shapes fun _ => (quiet_synchronize _).bind_shapes fun _ => ?_
      exact Forms.of_pre hmore fun _ _ => trivial

/-- **Items are of their kind**, and those that failed have left grammatical nodes only. -/
theorem shapes_itemsTo (h : Shapes AnyTree item (Holds P)) (braced : Bool) :
    ∀ turns, Shapes AnyTree (itemsTo braced item turns) fun ids t => ∀ i ∈ ids, t.Holds P i
  | 0 => .pure fun t _ i hi => by cases hi
  | turns + 1 => by
    have hturn := shapes_turn h (shapes_itemsTo h braced turns)
    cases braced with
    | false => exact (Quiet.pure false).bind_shapes hturn
    | true => exact (quiet_check _).bind_shapes hturn

theorem shapes_itemsUntilBrace (h : Shapes AnyTree item (Holds P)) :
    Shapes AnyTree (itemsUntilBrace item) fun ids t => ∀ i ∈ ids, t.Holds P i :=
  quiet_limit.bind_shapes fun n => shapes_itemsTo h true n

theorem shapes_itemsUntilEnd (h : Shapes AnyTree item (Holds P)) :
    Shapes AnyTree (itemsUntilEnd item) fun ids t => ∀ i ∈ ids, t.Holds P i :=
  quiet_limit.bind_shapes fun n => shapes_itemsTo h false n

end Items

end Parse

/-! ## 4. Powers of expressions -/

theorem BinaryOp.precedence_bounds (op : BinaryOp) : 1 ≤ op.precedence ∧ op.precedence ≤ 6 := by
  cases op <;> decide

namespace Construct

/-- The left power of the operator between two operands. -/
def leftPower? : Construct → Option Nat
  | binary op .. => some (left op)
  | assign .. => some assignLeft
  | _ => none

/-- The power at which the operand at the right end was read. -/
def rightPower? : Construct → Option Nat
  | binary op .. => some (right op)
  | assign .. => some assignRight
  | unary .. => some unaryPower
  | _ => none

/-- An expression without an operand at either end. -/
def IsClosed (c : Construct) : Prop :=
  c.isExpression = true ∧ c.leftPower? = none ∧ c.rightPower? = none

variable {c : Construct} {op : BinaryOp}

/-- A member name or a list of arguments goes to the operand at the right end, if there is one. -/
theorem isPostfixOperand_of_lt (h : c.isExpression = true)
    (hr : ∀ r ∈ c.rightPower?, postfixPower < r) : c.IsPostfixOperand := by
  cases c with
  | binary op' a b =>
    have hlt := hr _ rfl
    have := op'.precedence_bounds
    simp only [postfixPower, right] at hlt
    omega
  | assign op' a b => exact absurd (hr _ rfl) (by decide)
  | unary op' a => exact absurd (hr _ rfl) (by decide)
  | _ => exact ⟨⟨h, rfl, rfl⟩, rfl⟩

theorem isLeftOperand_of_lt (h : c.isExpression = true) (hr : ∀ r ∈ c.rightPower?, left op < r) :
    c.IsLeftOperand op := by
  cases c with
  | binary op' a b =>
    refine ⟨rfl, rfl, fun op'' hop => ?_⟩
    cases hop
    have hlt := hr _ rfl
    simp only [left, right] at hlt
    omega
  | assign op' a b =>
    have hlt := hr _ rfl
    simp only [left, assignRight] at hlt
    omega
  | _ => exact ⟨h, rfl, fun op' hop => by cases hop⟩

theorem isRightOperand_of_le (h : c.isExpression = true) (hl : ∀ l ∈ c.leftPower?, right op ≤ l) :
    c.IsRightOperand op := by
  cases c with
  | binary op' a b =>
    refine ⟨rfl, rfl, fun op'' hop => ?_⟩
    cases hop
    have hle := hl _ rfl
    simp only [left, right] at hle
    omega
  | assign op' a b =>
    have hle := hl _ rfl
    have := op.precedence_bounds
    simp only [right, assignLeft] at hle
    omega
  | _ => exact ⟨h, rfl, fun op' hop => by cases hop⟩

theorem isUnaryOperand_of_le (h : c.isExpression = true) (hl : ∀ l ∈ c.leftPower?, unaryPower ≤ l) :
    c.IsUnaryOperand := by
  cases c with
  | binary op' a b =>
    have hle := hl _ rfl
    have := op'.precedence_bounds
    simp only [left, unaryPower] at hle
    omega
  | assign op' a b => exact absurd (hl _ rfl) (by decide)
  | _ => exact ⟨h, rfl, rfl⟩

end Construct

theorem SyntaxTree.Holds.imp {t : SyntaxTree} {P Q : Construct → Prop} {id : NodeId}
    (h : t.Holds P id) (hPQ : ∀ c, P c → Q c) : t.Holds Q id := by
  obtain ⟨c, hc, hP⟩ := h
  exact ⟨c, hc, hPQ c hP⟩

/-- What is known of an expression while its operators are read at the power `m`: the operator
between its operands binds that tightly, and what follows does not belong to the operand at its
right end. -/
def Operand (m : Nat) (id : NodeId) (q : Parser) : Prop :=
  q.tree.Holds (fun c => c.isExpression = true ∧ (∀ l ∈ c.leftPower?, m ≤ l) ∧
    ∀ r ∈ c.rightPower?, Stops r (headKind q.tokens)) id

/-- All operators have been read. -/
def Finished (m : Nat) (id : NodeId) (q : Parser) : Prop :=
  Operand m id q ∧ Stops m (headKind q.tokens)

namespace Operand

variable {m : Nat} {id : NodeId} {p q : Parser}

theorem of_isClosed (h : q.tree.Holds Construct.IsClosed id) : Operand m id q := by
  refine h.imp fun c hc => ⟨hc.1, ?_, ?_⟩
  · rw [hc.2.1]
    intro l hl
    cases hl
  · rw [hc.2.2]
    intro r hr
    cases hr

/-- What follows a new expression is what followed the operand at its right end. -/
theorem of_rightPower? {c : Construct} {r : Nat} (hid : q.tree.construct? id = some c)
    (he : c.isExpression = true) (hl : ∀ l ∈ c.leftPower?, m ≤ l) (hr : c.rightPower? = some r)
    (hstop : Stops r (headKind p.tokens)) (htok : q.tokens = p.tokens) : Operand m id q := by
  refine ⟨c, hid, he, hl, fun r' hr' => ?_⟩
  rw [hr] at hr'
  cases hr'
  rw [htok]
  exact hstop

theorem isExpression (h : Operand m id q) : q.tree.Holds (·.isExpression) id :=
  h.imp fun _ hc => hc.1

theorem le_leftPower (h : Operand m id q) :
    q.tree.Holds (fun c => c.isExpression = true ∧ ∀ l ∈ c.leftPower?, m ≤ l) id :=
  h.imp fun _ hc => ⟨hc.1, hc.2.1⟩

/-- The operator that follows binds more loosely than the operator at the right end took its
operand. -/
theorem lt_rightPower (h : Operand m id q) {l : Nat}
    (hk : (headKind q.tokens).leftPower? = some l) :
    q.tree.Holds (fun c => c.isExpression = true ∧ ∀ r ∈ c.rightPower?, l < r) id :=
  h.imp fun _ hc => ⟨hc.1, fun r hr => hc.2.2 r hr l hk⟩

end Operand

namespace Parse

/-! ## 5. Expressions -/

/-- Expressions are read at their powers. -/
def FormsExpr (expr : Nat → Parse NodeId) : Prop :=
  ∀ m, Forms (fun _ => True) (expr m) (Finished m)

section Expressions

variable {expr : Nat → Parse NodeId}

theorem shapes_expr_of (h : FormsExpr expr) (m : Nat) :
    Shapes AnyTree (expr m) (Holds (·.isExpression)) :=
  (h m).weaken (fun _ _ => trivial) fun _ _ hid => hid.1.isExpression

theorem shapes_argumentsWith (h : FormsExpr expr) :
    Shapes AnyTree (argumentsWith expr) fun args t =>
      ∀ e ∈ args, t.Holds (·.isExpression) e := by
  have hclose : ∀ args : List NodeId,
      Shapes (fun t => ∀ e ∈ args, t.Holds (·.isExpression) e)
        (do let _ ← expect .rightParen; pure args) fun args t =>
          ∀ e ∈ args, t.Holds (·.isExpression) e :=
    fun args => (quiet_expect _).bind_shapes fun _ => .pure fun _ h => h
  refine (quiet_expect _).bind_shapes fun _ => (quiet_check _).bind_shapes fun empty => ?_
  split
  · have hnone : Shapes AnyTree (pure []) fun (args : List NodeId) t =>
        ∀ e ∈ args, t.Holds (·.isExpression) e := .pure fun _ _ e he => by cases he
    exact hnone.bind hclose
  · exact (shapes_separated (shapes_expr_of h 0) fun _ => .holds _ _).bind hclose

theorem shapes_castWith (h : FormsExpr expr) :
    Shapes AnyTree (castWith expr) (Holds Construct.IsClosed) := by
  refine (quiet_expect _).bind_shapes fun _ => (quiet_expect _).bind_shapes fun _ => ?_
  refine quiet_type.bind_shapes fun target => (quiet_expect _).bind_shapes fun _ => ?_
  refine (quiet_expect _).bind_shapes fun _ => (shapes_expr_of h 0).bind fun inner => ?_
  refine (quiet_expect _).bind_shapes fun _ => (quiet_spanFrom _).bind_shapes fun _ => ?_
  exact .alloc (fun _ hinner => hinner) ⟨rfl, rfl, rfl⟩

theorem shapes_leaf {c : Construct} (hg : ∀ t, c.Grammatical t) (hc : c.IsClosed) (s : Span) :
    Shapes AnyTree (do let _ ← advance; alloc c s) (Holds Construct.IsClosed) :=
  quiet_advance.bind_shapes fun _ => .alloc (fun t _ => hg t) hc

theorem shapes_spelled (token : Token) : Shapes AnyTree (do
    let _ ← advance
    match Literal.ofToken token with
    | .ok value => alloc (.literal value) token.span
    | .error e => throw e) (Holds Construct.IsClosed) := by
  refine quiet_advance.bind_shapes fun _ => ?_
  split
  · exact .alloc (fun _ _ => trivial) ⟨rfl, rfl, rfl⟩
  · exact Forms.throw _

/-- The operand of an operator before it is read at the power of that operator. -/
theorem forms_unary (h : FormsExpr expr) (op : UnaryOp) (token : Token) :
    Forms (fun _ => True) (do
      let _ ← advance
      let operand ← expr unaryPower
      alloc (.unary op operand) (token.span.merge (← spanOf operand)))
      fun id q => ∀ m, Operand m id q := by
  refine (quiet_advance.forms AnyTree).bind fun _ => (h unaryPower).bind fun operand => ?_
  refine .ask (fun _ => rfl) fun s => .alloc ?_ ?_
  · rintro p ⟨⟨hop, -⟩, -⟩
    exact hop.le_leftPower.imp fun c hc => c.isUnaryOperand_of_le hc.1 hc.2
  · rintro p q id ⟨⟨-, hstop⟩, -⟩ htok hid m
    exact .of_rightPower? hid rfl (fun l hl => by cases hl) rfl hstop htok

theorem forms_operandWith (h : FormsExpr expr) :
    Forms (fun _ => True) (operandWith expr) fun id q => ∀ m, Operand m id q := by
  have hclosed : ∀ {x : Parse NodeId},
      Shapes AnyTree x (Holds Construct.IsClosed) →
      ∀ {t : Token}, Forms (fun p => True ∧ (peek p).1 = .ok t) x
        fun id q => ∀ m, Operand m id q :=
    fun hx => hx.weaken (fun _ _ => trivial) fun _ _ hid _ => .of_isClosed hid
  refine .ask (fun _ => rfl) fun token => ?_
  split
  iterate 5 exact hclosed (shapes_spelled token)
  iterate 3 exact hclosed (shapes_leaf (c := .literal _) (fun _ => trivial) ⟨rfl, rfl, rfl⟩ _)
  · exact (forms_unary h .neg token).of_pre fun _ _ => trivial
  · exact (forms_unary h .not token).of_pre fun _ _ => trivial
  · refine hclosed (quiet_advance.bind_shapes fun _ => (shapes_expr_of h 0).bind fun inner => ?_)
    refine (quiet_expect _).bind_shapes fun _ => (quiet_spanFrom _).bind_shapes fun _ => ?_
    exact .alloc (fun _ hinner => hinner) ⟨rfl, rfl, rfl⟩
  · refine hclosed (quiet_advance.bind_shapes fun _ => quiet_type.bind_shapes fun target => ?_)
    refine (shapes_argumentsWith h).bind fun args => (quiet_spanFrom _).bind_shapes fun _ => ?_
    exact .alloc (fun _ hargs => hargs) ⟨rfl, rfl, rfl⟩
  · exact hclosed (shapes_castWith h)
  · exact hclosed (shapes_leaf (c := .ident _) (fun _ => trivial) ⟨rfl, rfl, rfl⟩ _)
  · exact .throw _
  · exact .throw _

section Operators

variable {m : Nat} {lhs : NodeId}

theorem shapes_memberAfter (object : NodeId) :
    Shapes (Holds Construct.IsPostfixOperand object) (memberAfter object)
      (Holds Construct.IsClosed) := by
  refine quiet_advance.bind_shapes fun _ => quiet_ident.bind_shapes fun name => ?_
  refine (quiet_spanOf _).bind_shapes fun _ => ?_
  exact .alloc (fun _ hobject => hobject) ⟨rfl, rfl, rfl⟩

theorem shapes_callAfter (h : FormsExpr expr) (callee : NodeId) :
    Shapes (Holds Construct.IsPostfixOperand callee) (callAfter expr callee)
      (Holds Construct.IsClosed) := by
  refine (shapes_argumentsWith h).bind_keep (.holds _ _) fun args => ?_
  refine (quiet_spanOf _).bind_shapes fun _ => (quiet_spanFrom _).bind_shapes fun _ => ?_
  exact .alloc (fun _ hparts => hparts) ⟨rfl, rfl, rfl⟩

/-- The value of an assignment takes all operators that follow. -/
theorem forms_assign (h : FormsExpr expr) (op : AssignOp) (hm : m ≤ assignLeft) :
    Forms (fun p => p.tree.Holds (·.isAssignable) lhs) (do
      let value ← expr assignRight
      alloc (.assign op lhs value) ((← spanOf lhs).merge (← spanOf value))) (Operand m) := by
  have hvalue := ((h assignRight).frame (.holds (·.isAssignable) lhs)).of_pre
    fun p hp => ⟨hp, trivial⟩
  refine hvalue.bind fun value => ?_
  refine .ask (fun _ => rfl) fun s => .ask (fun _ => rfl) fun s' => .alloc ?_ ?_
  · rintro p ⟨⟨⟨htarget, hval, -⟩, -⟩, -⟩
    exact ⟨htarget, hval.isExpression⟩
  · rintro p q id ⟨⟨⟨-, -, hstop⟩, -⟩, -⟩ htok hid
    refine .of_rightPower? hid rfl (fun l hl => ?_) rfl hstop htok
    cases hl
    exact hm

/-- What is assigned to is checked before the value is read. -/
theorem forms_assignAfter (h : FormsExpr expr) (op : AssignOp) (hm : m ≤ assignLeft) :
    Forms (fun p => p.tree.Holds (·.isExpression) lhs) (assignAfter expr op lhs) (Operand m) := by
  refine (quiet_advance.forms (Holds (·.isExpression) lhs)).bind fun token => ?_
  refine .ask (fun _ => rfl) fun p => ?_
  have hsame : ∀ q : Parser, ((get : Parse Parser) q).1 = .ok p → q = p := by
    intro q hq
    cases hq
    rfl
  dsimp only
  split
  · rename_i c hc
    split
    · exact .throw_bind _
    · rename_i hassign
      refine (forms_assign h op hm).of_pre fun q hq => ?_
      rw [hsame q hq.2]
      exact ⟨c, hc, by simpa using hassign⟩
  · rename_i hnone
    refine (forms_assign h op hm).of_pre fun q hq => ?_
    obtain ⟨⟨c, hc, -⟩, hget⟩ := hq
    rw [hsame q hget, hnone] at hc
    cases hc

/-- The right operand takes the operators that bind more tightly. -/
theorem forms_binaryAfter (h : FormsExpr expr) (op : BinaryOp) (hm : m ≤ left op) :
    Forms (fun p => p.tree.Holds (Construct.IsLeftOperand op) lhs) (binaryAfter expr op lhs)
      (Operand m) := by
  refine (quiet_advance.forms (Holds (Construct.IsLeftOperand op) lhs)).bind fun _ => ?_
  have hright := ((h (right op)).frame (.holds (Construct.IsLeftOperand op) lhs)).of_pre
    fun p hp => ⟨hp, trivial⟩
  refine hright.bind fun rhs => ?_
  refine .ask (fun _ => rfl) fun s => .ask (fun _ => rfl) fun s' => .alloc ?_ ?_
  · rintro p ⟨⟨⟨hlhs, hrhs, -⟩, -⟩, -⟩
    exact ⟨hlhs, hrhs.le_leftPower.imp fun c hc => c.isRightOperand_of_le hc.1 hc.2⟩
  · rintro p q id ⟨⟨⟨-, -, hstop⟩, -⟩, -⟩ htok hid
    refine .of_rightPower? hid rfl (fun l hl => ?_) rfl hstop htok
    cases hl
    exact hm

/-- **One more operator is read rightly**, if what was read so far is an operand for it. -/
theorem forms_of_operatorAfter? (h : FormsExpr expr) {kind : TokenKind} {x : Parse NodeId}
    (hx : operatorAfter? expr m kind lhs = some x) :
    Forms (fun p => Operand m lhs p ∧ headKind p.tokens = kind) x (Operand m) := by
  have hclosed : ∀ (id : NodeId) (q : Parser), q.tree.Holds Construct.IsClosed id →
      Operand m id q := fun _ _ hid => .of_isClosed hid
  have hpostfix : ∀ p, kind.leftPower? = some postfixPower →
      Operand m lhs p ∧ headKind p.tokens = kind → p.tree.Holds Construct.IsPostfixOperand lhs := by
    rintro p hk ⟨hlhs, rfl⟩
    exact (hlhs.lt_rightPower hk).imp fun c hc => c.isPostfixOperand_of_lt hc.1 hc.2
  unfold operatorAfter? at hx
  split at hx
  · rename_i hk
    split at hx <;> cases hx
    exact (shapes_memberAfter lhs).weaken (fun p hp => hpostfix p (by rw [hk]; rfl) hp) hclosed
  · split at hx
    · rename_i hk
      split at hx <;> cases hx
      exact (shapes_callAfter h lhs).weaken (fun p hp => hpostfix p (by rw [hk]; rfl) hp) hclosed
    · split at hx
      · split at hx <;> cases hx
        exact (forms_assignAfter h _ (by omega)).of_pre fun p hp => hp.1.isExpression
      · split at hx
        · rename_i op hop
          split at hx <;> cases hx
          refine (forms_binaryAfter h op (by omega)).of_pre fun p hp => ?_
          obtain ⟨hlhs, hk⟩ := hp
          rw [← hk] at hop
          have hpow : (headKind p.tokens).leftPower? = some (left op) := by
            rw [TokenKind.kind_of_binaryOp? hop]
            exact op.leftPower?_kind
          exact (hlhs.lt_rightPower hpow).imp fun c hc => c.isLeftOperand_of_lt hc.1 hc.2
        · cases hx

/-- All operators are read rightly, up to one that binds too loosely. -/
theorem forms_operatorsTo (h : FormsExpr expr) :
    ∀ turns lhs, Forms (Operand m lhs) (operatorsTo expr m turns lhs) (Finished m)
  | 0, _ => .exhausted
  | turns + 1, lhs => by
    refine .ask (fun _ => rfl) fun token => ?_
    have hkind : ∀ p : Parser, (peek p).1 = .ok token → headKind p.tokens = token.kind := by
      intro p hp
      cases hp
      exact p.kind_peek.symm
    split
    · rename_i hop
      refine .pure fun p hp => ⟨hp.1, ?_⟩
      rw [hkind p hp.2]
      exact operatorAfter?_eq_none_iff.mp hop
    · rename_i x hop
      have hstep := (forms_of_operatorAfter? h hop).of_pre
        fun p (hp : _ ∧ (peek p).1 = .ok token) => ⟨hp.1, hkind p hp.2⟩
      exact hstep.bind fun lhs => forms_operatorsTo h turns lhs

end Operators

end Expressions

theorem forms_exprTo : ∀ depth, FormsExpr (exprTo depth)
  | 0 => fun _ => .exhausted
  | depth + 1 => fun m => by
    refine (forms_operandWith (forms_exprTo depth)).bind fun lhs => ?_
    refine .ask (fun _ => rfl) fun turns => ?_
    exact (forms_operatorsTo (forms_exprTo depth) turns lhs).of_pre fun p hp => hp.1 m

/-- **An expression is read at its power.** -/
theorem forms_expr : FormsExpr expr := fun m =>
  .ask (fun _ => rfl) fun depth => (forms_exprTo depth m).of_pre fun _ _ => trivial

theorem shapes_expr (m : Nat) :
    Shapes AnyTree (expr m) (Holds (·.isExpression)) :=
  shapes_expr_of forms_expr m

/-! ## 6. Statements -/

theorem shapes_exprStmt : Shapes AnyTree exprStmt (Holds (·.isStatement)) := by
  refine quiet_peek.bind_shapes fun _ => (shapes_expr 0).bind fun e => ?_
  refine (quiet_expect _).bind_shapes fun _ => (quiet_spanFrom _).bind_shapes fun _ => ?_
  exact .alloc (fun _ he => he) rfl

theorem shapes_initializer : Shapes AnyTree initializer fun init t =>
    ∀ e ∈ init, t.Holds (·.isExpression) e := by
  refine (quiet_eat _).bind_shapes fun present => ?_
  split
  · refine (shapes_expr 0).bind fun e => .pure fun t he e' he' => ?_
    cases he'
    exact he
  · exact .pure fun _ _ e he => by cases he

theorem shapes_declarator : Shapes AnyTree declarator fun var t =>
    ∀ e ∈ var.init, t.Holds (·.isExpression) e :=
  quiet_ident.bind_shapes fun _ => shapes_initializer.bind fun _ => .pure fun _ h => h

theorem shapes_localDecl : Shapes AnyTree localDecl (Holds (·.isStatement)) := by
  have hvars := shapes_separated shapes_declarator fun _ => .all fun _ => .holds _ _
  refine quiet_type.bind_shapes fun declared => hvars.bind fun vars => ?_
  refine (quiet_expect _).bind_shapes fun _ => (quiet_spanFrom _).bind_shapes fun _ => ?_
  exact .alloc (fun _ h => h) rfl

theorem shapes_returnStmt : Shapes AnyTree returnStmt (Holds (·.isStatement)) := by
  have hend : ∀ (start : Span) (value : Option NodeId),
      Shapes (fun t => ∀ e ∈ value, t.Holds (·.isExpression) e) (do
        let _ ← expect .semicolon
        alloc (.returnStmt value) (← spanFrom start)) (Holds (·.isStatement)) :=
    fun start value => (quiet_expect _).bind_shapes fun _ =>
      (quiet_spanFrom _).bind_shapes fun _ => .alloc (fun _ h => h) rfl
  refine (quiet_expect _).bind_shapes fun start => (quiet_check _).bind_shapes fun empty => ?_
  split
  · have hnone : Shapes AnyTree (pure none) fun (value : Option NodeId) t =>
        ∀ e ∈ value, t.Holds (·.isExpression) e := .pure fun _ _ e he => by cases he
    exact hnone.bind fun value => hend _ value
  · refine (shapes_expr 0).bind fun e => ?_
    have hsome : Shapes (fun t => t.Holds (·.isExpression) e) (pure (some e))
        fun (value : Option NodeId) t => ∀ e ∈ value, t.Holds (·.isExpression) e := by
      refine .pure fun t he e' he' => ?_
      cases he'
      exact he
    exact hsome.bind fun value => hend _ value

theorem shapes_yieldStmt : Shapes AnyTree yieldStmt (Holds (·.isStatement)) := by
  refine (quiet_expect _).bind_shapes fun _ => (quiet_expect _).bind_shapes fun _ => ?_
  refine (shapes_expr 0).bind fun value => (quiet_expect _).bind_shapes fun _ => ?_
  exact (quiet_spanFrom _).bind_shapes fun _ => .alloc (fun _ h => h) rfl

theorem shapes_jumpStmt {c : Construct} (hg : ∀ t, c.Grammatical t) (hc : c.isStatement = true) :
    Shapes AnyTree (jumpStmt c) (Holds (·.isStatement)) :=
  quiet_advance.bind_shapes fun _ => (quiet_expect _).bind_shapes fun _ =>
    (quiet_spanFrom _).bind_shapes fun _ => .alloc (fun t _ => hg t) hc

theorem shapes_emptyStmt : Shapes AnyTree emptyStmt (Holds (·.isStatement)) :=
  quiet_advance.bind_shapes fun _ => .alloc (fun _ _ => trivial) rfl

theorem shapes_condition : Shapes AnyTree condition (Holds (·.isExpression)) := by
  refine (quiet_expect _).bind_shapes fun _ => (shapes_expr 0).bind fun e => ?_
  exact (quiet_expect _).bind_shapes fun _ => .pure fun _ he => he

section Statements

variable {stmt : Parse NodeId}

theorem shapes_blockWith (h : Shapes AnyTree stmt (Holds (·.isStatement))) :
    Shapes AnyTree (blockWith stmt) (Holds (fun c => ∃ stmts, c = .block stmts)) := by
  refine (quiet_expect _).bind_shapes fun _ => (shapes_itemsUntilBrace h).bind fun stmts => ?_
  refine (quiet_expect _).bind_shapes fun _ => (quiet_spanFrom _).bind_shapes fun _ => ?_
  exact .alloc (fun _ h => h) ⟨stmts, rfl⟩

theorem shapes_ifWith (h : Shapes AnyTree stmt (Holds (·.isStatement))) :
    Shapes AnyTree (ifWith stmt) (Holds (·.isStatement)) := by
  refine (quiet_expect _).bind_shapes fun start => shapes_condition.bind fun test => ?_
  refine h.bind_keep (.holds _ _) fun thenBranch => (quiet_eat _).bind_shapes fun more => ?_
  have hend : ∀ elseBranch : Option NodeId, Shapes (fun t =>
      (t.Holds (·.isExpression) test ∧ t.Holds (·.isStatement) thenBranch) ∧
        ∀ s ∈ elseBranch, t.Holds (·.isStatement) s) (do
      alloc (.ifStmt test thenBranch elseBranch) (← spanFrom start.span)) (Holds (·.isStatement)) :=
    fun elseBranch => (quiet_spanFrom _).bind_shapes fun _ =>
      .alloc (fun _ h => ⟨h.1.1, h.1.2, h.2⟩) rfl
  split
  · refine h.bind_keep (.and (.holds _ _) (.holds _ _)) fun s => ?_
    have hsome : Shapes (fun t => (t.Holds (·.isExpression) test ∧
        t.Holds (·.isStatement) thenBranch) ∧ t.Holds (·.isStatement) s)
        (pure (some s)) fun (e : Option NodeId) t => (t.Holds (·.isExpression) test ∧
          t.Holds (·.isStatement) thenBranch) ∧
          ∀ s ∈ e, t.Holds (·.isStatement) s := by
      refine .pure fun t hs => ⟨hs.1, fun s' hs' => ?_⟩
      cases hs'
      exact hs.2
    exact hsome.bind hend
  · have hnone : Shapes (fun t => t.Holds (·.isExpression) test ∧
        t.Holds (·.isStatement) thenBranch) (pure none) fun (e : Option NodeId) t =>
          (t.Holds (·.isExpression) test ∧ t.Holds (·.isStatement) thenBranch) ∧
          ∀ s ∈ e, t.Holds (·.isStatement) s :=
      .pure fun t ht => ⟨ht, fun s hs => by cases hs⟩
    exact hnone.bind hend

theorem shapes_whileWith (h : Shapes AnyTree stmt (Holds (·.isStatement))) :
    Shapes AnyTree (whileWith stmt) (Holds (·.isStatement)) := by
  refine (quiet_expect _).bind_shapes fun _ => shapes_condition.bind fun test => ?_
  refine h.bind_keep (.holds _ _) fun body => (quiet_spanFrom _).bind_shapes fun _ => ?_
  exact .alloc (fun _ h => h) rfl

theorem shapes_doWith (h : Shapes AnyTree stmt (Holds (·.isStatement))) :
    Shapes AnyTree (doWith stmt) (Holds (·.isStatement)) := by
  refine (quiet_expect _).bind_shapes fun _ => h.bind fun body => ?_
  refine (quiet_expect _).bind_shapes fun _ => ?_
  refine shapes_condition.bind_keep (.holds _ _) fun test => ?_
  refine (quiet_expect _).bind_shapes fun _ => (quiet_spanFrom _).bind_shapes fun _ => ?_
  exact .alloc (fun _ h => ⟨h.2, h.1⟩) rfl

theorem shapes_statementWith
    (h : Shapes AnyTree stmt (Holds (·.isStatement))) :
    Shapes AnyTree (statementWith stmt) (Holds (·.isStatement)) := by
  refine quiet_peek.bind_shapes fun token => ?_
  split
  · refine (shapes_blockWith h).of_post fun _ _ hid => hid.imp ?_
    rintro c ⟨stmts, rfl⟩
    rfl
  · exact shapes_ifWith h
  · exact shapes_whileWith h
  · exact shapes_doWith h
  · exact shapes_returnStmt
  · exact shapes_yieldStmt
  · exact shapes_jumpStmt (fun _ => trivial) rfl
  · exact shapes_jumpStmt (fun _ => trivial) rfl
  · exact shapes_emptyStmt
  · refine quiet_isVarDecl.bind_shapes fun declares => ?_
    split
    · exact shapes_localDecl
    · exact shapes_exprStmt

end Statements

theorem shapes_statementTo : ∀ depth,
    Shapes AnyTree (statementTo depth) (Holds (·.isStatement))
  | 0 => Forms.exhausted
  | depth + 1 => shapes_statementWith (shapes_statementTo depth)

/-- **A statement is read as one.** -/
theorem shapes_statement : Shapes AnyTree statement (Holds (·.isStatement)) :=
  quiet_limit.bind_shapes fun n => shapes_statementTo n

theorem shapes_block :
    Shapes AnyTree block (Holds (fun c => ∃ stmts, c = .block stmts)) :=
  shapes_blockWith shapes_statement

/-! ## 7. Programs -/

theorem shapes_function : Shapes AnyTree function (Holds (·.isFunction)) := by
  have hbody : ∀ (returnType : WrittenType) (name : Ident) (params : List Param),
      Shapes AnyTree (do
        let _ ← expect .rightParen
        let body ← block
        alloc (.function returnType name params body) (← spanFrom returnType.span))
        (Holds (·.isFunction)) := by
    intro returnType name params
    refine (quiet_expect _).bind_shapes fun _ => shapes_block.bind fun body => ?_
    exact (quiet_spanFrom _).bind_shapes fun _ => .alloc (fun _ h => h) rfl
  refine quiet_type.bind_shapes fun returnType => quiet_ident.bind_shapes fun name => ?_
  refine (quiet_expect _).bind_shapes fun _ => (quiet_check _).bind_shapes fun empty => ?_
  split
  · exact (Quiet.pure []).bind_shapes fun params => hbody returnType name params
  · exact (quiet_separated quiet_param).bind_shapes fun params => hbody returnType name params

theorem shapes_classMember : Shapes AnyTree classMember (Holds (·.isMember)) := by
  refine quiet_isFunctionDecl.bind_shapes fun isFunction => ?_
  split
  · refine shapes_function.of_post fun _ _ hid => hid.imp fun c hc => ?_
    cases c <;> first | rfl | cases hc
  · refine quiet_type.bind_shapes fun declared => quiet_ident.bind_shapes fun name => ?_
    refine (quiet_check _).bind_shapes fun braced => ?_
    split
    · refine quiet_accessors.bind_shapes fun hasSetter => (quiet_spanFrom _).bind_shapes fun _ => ?_
      exact .alloc (fun _ _ => trivial) rfl
    · refine shapes_initializer.bind fun init => (quiet_expect _).bind_shapes fun _ => ?_
      exact (quiet_spanFrom _).bind_shapes fun _ => .alloc (fun _ h => h) rfl

theorem shapes_classDecl : Shapes AnyTree classDecl (Holds (·.isClass)) := by
  refine (quiet_expect _).bind_shapes fun _ => quiet_ident.bind_shapes fun name => ?_
  refine (quiet_expect _).bind_shapes fun _ => ?_
  refine (shapes_itemsUntilBrace shapes_classMember).bind fun members => ?_
  refine (quiet_expect _).bind_shapes fun _ => (quiet_spanFrom _).bind_shapes fun _ => ?_
  exact .alloc (fun _ h => h) rfl

theorem shapes_item : Shapes AnyTree item (Holds Construct.IsItem) := by
  refine (quiet_check _).bind_shapes fun isClass => ?_
  split
  · exact shapes_classDecl.of_post fun _ _ hid => hid.imp fun _ hc => .inl hc
  · refine quiet_isFunctionDecl.bind_shapes fun isFunction => ?_
    split
    · exact shapes_function.of_post fun _ _ hid =>
        hid.imp fun _ hc => .inr (.inl hc)
    · exact shapes_statement.of_post fun _ _ hid =>
        hid.imp fun _ hc => .inr (.inr hc)

end Parse

/-- **Every node of the table of a text is grammatical.** -/
theorem parseLenient_grammatical (text : String) : (parseLenient text).1.GrammaticalFrom 0 := by
  obtain ⟨items, q, hi, -, htree⟩ := parseLenient_apply text
  have hempty : (Parser.ofText text).tree.GrammaticalFrom 0 := by
    intro id c _ hc
    simp [Parser.ofText, Parser.ofLexed, SyntaxTree.empty, SyntaxTree.construct?] at hc
  obtain ⟨-, hg, hitems⟩ :=
    Parse.shapes_itemsUntilEnd Parse.shapes_item 0 (Parser.ofText text) trivial hempty
  rw [hi] at hg hitems
  have hroot := hg.alloc (c := .unit items) (hitems items rfl) ⟨0, q.textSize, 1, 1⟩
  rw [htree]
  exact fun id c hn hc => hroot id c hn hc

-- a call that breaks off leaves its callee and its argument behind, and the root holds none of them
example : (parseLenient "f(a + b").1.size = 5 ∧
    (parseLenient "f(a + b").1.construct? 4 = some (.unit []) := by
  decide +kernel

/-- **Every node that the parser adds is grammatical**: in a whole program, and when an expression,
a statement or a block is read from any state of the parser, with or without success.  An operator
between operands that an expression at the power `m` ends up with binds as tightly as `m`. -/
theorem parse_grammatical (text : String) (p : Parser) (m : Nat) :
    (parseLenient text).1.GrammaticalFrom 0 ∧
    (Parse.expr m p).2.tree.GrammaticalFrom p.tree.size ∧
    (∀ id, (Parse.expr m p).1 = .ok id →
      (Parse.expr m p).2.tree.Holds (fun c => c.isExpression = true ∧
        ∀ l ∈ c.leftPower?, m ≤ l) id) ∧
    (Parse.statement p).2.tree.GrammaticalFrom p.tree.size ∧
    (Parse.block p).2.tree.GrammaticalFrom p.tree.size := by
  have hnone : p.tree.GrammaticalFrom p.tree.size := by
    intro id c hid hc
    exact absurd (SyntaxTree.lt_size_of_construct? hc) (Nat.not_lt.mpr hid)
  obtain ⟨-, hexpr, hresult⟩ := Parse.forms_expr m _ p trivial hnone
  obtain ⟨-, hstmt, -⟩ := Parse.shapes_statement _ p trivial hnone
  obtain ⟨-, hblock, -⟩ := Parse.shapes_block _ p trivial hnone
  exact ⟨parseLenient_grammatical text, hexpr, fun id hid => (hresult id hid).1.le_leftPower, hstmt,
    hblock⟩

end Recast
