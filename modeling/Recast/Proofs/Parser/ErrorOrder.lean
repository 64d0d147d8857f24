/-
# Errors come in the order of the text

A failure is found at the next token or at one that has just been read, and it is recorded before more
is read.  So every error that has been recorded is at or before the next token, whichever loop has
recorded it, and the next one is not before any of them.

* `InOrder es stop p`: after the errors `es`, the errors of the parser come in the order of their
  places, none after the next token, and neither is after the end of the text at `stop`;
* `reported`: the parser with a failure recorded;
* `Orderly x`: the activity `x` keeps the errors in order, its own failure included.  One rule for each
  way to build an activity, then one lemma for each form of the grammar;
* `parseLenient_errors`: **first the errors of the lexer, then those of the parser, each in order.**
-/
import Recast.Proofs.Parser.Builds
import Recast.Proofs.Parser.Reading
import Recast.Proofs.Token.Tiles

namespace Recast

/-- A literal without a value fails at its own token. -/
theorem Literal.ofToken_eq_error {t : Token} {e : ParseError} (h : ofToken t = .error e) :
    e.kind = .invalidLiteral ∧ e.span = t.span := by
  unfold ofToken at h
  dsimp only at h
  split at h
  all_goals first
    | (split at h <;> cases h; exact ⟨rfl, rfl⟩)
    | (cases h; exact ⟨rfl, rfl⟩)

namespace Parse

/-! ## 1. Errors up to the next token -/

/-- After the errors `es` come errors of the parser, in the order of their places and up to `offset`. -/
def Recorded (es : List ParseError) (offset : Nat) (errors : List ParseError) : Prop :=
  ∃ own, errors = es ++ own ∧ (own.Pairwise fun a b => a.span.offset ≤ b.span.offset) ∧
    ∀ e ∈ own, e.kind ≠ .lexerError ∧ e.span.offset ≤ offset

/-- The tokens, the end of the text at `stop` and the errors after `es` are in order, and no error is
after the next token. -/
structure InOrder (es : List ParseError) (stop : Nat) (p : Parser) : Prop where
  tokens : p.tokens.Pairwise fun a b => a.span.offset ≤ b.span.offset
  within : ∀ t ∈ p.tokens, t.span.offset ≤ stop
  endSpan : p.endSpan.offset = stop
  errors : Recorded es p.peek.span.offset p.errors

/-- The parser with a failure recorded. -/
def reported {α : Type} : Except ParseError α × Parser → Parser
  | (.ok _, p) => p
  | (.error e, p) => { p with errors := p.errors ++ [e] }

/-- The activity keeps what is in order in order, also with its failure. -/
def Orderly {α : Type} (x : Parse α) : Prop :=
  ∀ ⦃es : List ParseError⦄ ⦃stop : Nat⦄ ⦃p : Parser⦄, InOrder es stop p →
    InOrder es stop (reported (x p))

section Rules

variable {α β : Type} {es : List ParseError} {stop : Nat} {p q : Parser} {ts : List Token}
  {e : ParseError} {x : Parse α} {f : α → Parse β}

theorem Recorded.mono {i j : Nat} {errors : List ParseError} (h : Recorded es i errors) (hij : i ≤ j) :
    Recorded es j errors := by
  obtain ⟨own, heq, hpair, hle⟩ := h
  exact ⟨own, heq, hpair, fun e he => ⟨(hle e he).1, Nat.le_trans (hle e he).2 hij⟩⟩

/-- An error that is not before the others comes after them. -/
theorem Recorded.append {i j : Nat} {errors : List ParseError} (h : Recorded es i errors)
    (hi : i ≤ e.span.offset) (hj : e.span.offset ≤ j) (hk : e.kind ≠ .lexerError) :
    Recorded es j (errors ++ [e]) := by
  obtain ⟨own, rfl, hpair, hle⟩ := h
  refine ⟨own ++ [e], List.append_assoc .., ?_, ?_⟩
  · refine List.pairwise_append.mpr ⟨hpair, List.pairwise_singleton _ _, fun a ha b hb => ?_⟩
    obtain rfl := List.mem_singleton.mp hb
    exact Nat.le_trans (hle a ha).2 hi
  · intro a ha
    rcases List.mem_append.mp ha with ha | ha
    · exact ⟨(hle a ha).1, Nat.le_trans (hle a ha).2 (Nat.le_trans hi hj)⟩
    · obtain rfl := List.mem_singleton.mp ha
      exact ⟨hk, hj⟩

/-- The next token is not after the end of the text. -/
theorem InOrder.peek_le (h : InOrder es stop p) : p.peek.span.offset ≤ stop := by
  cases hp : p.tokens with
  | nil =>
    simp only [Parser.peek, hp, List.headD_nil]
    exact Nat.le_of_eq h.endSpan
  | cons t ts =>
    rw [Parser.peek_of_eq_cons hp]
    exact h.within t (by simp [hp])

/-- Reading goes forward in the text. -/
theorem InOrder.peek_mono (h : InOrder es stop p) (hr : JustRead p ts q) :
    p.peek.span.offset ≤ q.peek.span.offset := by
  have htokens := hr.1
  cases ts with
  | nil =>
    rw [List.nil_append] at htokens
    have hqp : q = p := by rw [hr.2, ← htokens, Parser.read_nil]
    exact Nat.le_of_eq (by rw [hqp])
  | cons t ts =>
    rw [Parser.peek_of_eq_cons htokens]
    cases hrest : q.tokens with
    | nil =>
      simp only [Parser.peek, hrest, List.headD_nil, hr.endSpan_eq, h.endSpan]
      exact h.within t (by simp [htokens])
    | cons u us =>
      have hpair := h.tokens
      rw [htokens, List.cons_append, List.pairwise_cons] at hpair
      rw [Parser.peek_of_eq_cons hrest]
      exact hpair.1 u (by simp [hrest])

theorem InOrder.read (h : InOrder es stop p) (hr : JustRead p ts q) : InOrder es stop q := by
  have hsub : q.tokens.Sublist p.tokens := hr.1 ▸ List.sublist_append_right _ _
  refine ⟨h.tokens.sublist hsub, fun t ht => h.within t (hsub.subset ht), ?_, ?_⟩
  · rw [hr.endSpan_eq, h.endSpan]
  · rw [hr.errors_eq]
    exact h.errors.mono (h.peek_mono hr)

/-- **What fails while tokens are read fails no earlier than they start** and no later than they end, so
that the failure comes last. -/
theorem InOrder.fail (h : InOrder es stop p) (hr : JustRead p ts q) (hk : e.kind ≠ .lexerError)
    (he : e.span = p.peek.span ∨ e.span = q.peek.span) :
    InOrder es stop { q with errors := q.errors ++ [e] } := by
  have hq := h.read hr
  have hmono := h.peek_mono hr
  refine ⟨hq.tokens, hq.within, hq.endSpan, ?_⟩
  change Recorded es q.peek.span.offset (q.errors ++ [e])
  rw [hr.errors_eq]
  rcases he with he | he
  · exact h.errors.append (Nat.le_of_eq (by rw [he])) (he ▸ hmono) hk
  · exact h.errors.append (he ▸ hmono) (Nat.le_of_eq (by rw [he])) hk

/-- What follows starts where the first part ended. -/
theorem InOrder.bind (h : InOrder es stop (reported (x p))) (hf : ∀ a, Orderly (f a)) :
    InOrder es stop (reported ((x >>= f) p)) := by
  rw [bind_apply]
  rcases hx : x p with ⟨e | a, q⟩ <;> rw [hx] at h
  · exact h
  · exact hf a h

theorem Orderly.bind (hx : Orderly x) (hf : ∀ a, Orderly (f a)) : Orderly (x >>= f) :=
  fun _ _ _ h => (hx h).bind hf

/-- What only reads keeps the errors in order. -/
theorem OnlyReads.orderly (hx : OnlyReads x) : Orderly x := by
  intro es stop p h
  obtain ⟨⟨ts, hts⟩, hfails⟩ := hx p
  rcases hxp : x p with ⟨e | a, q⟩ <;> rw [hxp] at hts hfails
  · obtain ⟨hspan, hkind⟩ := hfails e rfl
    exact h.fail hts hkind (.inr hspan)
  · exact h.read hts

theorem Orderly.pure (a : α) : Orderly (Pure.pure a : Parse α) := (OnlyReads.pure a).orderly

/-- What asks and leaves the parser as it is keeps everything in order. -/
theorem Orderly.ask (hx : ∀ p, ∃ a, x p = (.ok a, p)) : Orderly x := (OnlyReads.ask hx).orderly

/-- What is done after a look at the next token may depend on where it is done. -/
theorem orderly_peek {f : Token → Parse β}
    (h : ∀ ⦃es stop p⦄, InOrder es stop p → InOrder es stop (reported (f p.peek p))) :
    Orderly (peek >>= f) :=
  fun _ _ _ hp => h hp

/-- **A token that has just been read may be the place of a failure.** -/
theorem inOrder_advance_bind {f : Token → Parse β}
    (hf : ∀ ⦃ts q⦄, JustRead p ts q → InOrder es stop (reported (f p.peek q))) :
    InOrder es stop (reported ((advance >>= f) p)) := by
  obtain ⟨ts, q, hq, hread⟩ := justRead_advance p
  rw [bind_of_ok hq]
  exact hf hread

/-- Adding a node reads nothing. -/
theorem orderly_alloc (c : Construct) (span : Span) : Orderly (alloc c span) :=
  fun _ _ _ h => ⟨h.tokens, h.within, h.endSpan, h.errors⟩

theorem orderly_spanOf (id : NodeId) : Orderly (spanOf id) := .ask fun p => ⟨_, spanOf_apply id p⟩

theorem orderly_spanned (c : Construct) (start : Span) : Orderly (do alloc c (← spanFrom start)) :=
  Orderly.bind (.ask fun p => ⟨_, spanFrom_apply start p⟩) fun _ => orderly_alloc c _

theorem orderly_separatedTo (h : Orderly x) : ∀ turns, Orderly (separatedTo x turns)
  | 0 => onlyReads_exhausted.orderly
  | turns + 1 => by
    refine h.bind fun a => (onlyReads_eat _).orderly.bind fun b => ?_
    split
    · exact (orderly_separatedTo h turns).bind fun more => .pure (a :: more)
    · exact .pure [a]

theorem orderly_separated (h : Orderly x) : Orderly (separated x) :=
  onlyReads_limit.orderly.bind fun n => orderly_separatedTo h n

theorem orderly_expect (k : TokenKind) : Orderly (expect k) := (onlyReads_expect k).orderly

end Rules

/-! ## 2. Expressions -/

section Expressions

variable {es : List ParseError} {stop : Nat} {p : Parser} {expr : Nat → Parse NodeId}

theorem orderly_argumentsWith (h : ∀ power, Orderly (expr power)) : Orderly (argumentsWith expr) := by
  have hclose : ∀ args : List NodeId, Orderly (do let _ ← expect .rightParen; pure args) :=
    fun args => (orderly_expect _).bind fun _ => .pure args
  refine (orderly_expect _).bind fun _ => (onlyReads_check _).orderly.bind fun b => ?_
  split
  · exact (Orderly.pure []).bind hclose
  · exact (orderly_separated (h 0)).bind hclose

theorem orderly_castWith (h : ∀ power, Orderly (expr power)) : Orderly (castWith expr) := by
  refine (orderly_expect _).bind fun _ => (orderly_expect _).bind fun _ => ?_
  refine onlyReads_type.orderly.bind fun target => (orderly_expect _).bind fun _ => ?_
  refine (orderly_expect _).bind fun _ => (h 0).bind fun inner => ?_
  exact (orderly_expect _).bind fun _ => orderly_spanned _ _

/-- A literal that has no value fails at its own token, which has been read. -/
theorem inOrder_spelled (h : InOrder es stop p) : InOrder es stop (reported ((do
    let _ ← advance
    match Literal.ofToken p.peek with
    | .ok value => alloc (.literal value) p.peek.span
    | .error e => throw e : Parse NodeId) p)) := by
  refine inOrder_advance_bind fun ts q hread => ?_
  cases hv : Literal.ofToken p.peek with
  | ok value => exact orderly_alloc _ _ (h.read hread)
  | error e =>
    obtain ⟨hkind, hspan⟩ := Literal.ofToken_eq_error hv
    exact h.fail hread (by simp [hkind]) (.inl hspan)

theorem orderly_operandWith (h : ∀ power, Orderly (expr power)) : Orderly (operandWith expr) := by
  refine orderly_peek fun es stop p hp => ?_
  have hunary : ∀ op : UnaryOp, Orderly (do
      let _ ← advance
      let operand ← expr BindingPower.unaryPower
      alloc (.unary op operand) (p.peek.span.merge (← spanOf operand))) := by
    intro op
    refine onlyReads_advance.orderly.bind fun _ => (h _).bind fun operand => ?_
    exact (orderly_spanOf operand).bind fun _ => orderly_alloc _ _
  cases hkind : p.peek.kind with
  | intLiteral | longLiteral | floatLiteral | doubleLiteral | stringLiteral =>
    exact inOrder_spelled hp
  | trueWord | falseWord | nullWord | identifier =>
    exact onlyReads_advance.orderly.bind (fun _ => orderly_alloc _ _) hp
  | minus => exact hunary .neg hp
  | bang => exact hunary .not hp
  | leftParen =>
    refine onlyReads_advance.orderly.bind (fun _ => (h 0).bind fun inner => ?_) hp
    exact (orderly_expect _).bind fun _ => orderly_spanned _ _
  | newWord =>
    refine onlyReads_advance.orderly.bind (fun _ => onlyReads_type.orderly.bind fun _ => ?_) hp
    exact (orderly_argumentsWith h).bind fun args => orderly_spanned _ _
  | castWord => exact orderly_castWith h hp
  | _ => exact hp.fail (.refl p) (by simp [ParseError.ofExpectedExpression]) (.inl rfl)

theorem orderly_memberAfter (object : NodeId) : Orderly (memberAfter object) := by
  refine onlyReads_advance.orderly.bind fun _ => onlyReads_ident.orderly.bind fun name => ?_
  exact (orderly_spanOf object).bind fun _ => orderly_alloc _ _

theorem orderly_callAfter (h : ∀ power, Orderly (expr power)) (callee : NodeId) :
    Orderly (callAfter expr callee) := by
  refine (orderly_argumentsWith h).bind fun args => (orderly_spanOf callee).bind fun _ => ?_
  exact orderly_spanned _ _

/-- A target that cannot be assigned to fails at the operator, which has been read. -/
theorem orderly_assignAfter (h : ∀ power, Orderly (expr power)) (op : AssignOp) (target : NodeId) :
    Orderly (assignAfter expr op target) := by
  intro es stop p hp
  have hvalue : Orderly (do
      let value ← expr BindingPower.assignRight
      alloc (.assign op target value) ((← spanOf target).merge (← spanOf value))) := by
    refine (h _).bind fun value => (orderly_spanOf target).bind fun _ => ?_
    exact (orderly_spanOf value).bind fun _ => orderly_alloc _ _
  refine inOrder_advance_bind fun ts q hread => ?_
  rw [bind_of_ok (get_apply q)]
  cases q.tree.construct? target with
  | none => exact hvalue (hp.read hread)
  | some c =>
    dsimp only
    cases hc : c.isAssignable with
    | true => exact hvalue (hp.read hread)
    | false => exact hp.fail hread (fun h => by cases h) (.inl rfl)

theorem orderly_binaryAfter (h : ∀ power, Orderly (expr power)) (op : BinaryOp) (lhs : NodeId) :
    Orderly (binaryAfter expr op lhs) := by
  refine onlyReads_advance.orderly.bind fun _ => (h _).bind fun rhs => ?_
  exact (orderly_spanOf lhs).bind fun _ => (orderly_spanOf rhs).bind fun _ => orderly_alloc _ _

theorem orderly_of_operatorAfter? (h : ∀ power, Orderly (expr power)) {power : Nat}
    {kind : TokenKind} {lhs : NodeId} {x : Parse NodeId}
    (hx : operatorAfter? expr power kind lhs = some x) : Orderly x := by
  unfold operatorAfter? at hx
  split at hx
  · obtain ⟨-, hx⟩ := Option.ite_none_left_eq_some.mp hx
    cases hx
    exact orderly_memberAfter lhs
  split at hx
  · obtain ⟨-, hx⟩ := Option.ite_none_left_eq_some.mp hx
    cases hx
    exact orderly_callAfter h lhs
  split at hx
  · obtain ⟨-, hx⟩ := Option.ite_none_left_eq_some.mp hx
    cases hx
    exact orderly_assignAfter h _ lhs
  split at hx
  · obtain ⟨-, hx⟩ := Option.ite_none_left_eq_some.mp hx
    cases hx
    exact orderly_binaryAfter h _ lhs
  · cases hx

theorem orderly_operatorsTo (h : ∀ power, Orderly (expr power)) (power : Nat) :
    ∀ turns lhs, Orderly (operatorsTo expr power turns lhs)
  | 0, _ => onlyReads_exhausted.orderly
  | turns + 1, lhs => by
    refine orderly_peek fun es stop p hp => ?_
    cases hx : operatorAfter? expr power p.peek.kind lhs with
    | none => exact hp
    | some x =>
      exact (orderly_of_operatorAfter? h hx).bind
        (fun lhs => orderly_operatorsTo h power turns lhs) hp

end Expressions

theorem orderly_exprTo : ∀ depth power, Orderly (exprTo depth power)
  | 0, _ => onlyReads_exhausted.orderly
  | depth + 1, power =>
    (orderly_operandWith (orderly_exprTo depth)).bind fun lhs => onlyReads_limit.orderly.bind fun n =>
      orderly_operatorsTo (orderly_exprTo depth) power n lhs

theorem orderly_expr (power : Nat) : Orderly (expr power) :=
  onlyReads_limit.orderly.bind fun n => orderly_exprTo n power

/-! ## 3. Items -/

section Items

variable {es : List ParseError} {stop : Nat} {p : Parser} {item : Parse NodeId}

/-- Skipping the rest of an item that failed keeps its failure in order. -/
theorem InOrder.recover {e : ParseError} (h : InOrder es stop { p with errors := p.errors ++ [e] })
    (before : Nat) : InOrder es stop (Parse.recover before e p) := by
  obtain ⟨ts, hts⟩ := (onlyReads_synchronize before { p with errors := p.errors ++ [e] }).read
  exact h.read hts

/-- **A loop over items keeps the errors in order**: those of an item that fails come before its own
failure, and what is skipped after it is only read. -/
theorem orderly_itemsTo (h : Orderly item) (braced : Bool) :
    ∀ turns, Orderly (itemsTo braced item turns)
  | 0 => .pure []
  | turns + 1 => by
    intro es stop p hp
    cases hc : closed braced p with
    | true =>
      rw [itemsTo_of_closed hc]
      exact hp
    | false =>
      have hitem := h hp
      rcases hi : item p with ⟨e | id, q⟩ <;> rw [hi] at hitem
      · rw [itemsTo_of_error hc hi]
        exact orderly_itemsTo h braced turns (InOrder.recover hitem _)
      · obtain ⟨ids, r, hr⟩ := itemsTo_eq_ok braced item turns q
        have hmore := orderly_itemsTo h braced turns (show InOrder es stop q from hitem)
        rw [hr] at hmore
        rw [itemsTo_of_ok hc hi hr]
        exact hmore

theorem orderly_itemsUntilBrace (h : Orderly item) : Orderly (itemsUntilBrace item) :=
  onlyReads_limit.orderly.bind fun n => orderly_itemsTo h true n

theorem orderly_itemsUntilEnd (h : Orderly item) : Orderly (itemsUntilEnd item) :=
  onlyReads_limit.orderly.bind fun n => orderly_itemsTo h false n

end Items

/-! ## 4. Statements -/

section Statements

variable {stmt : Parse NodeId}

/-- What ends with a token and becomes a node. -/
theorem orderly_expect_spanned (k : TokenKind) (c : Construct) (start : Span) : Orderly (do
    let _ ← expect k
    alloc c (← spanFrom start)) :=
  (orderly_expect k).bind fun _ => orderly_spanned c start

theorem orderly_exprStmt : Orderly exprStmt :=
  Orderly.bind (.ask fun p => ⟨_, peek_apply p⟩) fun _ => (orderly_expr 0).bind fun _ =>
    orderly_expect_spanned _ _ _

theorem orderly_initializer : Orderly initializer := by
  refine (onlyReads_eat _).orderly.bind fun b => ?_
  split
  · exact (orderly_expr 0).bind fun e => .pure (some e)
  · exact .pure none

theorem orderly_declarator : Orderly declarator :=
  onlyReads_ident.orderly.bind fun _ => orderly_initializer.bind fun _ => .pure _

theorem orderly_localDecl : Orderly localDecl :=
  onlyReads_type.orderly.bind fun _ => (orderly_separated orderly_declarator).bind fun _ =>
    orderly_expect_spanned _ _ _

theorem orderly_returnStmt : Orderly returnStmt := by
  refine (orderly_expect _).bind fun token => (onlyReads_check _).orderly.bind fun b => ?_
  split
  · exact (Orderly.pure none).bind fun _ => orderly_expect_spanned _ _ _
  · exact (orderly_expr 0).bind fun e => (Orderly.pure (some e)).bind fun _ =>
      orderly_expect_spanned _ _ _

theorem orderly_yieldStmt : Orderly yieldStmt :=
  (orderly_expect _).bind fun _ => (orderly_expect _).bind fun _ => (orderly_expr 0).bind fun _ =>
    orderly_expect_spanned _ _ _

theorem orderly_jumpStmt (c : Construct) : Orderly (jumpStmt c) :=
  onlyReads_advance.orderly.bind fun _ => orderly_expect_spanned _ _ _

theorem orderly_emptyStmt : Orderly emptyStmt :=
  onlyReads_advance.orderly.bind fun _ => orderly_alloc _ _

theorem orderly_condition : Orderly condition :=
  (orderly_expect _).bind fun _ => (orderly_expr 0).bind fun _ => (orderly_expect _).bind fun _ =>
    .pure _

theorem orderly_blockWith (h : Orderly stmt) : Orderly (blockWith stmt) :=
  (orderly_expect _).bind fun _ => (orderly_itemsUntilBrace h).bind fun _ =>
    orderly_expect_spanned _ _ _

theorem orderly_ifWith (h : Orderly stmt) : Orderly (ifWith stmt) := by
  refine (orderly_expect _).bind fun token => orderly_condition.bind fun test => h.bind fun s => ?_
  refine (onlyReads_eat _).orderly.bind fun b => ?_
  split
  · exact h.bind fun s => (Orderly.pure (some s)).bind fun _ => orderly_spanned _ _
  · exact (Orderly.pure none).bind fun _ => orderly_spanned _ _

theorem orderly_whileWith (h : Orderly stmt) : Orderly (whileWith stmt) :=
  (orderly_expect _).bind fun _ => orderly_condition.bind fun _ => h.bind fun _ => orderly_spanned _ _

theorem orderly_doWith (h : Orderly stmt) : Orderly (doWith stmt) :=
  (orderly_expect _).bind fun _ => h.bind fun _ => (orderly_expect _).bind fun _ =>
    orderly_condition.bind fun _ => orderly_expect_spanned _ _ _

theorem orderly_statementWith (h : Orderly stmt) : Orderly (statementWith stmt) := by
  have hother : Orderly (do if ← isVarDecl then localDecl else exprStmt) := by
    refine Orderly.bind (.ask fun p => ⟨_, isVarDecl_apply p⟩) fun b => ?_
    split
    · exact orderly_localDecl
    · exact orderly_exprStmt
  refine orderly_peek fun es stop p hp => ?_
  cases p.peek.kind with
  | leftBrace => exact orderly_blockWith h hp
  | ifWord => exact orderly_ifWith h hp
  | whileWord => exact orderly_whileWith h hp
  | doWord => exact orderly_doWith h hp
  | returnWord => exact orderly_returnStmt hp
  | yieldWord => exact orderly_yieldStmt hp
  | breakWord | continueWord => exact orderly_jumpStmt _ hp
  | semicolon => exact orderly_emptyStmt hp
  | _ => exact hother hp

theorem orderly_statementTo : ∀ depth, Orderly (statementTo depth)
  | 0 => onlyReads_exhausted.orderly
  | depth + 1 => orderly_statementWith (orderly_statementTo depth)

theorem orderly_statement : Orderly statement := onlyReads_limit.orderly.bind orderly_statementTo

theorem orderly_block : Orderly block := orderly_blockWith orderly_statement

end Statements

/-! ## 5. Programs -/

theorem orderly_function : Orderly function := by
  refine onlyReads_type.orderly.bind fun returnType => onlyReads_ident.orderly.bind fun name => ?_
  refine (orderly_expect _).bind fun _ => (onlyReads_check _).orderly.bind fun b => ?_
  have hbody : ∀ params : List Param, Orderly (do
      let _ ← expect .rightParen
      let body ← block
      alloc (.function returnType name params body) (← spanFrom returnType.span)) :=
    fun params => (orderly_expect _).bind fun _ => orderly_block.bind fun _ => orderly_spanned _ _
  split
  · exact (Orderly.pure []).bind hbody
  · exact (onlyReads_separated onlyReads_param).orderly.bind hbody

theorem orderly_classMember : Orderly classMember := by
  refine Orderly.bind (.ask fun p => ⟨_, isFunctionDecl_apply p⟩) fun b => ?_
  split
  · exact orderly_function
  · refine onlyReads_type.orderly.bind fun _ => onlyReads_ident.orderly.bind fun _ => ?_
    refine (onlyReads_check _).orderly.bind fun b => ?_
    split
    · exact onlyReads_accessors.orderly.bind fun _ => orderly_spanned _ _
    · exact orderly_initializer.bind fun _ => orderly_expect_spanned _ _ _

theorem orderly_classDecl : Orderly classDecl :=
  (orderly_expect _).bind fun _ => onlyReads_ident.orderly.bind fun _ => (orderly_expect _).bind
    fun _ => (orderly_itemsUntilBrace orderly_classMember).bind fun _ => orderly_expect_spanned _ _ _

theorem orderly_item : Orderly item := by
  refine (onlyReads_check _).orderly.bind fun b => ?_
  split
  · exact orderly_classDecl
  · refine Orderly.bind (.ask fun p => ⟨_, isFunctionDecl_apply p⟩) fun b => ?_
    split
    · exact orderly_function
    · exact orderly_statement

end Parse

/-! ## 6. Texts -/

/-- At the start of a text there are only the errors of the lexer. -/
theorem Parser.inOrder_ofText (text : String) : Parse.InOrder
    ((tokenize text).2.map .ofLexError) (Text.byteSize text.toList) (ofText text) := by
  obtain ⟨⟨init, eof, htokens, -, hoffset, -, -⟩, -, hpair, -, -⟩ := tokenize_tiles text
  have hsub : (ofText text).tokens.Sublist (tokenize text).1 := List.filter_sublist
  refine ⟨?_, fun t ht => ?_, ?_, ⟨[], (List.append_nil _).symm, .nil, by simp⟩⟩
  · exact (hpair.sublist hsub).imp fun h => Nat.le_of_lt h.1
  · have hmem := hsub.subset ht
    rw [htokens] at hmem hpair
    rw [← hoffset]
    rcases List.mem_append.mp hmem with hmem | hmem
    · exact Nat.le_of_lt ((List.pairwise_append.mp hpair).2.2 t hmem eof (by simp)).1
    · exact Nat.le_of_eq (by rw [List.mem_singleton.mp hmem])
  · have hend : (ofText text).endSpan = ((tokenize text).1.getLast?.map Token.span).getD default := rfl
    rw [hend, htokens]
    simp [hoffset]

/-- **The errors of a text come in order.**  First there are those of the lexer, one for each token that
is none, each at a later place than the one before.  After them come those of the parser: none is before
an earlier one, and none is after the end of the text. -/
theorem parseLenient_errors (text : String) : ∃ own : List ParseError,
    (parseLenient text).2 = (tokenize text).2.map .ofLexError ++ own ∧
    (tokenize text).2.map (·.span) =
      ((tokenize text).1.filter (·.kind = .error)).map (·.span) ∧
    ((tokenize text).2.Pairwise fun a b => a.span.offset < b.span.offset) ∧
    (own.Pairwise fun a b => a.span.offset ≤ b.span.offset) ∧
    ∀ e ∈ own, e.kind ≠ .lexerError ∧ e.span.offset ≤ Text.byteSize text.toList := by
  obtain ⟨-, -, hpair, -, hspans⟩ := tokenize_tiles text
  have hlexer : (tokenize text).2.Pairwise fun a b => a.span.offset < b.span.offset := by
    have herrors : (((tokenize text).1.filter (·.kind = .error)).map (·.span)).Pairwise
        fun a b => a.offset < b.offset :=
      List.pairwise_map.mpr ((hpair.sublist List.filter_sublist).imp fun h => h.1)
    rw [← hspans, List.pairwise_map] at herrors
    exact herrors
  obtain ⟨items, q, hi, herrors, -⟩ := parseLenient_apply text
  have hq := Parse.orderly_itemsUntilEnd Parse.orderly_item (Parser.inOrder_ofText text)
  rw [hi] at hq
  obtain ⟨own, hown, hsorted, hle⟩ := hq.errors
  refine ⟨own, herrors.trans hown, hspans, hlexer, hsorted, fun e he => ⟨(hle e he).1, ?_⟩⟩
  exact Nat.le_trans (hle e he).2 hq.peek_le

end Recast
