/-
# A statement stays in front of its semicolon

Tokens without semicolons and braces, with a semicolon after them, are a fence for the parser.
Expressions and types never read a semicolon or a brace, so they stay in front of the fence, whether
they succeed or fail, and they record no errors.  A simple statement ends with the semicolon.  So an
item that starts with such tokens either fails in front of the semicolon or reads exactly up to it.

* `Fenced rest es p`: the parser is in front of `rest`, which starts with a semicolon, with no other
  semicolon or brace before it, and has recorded the errors `es`;
* `Stays x`: the activity `x` leaves a fenced parser fenced;
* `EndsAt rest es p x`: at `p` the activity `x` fails in front of the semicolon or reads up to it;
* `endsAt_item`: **an item that is no condition and no loop does so.**
-/
import Recast.Proofs.Parser.Builds

namespace Recast

/-- Whether a token is neither a semicolon nor a brace. -/
def TokenKind.isInner : TokenKind → Bool
  | semicolon | leftBrace | rightBrace => false
  | _ => true

namespace Parse

/-! ## 1. The fence -/

/-- The parser stands in front of `rest`, which starts with a semicolon, and no semicolon or brace
comes before it; the errors recorded so far are `es`. -/
structure Fenced (rest : List Token) (es : List ParseError) (p : Parser) : Prop where
  fence : Parser.headKind rest = .semicolon
  tokens : ∃ us, p.tokens = us ++ rest ∧ ∀ a ∈ us, a.kind.isInner = true
  errors : p.errors = es

/-- The activity leaves a fenced parser fenced. -/
def Stays {α : Type} (x : Parse α) : Prop :=
  ∀ ⦃rest : List Token⦄ ⦃es : List ParseError⦄ ⦃p : Parser⦄,
    Fenced rest es p → Fenced rest es (x p).2

section Rules

variable {α β : Type} {rest : List Token} {es : List ParseError} {p : Parser} {x : Parse α}
  {f : α → Parse β}

/-- The next token is a semicolon or a token before it. -/
theorem Fenced.headKind (h : Fenced rest es p) :
    Parser.headKind p.tokens = .semicolon ∨ (Parser.headKind p.tokens).isInner = true := by
  obtain ⟨us, hus, hinner⟩ := h.tokens
  cases us with
  | nil =>
    rw [hus]
    exact .inl h.fence
  | cons a us =>
    rw [hus]
    exact .inr (hinner a (by simp))

/-- What is no semicolon is read in front of the fence. -/
theorem Fenced.advance (h : Fenced rest es p) (hk : p.peek.kind ≠ .semicolon) :
    Fenced rest es (Parse.advance p).2 := by
  obtain ⟨us, hus, hinner⟩ := h.tokens
  rw [Parser.kind_peek, hus] at hk
  cases us with
  | nil => exact absurd h.fence hk
  | cons a us =>
    rw [advance_of_eq_cons hus]
    exact ⟨h.fence, ⟨us, rfl, fun b hb => hinner b (by simp [hb])⟩, h.errors⟩

/-- What follows starts where the first part ended. -/
theorem Fenced.bind (h : Fenced rest es (x p).2) (hf : ∀ a, Stays (f a)) :
    Fenced rest es ((x >>= f) p).2 := by
  rw [bind_apply]
  rcases hx : x p with ⟨e | a, q⟩ <;> rw [hx] at h
  · exact h
  · exact hf a h

theorem Stays.bind (hx : Stays x) (hf : ∀ a, Stays (f a)) : Stays (x >>= f) :=
  fun _ _ _ h => (hx h).bind hf

/-- What asks and leaves the parser as it is stays in front of the fence. -/
theorem Stays.ask (hx : ∀ p, (x p).2 = p) : Stays x := fun _ _ _ h => (hx _).symm ▸ h

theorem Stays.pure (a : α) : Stays (Pure.pure a : Parse α) := .ask fun _ => rfl

theorem Stays.throw (e : ParseError) : Stays (MonadExcept.throw e : Parse α) := .ask fun _ => rfl

theorem stays_exhausted : Stays (exhausted : Parse α) := .ask fun _ => rfl

/-- What is done after a look at the next token may depend on where it is done. -/
theorem stays_peek {f : Token → Parse β}
    (h : ∀ ⦃rest es p⦄, Fenced rest es p → Fenced rest es (f p.peek p).2) : Stays (peek >>= f) :=
  fun _ _ _ hp => h hp

/-- Adding a node reads nothing. -/
theorem stays_alloc (c : Construct) (span : Span) : Stays (alloc c span) :=
  fun _ _ _ h => ⟨h.fence, h.tokens, h.errors⟩

theorem stays_spanned (c : Construct) (start : Span) : Stays (do alloc c (← spanFrom start)) :=
  Stays.bind (.ask fun _ => rfl) fun _ => stays_alloc c _

theorem stays_expect {k : TokenKind} (hk : k ≠ .semicolon) : Stays (expect k) := by
  refine stays_peek fun _ _ _ h => ?_
  split
  · rename_i hpeek
    exact h.advance (hpeek ▸ hk)
  · split
    · exact Stays.throw _ h
    · exact Stays.throw _ h

/-- A token that is not there is not read. -/
theorem expect_of_ne {k : TokenKind} (hk : Parser.headKind p.tokens ≠ k) :
    ∃ e, expect k p = (.error e, p) := by
  rw [← Parser.kind_peek] at hk
  rw [expect, bind_of_ok (peek_apply p), if_neg hk]
  split
  · exact ⟨_, rfl⟩
  · exact ⟨_, rfl⟩

theorem stays_ident : Stays ident := by
  refine stays_peek fun _ _ _ h => ?_
  split
  · rename_i hpeek
    exact (h.advance (by simp [hpeek])).bind fun _ => .pure _
  · exact Stays.throw _ h

theorem stays_eat {k : TokenKind} (hk : k ≠ .semicolon) : Stays (eat k) := by
  intro rest es p h
  rw [eat, bind_of_ok (check_apply k p)]
  split
  · rename_i hhead
    refine (h.advance ?_).bind fun _ => .pure true
    rw [Parser.kind_peek, of_decide_eq_true hhead]
    exact hk
  · exact h

end Rules

/-! ## 2. Types and sequences -/

section Sequences

variable {α : Type} {x : Parse α}

theorem stays_separatedTo (h : Stays x) : ∀ turns, Stays (separatedTo x turns)
  | 0 => stays_exhausted
  | turns + 1 => by
    refine h.bind fun a => (stays_eat (by simp)).bind fun b => ?_
    split
    · exact (stays_separatedTo h turns).bind fun more => .pure (a :: more)
    · exact .pure [a]

theorem stays_separated (h : Stays x) : Stays (separated x) :=
  Stays.bind (.ask fun _ => rfl) fun n => stays_separatedTo h n

end Sequences

/-- Brackets that were counted stand in front of the fence. -/
theorem fenced_brackets {rest : List Token} {es : List ParseError} : ∀ {pairs : Nat} {p : Parser},
    pairs ≤ TypeScan.bracketPairs p.tokens → Fenced rest es p → Fenced rest es (brackets pairs p).2
  | 0, _, _, h => h
  | pairs + 1, p, hpairs, h => by
    match hp : p.tokens with
    | [] | [_] =>
      rw [hp] at hpairs
      exact absurd hpairs (Nat.not_succ_le_zero pairs)
    | a :: b :: ts =>
      rw [hp, TypeScan.bracketPairs] at hpairs
      split at hpairs
      · rename_i hab
        have ha : p.peek.kind ≠ .semicolon := by
          rw [Parser.peek_of_eq_cons hp, hab.1]
          simp
        have hb : (p.read [a] (b :: ts)).peek.kind ≠ .semicolon := by
          rw [Parser.peek_of_eq_cons rfl, hab.2]
          simp
        have h₁ := h.advance ha
        rw [advance_of_eq_cons hp] at h₁
        have h₂ := h₁.advance hb
        rw [advance_of_eq_cons rfl] at h₂
        rw [brackets, bind_of_ok (advance_of_eq_cons hp), bind_of_ok (advance_of_eq_cons rfl)]
        exact fenced_brackets (Nat.le_of_succ_le_succ hpairs) h₂
      · exact absurd hpairs (Nat.not_succ_le_zero pairs)

theorem stays_typeWith {x : Parse WrittenType} (h : Stays x) : Stays (typeWith x) := by
  have hrank : ∀ (token : Token) (args : List WrittenType), Stays (do
      let pairs := TypeScan.bracketPairs (← get).tokens
      brackets pairs
      pure (WrittenType.mk token.lexeme args (min pairs maxRank) (← spanFrom token.span))) := by
    intro token args rest es p hp
    rw [bind_of_ok (get_apply p)]
    refine (fenced_brackets (Nat.le_refl _) hp).bind fun _ => ?_
    exact Stays.bind (.ask fun _ => rfl) fun _ => .pure _
  refine stays_peek fun _ _ _ hp => ?_
  dsimp only
  split
  · exact hp
  · rename_i hkind
    refine (hp.advance (by simp_all)).bind fun _ => (stays_eat (by simp)).bind fun b => ?_
    split
    · refine (stays_separated h).bind fun args => (stays_expect (by simp)).bind fun _ => ?_
      exact (Stays.pure args).bind fun args => hrank _ args
    · exact (Stays.pure []).bind fun args => hrank _ args

theorem stays_typeTo : ∀ depth, Stays (typeTo depth)
  | 0 => stays_exhausted
  | depth + 1 => stays_typeWith (stays_typeTo depth)

theorem stays_type : Stays type := Stays.bind (.ask fun _ => rfl) stays_typeTo

/-! ## 3. Expressions -/

section Expressions

variable {rest : List Token} {es : List ParseError} {p : Parser} {f : Nat → Parse NodeId}

theorem stays_argumentsWith (h : ∀ power, Stays (f power)) : Stays (argumentsWith f) := by
  refine (stays_expect (by simp)).bind fun _ => Stays.bind (.ask fun _ => by simp) fun b => ?_
  have hclose : ∀ args : List NodeId, Stays (do let _ ← expect .rightParen; pure args) :=
    fun args => (stays_expect (by simp)).bind fun _ => .pure args
  split
  · exact (Stays.pure []).bind hclose
  · exact (stays_separated (h 0)).bind hclose

theorem stays_castWith (h : ∀ power, Stays (f power)) : Stays (castWith f) := by
  refine (stays_expect (by simp)).bind fun _ => (stays_expect (by simp)).bind fun _ => ?_
  refine stays_type.bind fun target => (stays_expect (by simp)).bind fun _ => ?_
  refine (stays_expect (by simp)).bind fun _ => (h 0).bind fun inner => ?_
  exact (stays_expect (by simp)).bind fun _ => stays_spanned _ _

theorem fenced_spelled (h : Fenced rest es p) (hkind : p.peek.kind ≠ .semicolon) (token : Token) :
    Fenced rest es ((do
      let _ ← advance
      match Literal.ofToken token with
      | .ok value => alloc (.literal value) token.span
      | .error e => throw e : Parse NodeId) p).2 := by
  refine (h.advance hkind).bind fun _ => ?_
  split
  · exact stays_alloc _ _
  · exact .throw _

theorem stays_operandWith (h : ∀ power, Stays (f power)) : Stays (operandWith f) := by
  refine stays_peek fun rest es p hp => ?_
  have hunary : ∀ op : UnaryOp, p.peek.kind ≠ .semicolon → Fenced rest es ((do
      let _ ← advance
      let operand ← f BindingPower.unaryPower
      alloc (.unary op operand) (p.peek.span.merge (← spanOf operand)) : Parse NodeId) p).2 := by
    intro op hkind
    refine (hp.advance hkind).bind fun _ => (h _).bind fun operand => ?_
    exact Stays.bind (.ask fun _ => rfl) fun _ => stays_alloc _ _
  cases hkind : p.peek.kind with
  | intLiteral | longLiteral | floatLiteral | doubleLiteral | stringLiteral =>
    exact fenced_spelled hp (by simp [hkind]) _
  | trueWord | falseWord | nullWord | identifier =>
    exact (hp.advance (by simp [hkind])).bind fun _ => stays_alloc _ _
  | minus => exact hunary .neg (by simp [hkind])
  | bang => exact hunary .not (by simp [hkind])
  | leftParen =>
    refine (hp.advance (by simp [hkind])).bind fun _ => (h 0).bind fun inner => ?_
    exact (stays_expect (by simp)).bind fun _ => stays_spanned _ _
  | newWord =>
    refine (hp.advance (by simp [hkind])).bind fun _ => stays_type.bind fun _ => ?_
    exact (stays_argumentsWith h).bind fun args => stays_spanned _ _
  | castWord => exact stays_castWith h hp
  | _ => exact hp

theorem fenced_memberAfter (h : Fenced rest es p) (hkind : p.peek.kind ≠ .semicolon)
    (object : NodeId) : Fenced rest es (memberAfter object p).2 := by
  refine (h.advance hkind).bind fun _ => stays_ident.bind fun name => ?_
  exact Stays.bind (.ask fun _ => rfl) fun _ => stays_alloc _ _

theorem stays_callAfter (h : ∀ power, Stays (f power)) (callee : NodeId) :
    Stays (callAfter f callee) := by
  refine (stays_argumentsWith h).bind fun args => Stays.bind (.ask fun _ => rfl) fun _ => ?_
  exact stays_spanned _ _

theorem fenced_assignAfter (h : ∀ power, Stays (f power)) (hp : Fenced rest es p)
    (hkind : p.peek.kind ≠ .semicolon) (op : AssignOp) (target : NodeId) :
    Fenced rest es (assignAfter f op target p).2 := by
  have hvalue : Stays (do
      let value ← f BindingPower.assignRight
      alloc (.assign op target value) ((← spanOf target).merge (← spanOf value))) := by
    refine (h _).bind fun value => Stays.bind (.ask fun _ => rfl) fun _ => ?_
    exact Stays.bind (.ask fun _ => rfl) fun _ => stays_alloc _ _
  refine (hp.advance hkind).bind fun token => Stays.bind (.ask fun _ => rfl) fun q => ?_
  dsimp only
  split
  · split
    · exact (Stays.throw _).bind fun _ => hvalue
    · exact hvalue
  · exact hvalue

theorem fenced_binaryAfter (h : ∀ power, Stays (f power)) (hp : Fenced rest es p)
    (hkind : p.peek.kind ≠ .semicolon) (op : BinaryOp) (lhs : NodeId) :
    Fenced rest es (binaryAfter f op lhs p).2 := by
  refine (hp.advance hkind).bind fun _ => (h _).bind fun rhs => Stays.bind (.ask fun _ => rfl) ?_
  exact fun _ => Stays.bind (.ask fun _ => rfl) fun _ => stays_alloc _ _

/-- A semicolon is no operator, so whatever operator comes next is read in front of the fence. -/
theorem fenced_operatorAfter? (h : ∀ power, Stays (f power)) (hp : Fenced rest es p) {power : Nat}
    {lhs : NodeId} {x : Parse NodeId} (hx : operatorAfter? f power p.peek.kind lhs = some x) :
    Fenced rest es (x p).2 := by
  have hkind : p.peek.kind ≠ .semicolon := by
    intro hk
    rw [hk] at hx
    cases hx
  unfold operatorAfter? at hx
  split at hx
  · obtain ⟨-, hx⟩ := Option.ite_none_left_eq_some.mp hx
    cases hx
    exact fenced_memberAfter hp hkind lhs
  split at hx
  · obtain ⟨-, hx⟩ := Option.ite_none_left_eq_some.mp hx
    cases hx
    exact stays_callAfter h lhs hp
  split at hx
  · obtain ⟨-, hx⟩ := Option.ite_none_left_eq_some.mp hx
    cases hx
    exact fenced_assignAfter h hp hkind _ lhs
  split at hx
  · obtain ⟨-, hx⟩ := Option.ite_none_left_eq_some.mp hx
    cases hx
    exact fenced_binaryAfter h hp hkind _ lhs
  · cases hx

theorem stays_operatorsTo (h : ∀ power, Stays (f power)) (power : Nat) :
    ∀ turns lhs, Stays (operatorsTo f power turns lhs)
  | 0, _ => stays_exhausted
  | turns + 1, lhs => by
    refine stays_peek fun _ _ p hp => ?_
    cases hx : operatorAfter? f power p.peek.kind lhs with
    | none => exact hp
    | some x => exact (fenced_operatorAfter? h hp hx).bind fun lhs => stays_operatorsTo h power turns lhs

end Expressions

theorem stays_exprTo : ∀ depth power, Stays (exprTo depth power)
  | 0, _ => stays_exhausted
  | depth + 1, power =>
    (stays_operandWith (stays_exprTo depth)).bind fun lhs => Stays.bind (.ask fun _ => rfl) fun n =>
      stays_operatorsTo (stays_exprTo depth) power n lhs

/-- **An expression never reads a semicolon.** -/
theorem stays_expr (power : Nat) : Stays (expr power) :=
  Stays.bind (.ask fun _ => rfl) fun n => stays_exprTo n power

/-! ## 4. Statements -/

section Statements

variable {α : Type} {rest : List Token} {es : List ParseError} {p : Parser} {x : Parse NodeId}

/-- At the parser `p` the activity fails in front of the semicolon, or it succeeds and has read the
semicolon. -/
def EndsAt (rest : List Token) (es : List ParseError) (p : Parser) (x : Parse NodeId) : Prop :=
  match x p with
  | (.error _, q) => Fenced rest es q
  | (.ok _, q) => q.tokens = rest.tail ∧ q.errors = es

/-- From every fenced parser the activity fails in front of the semicolon or reads up to it. -/
def Ends (x : Parse NodeId) : Prop :=
  ∀ ⦃rest : List Token⦄ ⦃es : List ParseError⦄ ⦃p : Parser⦄, Fenced rest es p → EndsAt rest es p x

theorem EndsAt.bind {y : Parse α} {f : α → Parse NodeId} (h : Fenced rest es (y p).2)
    (hf : ∀ a, Ends (f a)) : EndsAt rest es p (y >>= f) := by
  unfold EndsAt
  rw [bind_apply]
  rcases hy : y p with ⟨e | a, q⟩ <;> rw [hy] at h
  · exact h
  · exact hf a h

theorem Stays.bind_ends {y : Parse α} {f : α → Parse NodeId} (hy : Stays y)
    (hf : ∀ a, Ends (f a)) : Ends (y >>= f) :=
  fun _ _ _ h => .bind (hy h) hf

/-- **The semicolon at the end is the fence.** -/
theorem ends_semicolon (c : Construct) (start : Span) : Ends (do
    let _ ← expect .semicolon
    alloc c (← spanFrom start)) := by
  intro rest es p h
  unfold EndsAt
  obtain ⟨us, hus, hinner⟩ := h.tokens
  cases us with
  | nil =>
    obtain ⟨a, after, hrest⟩ : ∃ a after, rest = a :: after := by
      cases hr : rest with
      | nil =>
        have := h.fence
        rw [hr] at this
        cases this
      | cons a after => exact ⟨a, after, rfl⟩
    have ha : a.kind = .semicolon := by
      have := h.fence
      rwa [hrest] at this
    rw [List.nil_append, hrest] at hus
    rw [bind_of_ok (expect_of_eq_cons hus ha), bind_of_ok (spanFrom_apply _ _), alloc_apply, hrest]
    exact ⟨rfl, h.errors⟩
  | cons a us =>
    have ha : a.kind ≠ .semicolon := by
      intro hk
      have := hinner a (by simp)
      rw [hk] at this
      cases this
    obtain ⟨e, he⟩ := expect_of_ne (show Parser.headKind p.tokens ≠ .semicolon by rwa [hus])
    rw [bind_apply, he]
    exact h

/-- Where a brace would have to open, there is none before the fence. -/
theorem ends_leftBrace (f : Token → Parse NodeId) : Ends (expect .leftBrace >>= f) := by
  intro rest es p h
  have hne : Parser.headKind p.tokens ≠ .leftBrace := by
    intro hk
    rcases h.headKind with h | h <;> rw [hk] at h <;> cases h
  obtain ⟨e, he⟩ := expect_of_ne hne
  unfold EndsAt
  rw [bind_apply, he]
  exact h

theorem ends_exprStmt : Ends exprStmt :=
  Stays.bind_ends (.ask fun _ => rfl) fun _ => (stays_expr 0).bind_ends fun _ => ends_semicolon _ _

theorem stays_initializer : Stays initializer := by
  refine (stays_eat (by simp)).bind fun b => ?_
  split
  · exact (stays_expr 0).bind fun e => .pure (some e)
  · exact .pure none

theorem stays_declarator : Stays declarator :=
  stays_ident.bind fun _ => stays_initializer.bind fun _ => .pure _

theorem ends_localDecl : Ends localDecl :=
  stays_type.bind_ends fun _ => (stays_separated stays_declarator).bind_ends fun _ =>
    ends_semicolon _ _

theorem ends_returnStmt : Ends returnStmt := by
  refine (stays_expect (by simp)).bind_ends fun token => Stays.bind_ends (.ask fun _ => by simp) ?_
  intro b
  split
  · exact (Stays.pure none).bind_ends fun value => ends_semicolon _ _
  · exact (stays_expr 0).bind_ends fun e => (Stays.pure (some e)).bind_ends fun value =>
      ends_semicolon _ _

theorem ends_yieldStmt : Ends yieldStmt :=
  (stays_expect (by simp)).bind_ends fun _ => (stays_expect (by simp)).bind_ends fun _ =>
    (stays_expr 0).bind_ends fun _ => ends_semicolon _ _

theorem endsAt_jumpStmt (h : Fenced rest es p) (hk : p.peek.kind ≠ .semicolon) (c : Construct) :
    EndsAt rest es p (jumpStmt c) :=
  .bind (h.advance hk) fun _ => ends_semicolon _ _

theorem ends_function : Ends function := by
  refine stays_type.bind_ends fun returnType => stays_ident.bind_ends fun name => ?_
  refine (stays_expect (by simp)).bind_ends fun _ => Stays.bind_ends (.ask fun _ => by simp) ?_
  intro b
  have hbody : ∀ params : List Param, Ends (do
      let _ ← expect .rightParen
      let body ← block
      alloc (.function returnType name params body) (← spanFrom returnType.span)) := by
    intro params
    refine (stays_expect (by simp)).bind_ends fun _ => ?_
    rw [block, blockWith, bind_assoc]
    exact ends_leftBrace _
  split
  · exact (Stays.pure []).bind_ends hbody
  · refine (stays_separated ?_).bind_ends hbody
    exact stays_type.bind fun _ => stays_ident.bind fun _ => .pure _

theorem ends_classDecl : Ends classDecl :=
  (stays_expect (by simp)).bind_ends fun _ => stays_ident.bind_ends fun _ => ends_leftBrace _

/-- **A statement that is no condition and no loop ends with its semicolon.** -/
theorem endsAt_statementWith (h : Fenced rest es p) (hk : p.peek.kind ≠ .semicolon)
    (hif : p.peek.kind ≠ .ifWord) (hwhile : p.peek.kind ≠ .whileWord)
    (hdo : p.peek.kind ≠ .doWord) : EndsAt rest es p (statementWith x) := by
  have hother : EndsAt rest es p (do if ← isVarDecl then localDecl else exprStmt) := by
    refine Stays.bind_ends (.ask fun _ => rfl) (fun b => ?_) h
    split
    · exact ends_localDecl
    · exact ends_exprStmt
  unfold EndsAt
  rw [statementWith, bind_of_ok (peek_apply p)]
  cases hkind : p.peek.kind with
  | leftBrace => exact ends_leftBrace _ h
  | ifWord => exact absurd hkind hif
  | whileWord => exact absurd hkind hwhile
  | doWord => exact absurd hkind hdo
  | returnWord => exact ends_returnStmt h
  | yieldWord => exact ends_yieldStmt h
  | breakWord | continueWord => exact endsAt_jumpStmt h hk _
  | semicolon => exact absurd hkind hk
  | _ => exact hother

/-- **An item that is no condition and no loop fails in front of its semicolon or ends with it.** -/
theorem endsAt_item (h : Fenced rest es p) (hk : p.peek.kind ≠ .semicolon)
    (hif : p.peek.kind ≠ .ifWord) (hwhile : p.peek.kind ≠ .whileWord)
    (hdo : p.peek.kind ≠ .doWord) : EndsAt rest es p item := by
  unfold EndsAt
  rw [item, bind_of_ok (check_apply _ p)]
  cases decide (Parser.headKind p.tokens = .classWord) with
  | true => exact ends_classDecl h
  | false =>
    rw [if_neg Bool.false_ne_true, bind_of_ok (isFunctionDecl_apply p)]
    cases TypeScan.isFunctionDecl p.tokens with
    | true => exact ends_function h
    | false =>
      rw [if_neg Bool.false_ne_true, statement_apply]
      exact endsAt_statementWith h hk hif hwhile hdo

end Statements

end Parse

end Recast
