/-
# What a parsing activity builds

Every parsing activity works on a stack of finished trees: it takes some of them off the top, and
what it returns names the trees that it leaves there.  Everything below stays as it was, whether the
activity succeeds or fails.

* `Advances n p q`: the parser `q` comes after `p` and has left the links of the first `n` nodes alone;
* `Builds x taken left`: from the trees `taken`, the activity `x` builds the trees `left a` if it
  returns `a`;
* `builds_expr`, `builds_statement`, `builds_item`: the activities of the parser build one tree
  each;
* `parseLenient_grown`: the tree of a whole text is one tree in this sense.
-/
import Recast.Proofs.Parser.Run
import Recast.Proofs.Tree.Forest

namespace Recast

open SyntaxTree

/-! ## 1. Progress of a parser -/

/-- The parser `q` comes after `p`: tokens were read, nodes and errors added, and the links of the
first `n` nodes are the same. -/
structure Advances (n : Nat) (p q : Parser) : Prop where
  tree : Extends p.tree q.tree
  parents : ∀ i < n, q.tree.parent? i = p.tree.parent? i
  links : p.tree.Linked → q.tree.Linked
  slots : p.tree.Slotted → q.tree.Slotted
  tokens : q.tokens <:+ p.tokens
  errors : p.errors <+: q.errors
  endSpan : q.endSpan = p.endSpan
  textSize : q.textSize = p.textSize

namespace Advances

variable {m n : Nat} {p q r : Parser}

theorem refl (n : Nat) (p : Parser) : Advances n p p :=
  ⟨.refl _, fun _ _ => rfl, id, id, List.suffix_refl _, List.prefix_refl _, rfl, rfl⟩

/-- Progress adds up. -/
theorem trans (h : Advances n p q) (h' : Advances n q r) : Advances n p r where
  tree := h.tree.trans h'.tree
  parents i hi := (h'.parents i hi).trans (h.parents i hi)
  links hl := h'.links (h.links hl)
  slots hs := h'.slots (h.slots hs)
  tokens := h'.tokens.trans h.tokens
  errors := h.errors.trans h'.errors
  endSpan := h'.endSpan.trans h.endSpan
  textSize := h'.textSize.trans h.textSize

/-- Who has left the links of more nodes alone has left those of fewer. -/
theorem weaken (h : Advances n p q) (hm : m ≤ n) : Advances m p q :=
  { h with parents := fun i hi => h.parents i (Nat.lt_of_lt_of_le hi hm) }

/-- Reading tokens is progress. -/
theorem read {ts rest : List Token} (h : rest <:+ p.tokens) : Advances n p (p.read ts rest) :=
  ⟨.refl _, fun _ _ => rfl, id, id, h, List.prefix_refl _, rfl, rfl⟩

end Advances

/-! ## 2. The stack of finished trees -/

/-- The nodes `ids` are the roots of finished trees from the node `n` on, none of them in use. -/
def Pending (n : Nat) (ids : List NodeId) (t : SyntaxTree) : Prop :=
  Grown t n t.size ids ∧ ∀ r ∈ ids, t.parent? r = none

/-- No tree is finished yet, wherever the stack starts. -/
theorem pending_nil {n : Nat} {t : SyntaxTree} (h : n ≤ t.size) : Pending n [] t :=
  ⟨.nil h, by simp⟩

/-- From the trees `taken`, the activity `x` builds the trees `left a` if it returns `a`. -/
def Builds {α : Type} (x : Parse α) (taken : List NodeId) (left : α → List NodeId) : Prop :=
  ∀ (n : Nat) (p : Parser), Pending n taken p.tree →
    Advances n p (x p).2 ∧ ∀ a, (x p).1 = .ok a → Pending n (left a) (x p).2.tree

/-- The activity reads tokens or asks questions and leaves the tree alone. -/
def Quiet {α : Type} (x : Parse α) : Prop :=
  ∀ (n : Nat) (p : Parser), Advances n p (x p).2 ∧ (x p).2.tree = p.tree

namespace Builds

variable {α β : Type} {x : Parse α} {taken : List NodeId} {left : α → List NodeId}

/-- One activity after another: the second takes what the first has left.  If the first fails, so does
the whole, and nothing more is done. -/
theorem bind {f : α → Parse β} {left' : β → List NodeId} (hx : Builds x taken left)
    (hf : ∀ a, Builds (f a) (left a) left') : Builds (x >>= f) taken left' := by
  intro n p hp
  obtain ⟨hadv, hok⟩ := hx n p hp
  rw [bind_apply]
  rcases hxp : x p with ⟨e | a, q⟩
  · rw [hxp] at hadv
    exact ⟨hadv, fun b hb => by cases hb⟩
  · rw [hxp] at hadv hok
    obtain ⟨hadv', hok'⟩ := hf a n q (hok a rfl)
    exact ⟨hadv.trans hadv', hok'⟩

/-- **Trees further down in the stack stay where they are.** -/
theorem frame (hx : Builds x taken left) (below : List NodeId) :
    Builds x (below ++ taken) fun a => below ++ left a := by
  rintro n p ⟨hg, hr⟩
  obtain ⟨m, hbelow, htaken⟩ := hg.split
  obtain ⟨hadv, hok⟩ := hx m p ⟨htaken, fun r h => hr r (List.mem_append_right _ h)⟩
  refine ⟨hadv.weaken hbelow.le, fun a ha => ?_⟩
  obtain ⟨hleft, hr'⟩ := hok a ha
  constructor
  · refine (hbelow.mono hadv.tree fun i hi q hq => ?_).append hleft
    rw [hadv.parents i hi, hq]
  · intro r h
    rcases List.mem_append.mp h with h | h
    · rw [hadv.parents r (hbelow.root_mem r h).2]
      exact hr r (List.mem_append_left _ h)
    · exact hr' r h

/-- A value that is returned names the trees that are there. -/
theorem pure (a : α) (left : α → List NodeId) : Builds (Pure.pure a) (left a) left := by
  intro n p hp
  refine ⟨.refl n p, fun b hb => ?_⟩
  cases hb
  exact hp

/-- A failure builds nothing. -/
theorem throw (e : ParseError) (taken : List NodeId) (left : α → List NodeId) :
    Builds (MonadExcept.throw e) taken left := by
  intro n p _
  exact ⟨.refl n p, fun b hb => by cases hb⟩

/-- Nothing is built where a recursion is cut off. -/
theorem exhausted (taken : List NodeId) (left : α → List NodeId) :
    Builds Parse.exhausted taken left := by
  intro n p _
  exact ⟨.refl n p, fun b hb => by cases hb⟩

/-- **Adding a node makes one tree of the trees of its parts.** -/
theorem alloc (c : Construct) (span : Span) : Builds (Parse.alloc c span) c.children ([·]) := by
  rintro n p ⟨hg, hr⟩
  have hext := Extends.alloc p.tree c span
  have hslots (hs : p.tree.Slotted) : (p.tree.alloc c span).2.Slotted :=
    hs.alloc (fun k hk => (hg.root_mem k hk).2) hr hg.nodup span
  refine ⟨⟨hext, fun i hi => ?_, fun hl => hl.alloc c span, hslots, List.suffix_refl _,
    List.prefix_refl _, rfl, rfl⟩, ?_⟩
  · have hni : i ∉ c.children := fun h => Nat.not_lt.mpr (hg.root_mem i h).1 hi
    exact (parent?_alloc _ _ _ _).trans (if_neg fun h => hni h.1)
  · intro id hid
    cases hid
    constructor
    · simpa using hg.alloc hr span
    · intro r h
      rw [List.mem_singleton.mp h]
      have hns : ¬ (p.tree.size ∈ c.children ∧ p.tree.size < p.tree.size) := by omega
      exact ((parent?_alloc _ _ _ _).trans (if_neg hns)).trans (parent?_of_size_le (Nat.le_refl _))

/-- After a failure no tree is left. -/
theorem attempt (hx : Builds x taken left) :
    Builds (Parse.attempt x) taken fun r => match r with
      | .ok a => left a
      | .error _ => [] := by
  intro n p hp
  obtain ⟨hadv, hok⟩ := hx n p hp
  refine ⟨hadv, fun r hr => ?_⟩
  cases hr
  change Pending n (match (x p).1 with | .ok a => left a | .error _ => []) (x p).2.tree
  rcases hxp : (x p).1 with e | a
  · exact pending_nil (Nat.le_trans hp.1.le hadv.tree.size_le)
  · exact hok a hxp

end Builds

namespace Quiet

variable {α β : Type} {x : Parse α}

/-- What leaves the tree alone leaves all finished trees where they are. -/
theorem builds (hx : Quiet x) (ids : List NodeId) : Builds x ids fun _ => ids := by
  intro n p hp
  refine ⟨(hx n p).1, fun a _ => ?_⟩
  rw [(hx n p).2]
  exact hp

/-- What leaves the tree alone can be done before anything is built. -/
theorem bind_builds {f : α → Parse β} {taken : List NodeId} {left : β → List NodeId}
    (hx : Quiet x) (hf : ∀ a, Builds (f a) taken left) : Builds (x >>= f) taken left :=
  (hx.builds taken).bind hf

theorem bind {f : α → Parse β} (hx : Quiet x) (hf : ∀ a, Quiet (f a)) : Quiet (x >>= f) := by
  intro n p
  obtain ⟨hadv, htree⟩ := hx n p
  rw [bind_apply]
  rcases hxp : x p with ⟨e | a, q⟩
  · rw [hxp] at hadv htree
    exact ⟨hadv, htree⟩
  · rw [hxp] at hadv htree
    obtain ⟨hadv', htree'⟩ := hf a n q
    exact ⟨hadv.trans hadv', htree'.trans htree⟩

theorem pure (a : α) : Quiet (Pure.pure a : Parse α) :=
  fun n p => ⟨.refl n p, rfl⟩

theorem throw (e : ParseError) : Quiet (MonadExcept.throw e : Parse α) :=
  fun n p => ⟨.refl n p, rfl⟩

end Quiet

namespace Parse

/-! ## 3. Questions and single tokens -/

theorem quiet_get : Quiet (get : Parse Parser) := fun n p => ⟨.refl n p, rfl⟩

theorem quiet_peek : Quiet peek := fun n p => ⟨.refl n p, rfl⟩

theorem quiet_check (k : TokenKind) : Quiet (check k) := fun n p => ⟨.refl n p, rfl⟩

theorem quiet_atEnd : Quiet atEnd := fun n p => ⟨.refl n p, rfl⟩

theorem quiet_limit : Quiet limit := fun n p => ⟨.refl n p, rfl⟩

theorem quiet_spanFrom (s : Span) : Quiet (spanFrom s) := fun n p => ⟨.refl n p, rfl⟩

theorem quiet_spanOf (id : NodeId) : Quiet (spanOf id) := fun n p => ⟨.refl n p, rfl⟩

theorem quiet_isVarDecl : Quiet isVarDecl := fun n p => ⟨.refl n p, rfl⟩

theorem quiet_isFunctionDecl : Quiet isFunctionDecl := fun n p => ⟨.refl n p, rfl⟩

theorem quiet_exhausted {α : Type} : Quiet (exhausted : Parse α) :=
  fun n p => ⟨.refl n p, rfl⟩

/-- The next token is read, if there is one. -/
theorem quiet_advance : Quiet advance := by
  intro n p
  cases hp : p.tokens with
  | nil =>
    rw [advance_of_eq_nil hp]
    exact ⟨.refl n p, rfl⟩
  | cons t ts =>
    rw [advance_of_eq_cons hp]
    exact ⟨.read (by rw [hp]; exact List.suffix_cons t ts), rfl⟩

theorem quiet_eat (k : TokenKind) : Quiet (eat k) := by
  refine (quiet_check k).bind fun b => ?_
  cases b with
  | false => exact .pure false
  | true => exact quiet_advance.bind fun _ => .pure true

/-- A missing token is reported, whether or not it is the end of the text that stands there. -/
theorem quiet_expect (k : TokenKind) : Quiet (expect k) := by
  refine quiet_peek.bind fun t => ?_
  split
  · exact quiet_advance
  · split
    · exact .throw _
    · exact .throw _

theorem quiet_ident : Quiet ident := by
  refine quiet_peek.bind fun t => ?_
  split
  · exact quiet_advance.bind fun _ => .pure _
  · exact .throw _

/-! ## 4. Sequences -/

section Separated

variable {α : Type} {item : Parse α} {left : α → List NodeId}

/-- Items between commas leave the trees of all of them, one after another on the stack. -/
theorem builds_separatedTo (h : Builds item [] left) :
    ∀ turns, Builds (separatedTo item turns) [] fun as => as.flatMap left
  | 0 => .exhausted [] _
  | turns + 1 => by
    refine h.bind fun a => (quiet_eat .comma).bind_builds fun b => ?_
    cases b with
    | false => simpa using Builds.pure [a] (·.flatMap left)
    | true =>
      have hmore := (builds_separatedTo h turns).frame (left a)
      rw [List.append_nil] at hmore
      refine hmore.bind fun more => ?_
      simpa using Builds.pure (a :: more) (·.flatMap left)

theorem builds_separated (h : Builds item [] left) :
    Builds (separated item) [] fun as => as.flatMap left :=
  quiet_limit.bind_builds fun n => builds_separatedTo h n

theorem quiet_separatedTo (h : Quiet item) : ∀ turns, Quiet (separatedTo item turns)
  | 0 => quiet_exhausted
  | turns + 1 => by
    refine h.bind fun a => (quiet_eat .comma).bind fun b => ?_
    cases b with
    | false => exact .pure [a]
    | true => exact (quiet_separatedTo h turns).bind fun more => .pure (a :: more)

theorem quiet_separated (h : Quiet item) : Quiet (separated item) :=
  quiet_limit.bind fun n => quiet_separatedTo h n

end Separated

theorem quiet_record (e : ParseError) : Quiet (record e) := by
  refine fun n p => ⟨?_, rfl⟩
  exact ⟨.refl _, fun _ _ => rfl, id, id, List.suffix_refl _, List.prefix_append _ _, rfl, rfl⟩

/-- Skipping to the end of a statement leaves an end of the tokens. -/
theorem skipStatement_suffix : ∀ (ts : List Token) (last : Span), (skipStatement ts last).1 <:+ ts
  | [], _ => List.suffix_refl _
  | t :: ts, last => by
    unfold skipStatement
    split
    · exact List.suffix_cons t ts
    · split
      · exact List.suffix_refl _
      · exact (skipStatement_suffix ts t.span).trans (List.suffix_cons t ts)

/-- A parser that goes on after an error only skips tokens. -/
theorem quiet_synchronize (before : Nat) : Quiet (synchronize before) := by
  have hskip : Quiet (modify fun p =>
      { p with
        tokens := (skipStatement p.tokens p.lastSpan).1
        lastSpan := (skipStatement p.tokens p.lastSpan).2 }) := by
    refine fun n p => ⟨?_, rfl⟩
    exact ⟨.refl _, fun _ _ => rfl, id, id, skipStatement_suffix _ _, List.prefix_refl _, rfl, rfl⟩
  refine quiet_get.bind fun p => ?_
  split
  · exact quiet_advance.bind fun _ => hskip
  · exact hskip

/-- One turn of a list of items, if the turns after it build theirs. -/
theorem builds_turn {item : Parse NodeId} (h : Builds item [] ([·])) {braced : Bool} {turns : Nat}
    (hmore : Builds (itemsTo braced item turns) [] fun ids => ids) (closed : Bool) : Builds (do
      if closed || (← atEnd) then pure []
      else
        let before := (← get).tokens.length
        match ← attempt item with
        | .ok id =>
          let more ← itemsTo braced item turns
          pure (id :: more)
        | .error e =>
          record e
          synchronize before
          itemsTo braced item turns) [] fun ids => ids := by
  refine quiet_atEnd.bind_builds fun ended => ?_
  split
  · exact .pure [] fun ids => ids
  · refine quiet_get.bind_builds fun p => h.attempt.bind fun r => ?_
    cases r with
    | ok id => exact (hmore.frame [id]).bind fun more => .pure (id :: more) fun ids => ids
    | error e =>
      refine (quiet_record e).bind_builds fun _ => ?_
      exact (quiet_synchronize _).bind_builds fun _ => hmore

/-- A sequence of items leaves the trees of those that succeed. -/
theorem builds_itemsTo {item : Parse NodeId} (h : Builds item [] ([·])) (braced : Bool) :
    ∀ turns, Builds (itemsTo braced item turns) [] fun ids => ids
  | 0 => .pure [] fun ids => ids
  | turns + 1 => by
    have hturn := builds_turn h (builds_itemsTo h braced turns)
    cases braced with
    | false => exact (Quiet.pure false).bind_builds hturn
    | true => exact (quiet_check _).bind_builds hturn

theorem builds_itemsUntilBrace {item : Parse NodeId} (h : Builds item [] ([·])) :
    Builds (itemsUntilBrace item) [] fun ids => ids :=
  quiet_limit.bind_builds fun n => builds_itemsTo h true n

theorem builds_itemsUntilEnd {item : Parse NodeId} (h : Builds item [] ([·])) :
    Builds (itemsUntilEnd item) [] fun ids => ids :=
  quiet_limit.bind_builds fun n => builds_itemsTo h false n

/-! ## 5. Types -/

theorem quiet_brackets : ∀ pairs, Quiet (brackets pairs)
  | 0 => .pure ()
  | pairs + 1 => quiet_advance.bind fun _ => quiet_advance.bind fun _ => quiet_brackets pairs

/-- A type is no node: what is read for it is kept in the construct that it stands in. -/
theorem quiet_typeWith {argument : Parse WrittenType} (h : Quiet argument) :
    Quiet (typeWith argument) := by
  have hrank : ∀ (token : Token) (args : List WrittenType), Quiet (do
      let pairs := TypeScan.bracketPairs (← get).tokens
      brackets pairs
      pure (WrittenType.mk token.lexeme args (min pairs maxRank) (← spanFrom token.span))) :=
    fun token args => quiet_get.bind fun p => (quiet_brackets _).bind fun _ =>
      (quiet_spanFrom _).bind fun _ => .pure _
  refine quiet_peek.bind fun t => ?_
  dsimp only
  split
  · exact Quiet.bind (.throw _) fun _ => quiet_advance.bind fun _ => (quiet_eat _).bind fun b => by
      split
      · exact (quiet_separated h).bind fun args => (quiet_expect _).bind fun _ =>
          Quiet.bind (.pure _) fun args => hrank t args
      · exact Quiet.bind (.pure _) fun args => hrank t args
  · refine quiet_advance.bind fun _ => (quiet_eat _).bind fun b => ?_
    split
    · exact (quiet_separated h).bind fun args => (quiet_expect _).bind fun _ =>
        Quiet.bind (.pure _) fun args => hrank t args
    · exact Quiet.bind (.pure _) fun args => hrank t args

theorem quiet_typeTo : ∀ depth, Quiet (typeTo depth)
  | 0 => quiet_exhausted
  | depth + 1 => quiet_typeWith (quiet_typeTo depth)

theorem quiet_type : Quiet type := quiet_limit.bind fun n => quiet_typeTo n

/-! ## 6. Expressions -/

section Expressions

variable {expr : Nat → Parse NodeId}

/-- The arguments of a call, which may be none. -/
theorem builds_argumentsWith (h : ∀ power, Builds (expr power) [] ([·])) :
    Builds (argumentsWith expr) [] fun ids => ids := by
  refine (quiet_expect _).bind_builds fun _ => (quiet_check _).bind_builds fun b => ?_
  have hclose : ∀ args : List NodeId,
      Builds (do let _ ← expect .rightParen; pure args) args fun ids => ids :=
    fun args => (quiet_expect _).bind_builds fun _ => .pure args fun ids => ids
  split
  · exact (Builds.pure [] fun ids => ids).bind hclose
  · have hsep := builds_separated (h 0)
    simp only [List.flatMap_singleton'] at hsep
    exact hsep.bind hclose

theorem builds_castWith (h : ∀ power, Builds (expr power) [] ([·])) :
    Builds (castWith expr) [] ([·]) := by
  refine (quiet_expect _).bind_builds fun _ => (quiet_expect _).bind_builds fun _ => ?_
  refine quiet_type.bind_builds fun target => (quiet_expect _).bind_builds fun _ => ?_
  refine (quiet_expect _).bind_builds fun _ => (h 0).bind fun inner => ?_
  refine (quiet_expect _).bind_builds fun _ => (quiet_spanFrom _).bind_builds fun _ => ?_
  exact .alloc (.cast target inner) _

/-- A literal with a spelling of its own. -/
theorem builds_spelled (token : Token) : Builds (do
    let _ ← advance
    match Literal.ofToken token with
    | .ok value => alloc (.literal value) token.span
    | .error e => throw e) [] ([·]) := by
  refine quiet_advance.bind_builds fun _ => ?_
  split
  · exact .alloc (.literal _) _
  · exact .throw _ _ _

/-- An operand is one tree.  A leaf takes nothing from the stack, and an operator in front takes its
operand. -/
theorem builds_operandWith (h : ∀ power, Builds (expr power) [] ([·])) :
    Builds (operandWith expr) [] ([·]) := by
  have hleaf : ∀ (c : Construct) (s : Span), c.children = [] →
      Builds (do let _ ← advance; alloc c s) [] ([·]) := by
    intro c s hc
    have halloc := Builds.alloc c s
    rw [hc] at halloc
    exact quiet_advance.bind_builds fun _ => halloc
  have hunary : ∀ (op : UnaryOp) (token : Token), Builds (do
      let _ ← advance
      let operand ← expr BindingPower.unaryPower
      alloc (.unary op operand) (token.span.merge (← spanOf operand))) [] ([·]) := by
    intro op token
    refine quiet_advance.bind_builds fun _ => (h _).bind fun operand => ?_
    exact (quiet_spanOf _).bind_builds fun _ => .alloc (.unary op operand) _
  refine quiet_peek.bind_builds fun token => ?_
  split
  iterate 5 exact builds_spelled token
  iterate 3 exact hleaf _ _ rfl
  · exact hunary .neg token
  · exact hunary .not token
  · refine quiet_advance.bind_builds fun _ => (h 0).bind fun inner => ?_
    refine (quiet_expect _).bind_builds fun _ => (quiet_spanFrom _).bind_builds fun _ => ?_
    exact .alloc (.paren inner) _
  · refine quiet_advance.bind_builds fun _ => quiet_type.bind_builds fun target => ?_
    refine (builds_argumentsWith h).bind fun args => (quiet_spanFrom _).bind_builds fun _ => ?_
    exact .alloc (.newObject target args) _
  · exact builds_castWith h
  · exact hleaf _ _ rfl
  · exact .throw _ _ _
  · exact .throw _ _ _

theorem builds_memberAfter (object : NodeId) : Builds (memberAfter object) [object] ([·]) := by
  refine quiet_advance.bind_builds fun _ => quiet_ident.bind_builds fun name => ?_
  exact (quiet_spanOf _).bind_builds fun _ => .alloc (.member object name) _

theorem builds_callAfter (h : ∀ power, Builds (expr power) [] ([·])) (callee : NodeId) :
    Builds (callAfter expr callee) [callee] ([·]) := by
  refine ((builds_argumentsWith h).frame [callee]).bind fun args => ?_
  refine (quiet_spanOf _).bind_builds fun _ => (quiet_spanFrom _).bind_builds fun _ => ?_
  exact .alloc (.call callee args) _

/-- An assignment takes its target from the stack.  If that cannot be assigned to, the value is not read. -/
theorem builds_assignAfter (h : ∀ power, Builds (expr power) [] ([·])) (op : AssignOp)
    (target : NodeId) : Builds (assignAfter expr op target) [target] ([·]) := by
  have hvalue : Builds (do
      let value ← expr BindingPower.assignRight
      alloc (.assign op target value) ((← spanOf target).merge (← spanOf value))) [target] ([·]) := by
    refine ((h _).frame [target]).bind fun value => ?_
    refine (quiet_spanOf _).bind_builds fun _ => (quiet_spanOf _).bind_builds fun _ => ?_
    exact .alloc (.assign op target value) _
  refine quiet_advance.bind_builds fun token => quiet_get.bind_builds fun p => ?_
  dsimp only
  split
  · split
    · exact (Quiet.throw _).bind_builds fun _ => hvalue
    · exact hvalue
  · exact hvalue

theorem builds_binaryAfter (h : ∀ power, Builds (expr power) [] ([·])) (op : BinaryOp)
    (lhs : NodeId) : Builds (binaryAfter expr op lhs) [lhs] ([·]) := by
  refine quiet_advance.bind_builds fun _ => ((h _).frame [lhs]).bind fun rhs => ?_
  refine (quiet_spanOf _).bind_builds fun _ => (quiet_spanOf _).bind_builds fun _ => ?_
  exact .alloc (.binary op lhs rhs) _

/-- Whatever operator follows, it takes the operand before it. -/
theorem builds_of_operatorAfter? (h : ∀ power, Builds (expr power) [] ([·])) {power : Nat}
    {kind : TokenKind} {lhs : NodeId} {x : Parse NodeId}
    (hx : operatorAfter? expr power kind lhs = some x) : Builds x [lhs] ([·]) := by
  unfold operatorAfter? at hx
  split at hx
  · split at hx
    · cases hx
    · cases hx
      exact builds_memberAfter lhs
  · split at hx
    · split at hx
      · cases hx
      · cases hx
        exact builds_callAfter h lhs
    · split at hx
      · split at hx
        · cases hx
        · cases hx
          exact builds_assignAfter h _ lhs
      · split at hx
        · split at hx
          · cases hx
          · cases hx
            exact builds_binaryAfter h _ lhs
        · cases hx

/-- Each operator makes one tree of the operand on top of the stack, so one is left in the end. -/
theorem builds_operatorsTo (h : ∀ power, Builds (expr power) [] ([·])) (power : Nat) :
    ∀ turns lhs, Builds (operatorsTo expr power turns lhs) [lhs] ([·])
  | 0, _ => .exhausted _ _
  | turns + 1, lhs => by
    refine quiet_peek.bind_builds fun token => ?_
    split
    · exact .pure lhs ([·])
    · rename_i x hx
      exact (builds_of_operatorAfter? h hx).bind fun lhs => builds_operatorsTo h power turns lhs

end Expressions

theorem builds_exprTo : ∀ depth power, Builds (exprTo depth power) [] ([·])
  | 0, _ => .exhausted _ _
  | depth + 1, power =>
    (builds_operandWith (builds_exprTo depth)).bind fun lhs =>
      quiet_limit.bind_builds fun n => builds_operatorsTo (builds_exprTo depth) power n lhs

theorem builds_expr (power : Nat) : Builds (expr power) [] ([·]) :=
  quiet_limit.bind_builds fun n => builds_exprTo n power

/-! ## 7. Statements -/

theorem builds_exprStmt : Builds exprStmt [] ([·]) := by
  refine quiet_peek.bind_builds fun _ => (builds_expr 0).bind fun e => ?_
  refine (quiet_expect _).bind_builds fun _ => (quiet_spanFrom _).bind_builds fun _ => ?_
  exact .alloc (.exprStmt e) _

/-- An initializer is one tree or none. -/
theorem builds_initializer : Builds initializer [] Option.toList := by
  refine (quiet_eat _).bind_builds fun b => ?_
  split
  · exact (builds_expr 0).bind fun e => .pure (some e) Option.toList
  · exact .pure none Option.toList

theorem builds_declarator : Builds declarator [] fun var => var.init.toList :=
  quiet_ident.bind_builds fun name => builds_initializer.bind fun init =>
    .pure (Declarator.mk name init) fun var => var.init.toList

/-- The trees of a declaration are the initializers of those of its variables that have one. -/
theorem flatMap_init_eq_filterMap (vars : List Declarator) :
    vars.flatMap (fun var => var.init.toList) = vars.filterMap Declarator.init := by
  induction vars with
  | nil => rfl
  | cons var vars ih =>
    rw [List.flatMap_cons, ih]
    cases h : var.init <;> simp [h]

theorem builds_localDecl : Builds localDecl [] ([·]) := by
  have hvars := builds_separated builds_declarator
  simp only [flatMap_init_eq_filterMap] at hvars
  refine quiet_type.bind_builds fun declared => hvars.bind fun vars => ?_
  refine (quiet_expect _).bind_builds fun _ => (quiet_spanFrom _).bind_builds fun _ => ?_
  exact .alloc (.localDecl declared vars) _

theorem builds_returnStmt : Builds returnStmt [] ([·]) := by
  have hend : ∀ (start : Span) (value : Option NodeId), Builds (do
      let _ ← expect .semicolon
      alloc (.returnStmt value) (← spanFrom start)) value.toList ([·]) :=
    fun start value => (quiet_expect _).bind_builds fun _ =>
      (quiet_spanFrom _).bind_builds fun _ => .alloc (.returnStmt value) _
  refine (quiet_expect _).bind_builds fun _ => (quiet_check _).bind_builds fun b => ?_
  split
  · exact (Builds.pure none Option.toList).bind fun value => hend _ value
  · refine (builds_expr 0).bind fun e => ?_
    exact (Builds.pure (some e) Option.toList).bind fun value => hend _ value

theorem builds_yieldStmt : Builds yieldStmt [] ([·]) := by
  refine (quiet_expect _).bind_builds fun _ => (quiet_expect _).bind_builds fun _ => ?_
  refine (builds_expr 0).bind fun value => (quiet_expect _).bind_builds fun _ => ?_
  exact (quiet_spanFrom _).bind_builds fun _ => .alloc (.yieldStmt value) _

/-- A statement without parts takes nothing from the stack. -/
theorem builds_jumpStmt {c : Construct} (hc : c.children = []) : Builds (jumpStmt c) [] ([·]) := by
  have halloc : ∀ s, Builds (alloc c s) [] ([·]) := fun s => by
    have h := Builds.alloc c s
    rwa [hc] at h
  refine quiet_advance.bind_builds fun _ => (quiet_expect _).bind_builds fun _ => ?_
  exact (quiet_spanFrom _).bind_builds halloc

theorem builds_emptyStmt : Builds emptyStmt [] ([·]) :=
  quiet_advance.bind_builds fun _ => .alloc .emptyStmt _

theorem builds_condition : Builds condition [] ([·]) := by
  refine (quiet_expect _).bind_builds fun _ => (builds_expr 0).bind fun e => ?_
  exact (quiet_expect _).bind_builds fun _ => .pure e ([·])

section Statements

variable {stmt : Parse NodeId}

theorem builds_blockWith (h : Builds stmt [] ([·])) : Builds (blockWith stmt) [] ([·]) := by
  refine (quiet_expect _).bind_builds fun _ => (builds_itemsUntilBrace h).bind fun stmts => ?_
  refine (quiet_expect _).bind_builds fun _ => (quiet_spanFrom _).bind_builds fun _ => ?_
  exact .alloc (.block stmts) _

/-- The condition and the branches pile up until the statement takes them. -/
theorem builds_ifWith (h : Builds stmt [] ([·])) : Builds (ifWith stmt) [] ([·]) := by
  refine (quiet_expect _).bind_builds fun _ => builds_condition.bind fun test => ?_
  refine (h.frame [test]).bind fun thenBranch => (quiet_eat _).bind_builds fun b => ?_
  have hend : ∀ (start : Span) (elseBranch : Option NodeId), Builds (do
      alloc (.ifStmt test thenBranch elseBranch) (← spanFrom start))
      (test :: thenBranch :: elseBranch.toList) ([·]) :=
    fun start elseBranch => (quiet_spanFrom _).bind_builds fun _ =>
      .alloc (.ifStmt test thenBranch elseBranch) _
  split
  · refine (h.frame [test, thenBranch]).bind fun s => ?_
    exact (Builds.pure (some s) fun e => test :: thenBranch :: e.toList).bind fun e => hend _ e
  · exact (Builds.pure none fun e => test :: thenBranch :: e.toList).bind fun e => hend _ e

theorem builds_whileWith (h : Builds stmt [] ([·])) : Builds (whileWith stmt) [] ([·]) := by
  refine (quiet_expect _).bind_builds fun _ => builds_condition.bind fun test => ?_
  refine (h.frame [test]).bind fun body => (quiet_spanFrom _).bind_builds fun _ => ?_
  exact .alloc (.whileStmt test body) _

theorem builds_doWith (h : Builds stmt [] ([·])) : Builds (doWith stmt) [] ([·]) := by
  refine (quiet_expect _).bind_builds fun _ => h.bind fun body => ?_
  refine (quiet_expect _).bind_builds fun _ => (builds_condition.frame [body]).bind fun test => ?_
  refine (quiet_expect _).bind_builds fun _ => (quiet_spanFrom _).bind_builds fun _ => ?_
  exact .alloc (.doStmt body test) _

/-- A statement is one tree, if those inside it are. -/
theorem builds_statementWith (h : Builds stmt [] ([·])) : Builds (statementWith stmt) [] ([·]) := by
  refine quiet_peek.bind_builds fun token => ?_
  split
  · exact builds_blockWith h
  · exact builds_ifWith h
  · exact builds_whileWith h
  · exact builds_doWith h
  · exact builds_returnStmt
  · exact builds_yieldStmt
  · exact builds_jumpStmt rfl
  · exact builds_jumpStmt rfl
  · exact builds_emptyStmt
  · refine quiet_isVarDecl.bind_builds fun b => ?_
    split
    · exact builds_localDecl
    · exact builds_exprStmt

end Statements

theorem builds_statementTo : ∀ depth, Builds (statementTo depth) [] ([·])
  | 0 => .exhausted _ _
  | depth + 1 => builds_statementWith (builds_statementTo depth)

theorem builds_statement : Builds statement [] ([·]) :=
  quiet_limit.bind_builds fun n => builds_statementTo n

theorem builds_block : Builds block [] ([·]) := builds_blockWith builds_statement

/-! ## 8. Programs -/

theorem quiet_param : Quiet param :=
  quiet_type.bind fun _ => quiet_ident.bind fun _ => .pure _

/-- A function has one child, its body: parameters are no nodes. -/
theorem builds_function : Builds function [] ([·]) := by
  have hbody : ∀ (returnType : WrittenType) (name : Ident) (params : List Param), Builds (do
      let _ ← expect .rightParen
      let body ← block
      alloc (.function returnType name params body) (← spanFrom returnType.span)) [] ([·]) := by
    intro returnType name params
    refine (quiet_expect _).bind_builds fun _ => builds_block.bind fun body => ?_
    exact (quiet_spanFrom _).bind_builds fun _ => .alloc (.function returnType name params body) _
  refine quiet_type.bind_builds fun returnType => quiet_ident.bind_builds fun name => ?_
  refine (quiet_expect _).bind_builds fun _ => (quiet_check _).bind_builds fun b => ?_
  split
  · exact (Quiet.pure []).bind_builds fun params => hbody returnType name params
  · exact (quiet_separated quiet_param).bind_builds fun params => hbody returnType name params

theorem quiet_checkWord (word : String) : Quiet (checkWord word) :=
  quiet_peek.bind fun _ => .pure _

theorem quiet_accessorsTo : ∀ turns, Quiet (accessorsTo turns)
  | 0 => quiet_exhausted
  | turns + 1 => by
    refine (quiet_check _).bind fun b => ?_
    split
    · exact .pure false
    · refine (quiet_checkWord _).bind fun isSet => (quiet_checkWord _).bind fun isGet => ?_
      split
      · exact quiet_advance.bind fun _ => (quiet_expect _).bind fun _ =>
          (quiet_accessorsTo turns).bind fun _ => .pure _
      · exact quiet_peek.bind fun _ => .throw _

theorem quiet_accessors : Quiet accessors :=
  (quiet_expect _).bind fun _ => quiet_limit.bind fun n => (quiet_accessorsTo n).bind fun _ =>
    (quiet_expect _).bind fun _ => .pure _

/-- A member is a function, a property without a child, or a field with its initializer. -/
theorem builds_classMember : Builds classMember [] ([·]) := by
  refine quiet_isFunctionDecl.bind_builds fun b => ?_
  split
  · exact builds_function
  · refine quiet_type.bind_builds fun declared => quiet_ident.bind_builds fun name => ?_
    refine (quiet_check _).bind_builds fun braced => ?_
    split
    · refine quiet_accessors.bind_builds fun hasSetter => (quiet_spanFrom _).bind_builds fun _ => ?_
      exact .alloc (.property declared name hasSetter) _
    · refine builds_initializer.bind fun init => (quiet_expect _).bind_builds fun _ => ?_
      exact (quiet_spanFrom _).bind_builds fun _ => .alloc (.field declared name init) _

theorem builds_classDecl : Builds classDecl [] ([·]) := by
  refine (quiet_expect _).bind_builds fun _ => quiet_ident.bind_builds fun name => ?_
  refine (quiet_expect _).bind_builds fun _ => ?_
  refine (builds_itemsUntilBrace builds_classMember).bind fun members => ?_
  refine (quiet_expect _).bind_builds fun _ => (quiet_spanFrom _).bind_builds fun _ => ?_
  exact .alloc (.classDecl name members) _

theorem builds_item : Builds item [] ([·]) := by
  refine (quiet_check _).bind_builds fun b => ?_
  split
  · exact builds_classDecl
  · refine quiet_isFunctionDecl.bind_builds fun b => ?_
    split
    · exact builds_function
    · exact builds_statement

/-! ## 9. Whole texts -/

/-- A whole program: its items, and their node as the root. -/
theorem program_apply (p : Parser) : ∃ items q, itemsUntilEnd item p = (.ok items, q) ∧
    (program p).2.errors = q.errors ∧ (program p).2.tree =
      { (q.tree.alloc (.unit items) ⟨0, q.textSize, 1, 1⟩).2 with root := q.tree.size } := by
  obtain ⟨items, q, h⟩ := itemsTo_eq_ok false item (p.tokens.length + 1) p
  have hi : itemsUntilEnd item p = (.ok items, q) := h
  refine ⟨items, q, hi, ?_, ?_⟩ <;> simp [program, bind_apply, hi]

/-- The root of a table does not matter for its forests. -/
theorem grown_withRoot {t : SyntaxTree} {lo hi : Nat} {ids : List NodeId} (root : NodeId)
    (h : Grown t lo hi ids) : Grown { t with root := root } lo hi ids := by
  induction h with
  | nil h => exact .nil h
  | cons hc hp _ _ ih₁ ih₂ => exact .cons hc hp ih₁ ih₂

end Parse

/-- What is made of a text: its items, and their node as the root. -/
theorem parseLenient_apply (text : String) :
    ∃ items q, Parse.itemsUntilEnd Parse.item (Parser.ofText text) = (.ok items, q) ∧
      (parseLenient text).2 = q.errors ∧ (parseLenient text).1 =
        { (q.tree.alloc (.unit items) ⟨0, q.textSize, 1, 1⟩).2 with root := q.tree.size } := by
  obtain ⟨items, q, hi, he, ht⟩ := Parse.program_apply (Parser.ofText text)
  refine ⟨items, q, hi, ?_⟩
  rw [← he, ← ht, parseLenient]
  generalize Parse.program (Parser.ofText text) = result
  exact ⟨rfl, rfl⟩

/-- **The table of a text holds one tree**, from its first node to its root, which comes last and
has no parent. -/
theorem parseLenient_grown (text : String) :
    Grown (parseLenient text).1 0 (parseLenient text).1.size [(parseLenient text).1.root] ∧
      (parseLenient text).1.parent? (parseLenient text).1.root = none ∧
      (parseLenient text).1.size = (parseLenient text).1.root + 1 ∧
      (parseLenient text).1.Linked := by
  obtain ⟨items, q, hi, -, htree⟩ := parseLenient_apply text
  have hb := Parse.builds_itemsUntilEnd Parse.builds_item 0 (Parser.ofText text)
    (pending_nil (Nat.zero_le _))
  rw [hi] at hb
  have hroot := Builds.alloc (.unit items) ⟨0, q.textSize, 1, 1⟩ 0 q (hb.2 items rfl)
  obtain ⟨hg, hp⟩ := hroot.2 q.tree.size rfl
  rw [htree]
  have hempty : (Parser.ofText text).tree.Linked := by
    intro i p h
    simp [Parser.ofText, Parser.ofLexed, empty, parent?] at h
  refine ⟨Parse.grown_withRoot _ hg, hp _ (List.mem_singleton_self _),
    size_alloc q.tree (.unit items) _, ?_⟩
  exact fun i p h => (hb.1.links hempty).alloc (.unit items) ⟨0, q.textSize, 1, 1⟩ i p h

/-- **Every node of the table of a text holds its children in order**, those of constructs that were
given up included. -/
theorem parseLenient_slotted (text : String) : (parseLenient text).1.Slotted := by
  obtain ⟨items, q, hi, -, htree⟩ := parseLenient_apply text
  have hb := Parse.builds_itemsUntilEnd Parse.builds_item 0 (Parser.ofText text)
    (pending_nil (Nat.zero_le _))
  rw [hi] at hb
  have hroot := Builds.alloc (.unit items) ⟨0, q.textSize, 1, 1⟩ 0 q (hb.2 items rfl)
  have hempty : (Parser.ofText text).tree.Slotted := by
    constructor <;> simp [Parser.ofText, Parser.ofLexed, empty, children, construct?]
  have hs := hroot.1.slots (hb.1.slots hempty)
  rw [htree]
  exact ⟨hs.parent_eq, hs.lt, hs.nodup⟩

end Recast
