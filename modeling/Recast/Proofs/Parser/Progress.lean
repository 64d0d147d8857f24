/-
# Parsing makes progress

The loops and nestings of the parser are cut off after more turns and levels than there are tokens.
The cut never shows, because every turn and every level reads a token.  This is said by comparing two
runs: whatever is put in the place of the cut, the parser does the same.

* `Same n x y`, `Eats n x y`: at parsers with at most `n` tokens the activities `x` and `y` do the
  same and go forward, and `Eats` reads a token if it succeeds.  One rule for each way to build an
  activity, then one lemma for each form of the grammar;
* `settles_statement`, `settles_expr`, `settles_type`, `settles_items`: every recursion goes on with
  fewer tokens, so its bound does not show;
* `turn_lt`: one turn of a loop over items reads a token, also when the item fails;
* `parser_progress`: **every activity of the parser goes forward, items, statements, members and
  expressions read a token, and a program is read up to its end.**
-/
import Recast.Proofs.Parser.SoundProgram
import Recast.Proofs.Recursion

namespace Recast

namespace Parse

/-! ## 1. The same way forward -/

section Rules

variable {α β : Type} {k m n : Nat} {p q : Parser} {x y z : Parse α} {f g : α → Parse β}

/-- At the parser `p` the two activities do the same, and go forward. -/
def SameAt (p : Parser) (x y : Parse α) : Prop := x p = y p ∧ (x p).2.tokens <:+ p.tokens

/-- At the parser `p` the two activities do the same, go forward, and read a token at least if they
succeed. -/
def EatsAt (p : Parser) (x y : Parse α) : Prop :=
  SameAt p x y ∧ ∀ a q, x p = (.ok a, q) → q.tokens.length < p.tokens.length

/-- The two activities go the same way forward where at most `n` tokens are left. -/
def Same (n : Nat) (x y : Parse α) : Prop := ∀ p, p.tokens.length ≤ n → SameAt p x y

/-- The two activities go the same way forward where at most `n` tokens are left, and read a token at
least if they succeed. -/
def Eats (n : Nat) (x y : Parse α) : Prop := ∀ p, p.tokens.length ≤ n → EatsAt p x y

/-- The members of two families go the same way forward. -/
def EachSame {ι : Type} (n : Nat) (f g : ι → Parse α) : Prop := ∀ i, Same n (f i) (g i)

/-- The members of two families go the same way forward, and read a token if they succeed. -/
def EachEats {ι : Type} (n : Nat) (f g : ι → Parse α) : Prop := ∀ i, Eats n (f i) (g i)

theorem SameAt.symm (h : SameAt p x y) : SameAt p y x := ⟨h.1.symm, h.1 ▸ h.2⟩

theorem SameAt.trans (h : SameAt p x y) (h' : SameAt p y z) : SameAt p x z := ⟨h.1.trans h'.1, h.2⟩

theorem EatsAt.symm (h : EatsAt p x y) : EatsAt p y x :=
  ⟨h.1.symm, fun a q hq => h.2 a q (h.1.1.trans hq)⟩

theorem EatsAt.trans (h : EatsAt p x y) (h' : EatsAt p y z) : EatsAt p x z := ⟨h.1.trans h'.1, h.2⟩

theorem Same.symm (h : Same n x y) : Same n y x := fun p hp => (h p hp).symm

theorem Same.trans (h : Same n x y) (h' : Same n y z) : Same n x z :=
  fun p hp => (h p hp).trans (h' p hp)

theorem Same.mono (h : Same n x y) (hk : k ≤ n) : Same k x y :=
  fun p hp => h p (Nat.le_trans hp hk)

theorem Eats.symm (h : Eats n x y) : Eats n y x := fun p hp => (h p hp).symm

theorem Eats.trans (h : Eats n x y) (h' : Eats n y z) : Eats n x z :=
  fun p hp => (h p hp).trans (h' p hp)

/-- What does the same as something goes forward. -/
theorem Eats.self (h : Eats n x y) : Eats n y y := h.symm.trans h

theorem Eats.mono (h : Eats n x y) (hk : k ≤ n) : Eats k x y :=
  fun p hp => h p (Nat.le_trans hp hk)

theorem Eats.same (h : Eats n x y) : Same n x y := fun p hp => (h p hp).1

theorem Same.of_quiet (h : Quiet x) : Same n x x := fun p _ => ⟨rfl, (h 0 p).1.tokens⟩

theorem Same.pure (a : α) : Same n (Pure.pure a : Parse α) (Pure.pure a) := .of_quiet (.pure a)

theorem Eats.throw (e : ParseError) : Eats n (MonadExcept.throw e : Parse α) (MonadExcept.throw e) :=
  fun p _ => ⟨⟨rfl, List.suffix_refl _⟩, fun a q h => by cases h⟩

/-- Nothing comes after a failure. -/
theorem Eats.throw_bind (e : ParseError) (f g : α → Parse β) :
    Eats n (MonadExcept.throw e >>= f) (MonadExcept.throw e >>= g) :=
  fun p _ => ⟨⟨rfl, List.suffix_refl _⟩, fun a q h => by cases h⟩

theorem same_alloc (c : Construct) (span : Span) : Same n (alloc c span) (alloc c span) :=
  fun _ _ => ⟨rfl, List.suffix_refl _⟩

/-- A sequence goes the same way forward if both parts do, the second from where the first ended. -/
theorem SameAt.bind (h : SameAt p x y)
    (hf : ∀ a q, x p = (.ok a, q) → q.tokens <:+ p.tokens → SameAt q (f a) (g a)) :
    SameAt p (x >>= f) (y >>= g) := by
  obtain ⟨he, hs⟩ := h
  unfold SameAt
  rw [bind_apply, bind_apply, ← he]
  rcases hx : x p with ⟨e | a, q⟩ <;> rw [hx] at hs
  · exact ⟨rfl, hs⟩
  · obtain ⟨he', hs'⟩ := hf a q hx hs
    exact ⟨he', hs'.trans hs⟩

theorem Same.bind (h : Same n x y) (hf : ∀ a, Same n (f a) (g a)) : Same n (x >>= f) (y >>= g) :=
  fun p hp => (h p hp).bind fun a q _ hs => hf a q (Nat.le_trans hs.length_le hp)

/-- What comes after a token has fewer tokens before it. -/
theorem EatsAt.bind (h : EatsAt p x y) (hp : p.tokens.length ≤ n)
    (hf : ∀ a, ∀ k < n, Same k (f a) (g a)) : EatsAt p (x >>= f) (y >>= g) := by
  have hlt : ∀ {a q}, x p = (.ok a, q) → q.tokens.length < n :=
    fun hx => Nat.lt_of_lt_of_le (h.2 _ _ hx) hp
  refine ⟨h.1.bind fun a q hx _ => hf a _ (hlt hx) q (Nat.le_refl _), fun b r hr => ?_⟩
  obtain ⟨a, q, hx, hfa⟩ := bind_eq_ok.mp hr
  have hs := (hf a _ (hlt hx) q (Nat.le_refl _)).2
  rw [hfa] at hs
  exact Nat.lt_of_le_of_lt hs.length_le (h.2 a q hx)

theorem Eats.bind (h : Eats n x y) (hf : ∀ a, ∀ k < n, Same k (f a) (g a)) :
    Eats n (x >>= f) (y >>= g) :=
  fun p hp => (h p hp).bind hp hf

/-- The token may also be read by the second part. -/
theorem Same.bind_eats (h : Same n x y) (hf : ∀ a, Eats n (f a) (g a)) :
    Eats n (x >>= f) (y >>= g) := by
  intro p hp
  have hs := (h p hp).2
  have hlen : ∀ {a q}, x p = (.ok a, q) → q.tokens.length ≤ p.tokens.length := by
    intro a q hx
    rw [hx] at hs
    exact hs.length_le
  refine ⟨(h p hp).bind fun a q hx _ => (hf a q (Nat.le_trans (hlen hx) hp)).1, fun b r hr => ?_⟩
  obtain ⟨a, q, hx, hfa⟩ := bind_eq_ok.mp hr
  exact Nat.lt_of_lt_of_le ((hf a q (Nat.le_trans (hlen hx) hp)).2 b r hfa) (hlen hx)

/-! ## 2. Single tokens -/

/-- What is done after a look at the next token may depend on where it is done. -/
theorem eats_peek {f g : Token → Parse β}
    (h : ∀ p, p.tokens.length ≤ n → EatsAt p (f p.peek) (g p.peek)) :
    Eats n (peek >>= f) (peek >>= g) :=
  fun p hp => h p hp

theorem eatsAt_advance (h : p.peek.kind ≠ .eof) : EatsAt p advance advance := by
  refine ⟨⟨rfl, (quiet_advance 0 p).1.tokens⟩, fun a q hq => ?_⟩
  cases hp : p.tokens with
  | nil =>
    rw [Parser.kind_peek, hp] at h
    exact absurd rfl h
  | cons t ts =>
    rw [advance_of_eq_cons hp] at hq
    cases hq
    exact Nat.lt_succ_self _

theorem eats_expect {kind : TokenKind} (hk : kind ≠ .eof) : Eats n (expect kind) (expect kind) := by
  refine fun p _ => ⟨⟨rfl, (quiet_expect kind 0 p).1.tokens⟩, fun a q hq => ?_⟩
  obtain ⟨ts, hp, -, rfl⟩ := (expect_eq_ok hk).mp hq
  rw [hp]
  exact Nat.lt_succ_self _

theorem eats_ident : Eats n ident ident := by
  refine fun p _ => ⟨⟨rfl, (quiet_ident 0 p).1.tokens⟩, fun a q hq => ?_⟩
  obtain ⟨t, ts, hp, -, -, rfl⟩ := ident_eq_ok.mp hq
  rw [hp]
  exact Nat.lt_succ_self _

theorem same_expect (kind : TokenKind) : Same n (expect kind) (expect kind) :=
  .of_quiet (quiet_expect kind)

/-- A token that is there is read. -/
theorem same_eat_bind {kind : TokenKind} (hk : kind ≠ .eof) {f g : Bool → Parse β}
    (ht : ∀ k < n, Same k (f true) (g true)) (hf : Same n (f false) (g false)) :
    Same n (eat kind >>= f) (eat kind >>= g) := by
  intro p hp
  refine SameAt.bind ⟨rfl, (quiet_eat kind 0 p).1.tokens⟩ fun b q hq _ => ?_
  rcases (eat_eq_ok hk).mp hq with ⟨rfl, t, ts, hts, -, rfl⟩ | ⟨rfl, -, rfl⟩
  · refine ht ts.length ?_ _ (Nat.le_refl _)
    rw [hts] at hp
    exact Nat.lt_of_succ_le hp
  · exact hf _ hp

/-- The bound of a recursion is taken from the tokens that are left. -/
theorem same_limit {f : Nat → Parse α} (h : ∀ k ≤ n, Same k x (f (k + 1))) :
    Same n x (limit >>= f) :=
  fun p hp => h p.tokens.length hp p (Nat.le_refl _)

theorem same_limit_bind {f g : Nat → Parse β} (h : ∀ k ≤ n, Same k (f (k + 1)) (g (k + 1))) :
    Same n (limit >>= f) (limit >>= g) :=
  fun p hp => h p.tokens.length hp p (Nat.le_refl _)

theorem eats_limit {f : Nat → Parse α} (h : ∀ k ≤ n, Eats k x (f (k + 1))) :
    Eats n x (limit >>= f) :=
  fun p hp => h p.tokens.length hp p (Nat.le_refl _)

end Rules

/-! ## 3. Sequences with commas -/

section Separated

variable {α : Type} {n : Nat} {item item' : Parse α}

/-- One item and what comes after a comma. -/
def separatedWith (item : Parse α) (rest : Parse (List α)) : Parse (List α) := do
  let a ← item
  if ← eat .comma then
    let more ← rest
    pure (a :: more)
  else pure [a]

theorem separatedTo_eq (item : Parse α) :
    ∀ turns, separatedTo item turns = (separatedWith item)^[turns] exhausted
  | 0 => rfl
  | turns + 1 => by
    rw [Function.iterate_succ_apply', ← separatedTo_eq item turns]
    rfl

theorem same_separatedWith {rest rest' : Parse (List α)} (h : Same n item item')
    (hrest : ∀ k < n, Same k rest rest') :
    Same n (separatedWith item rest) (separatedWith item' rest') := by
  refine h.bind fun a => same_eat_bind (by simp) (fun k hk => ?_) ?_
  · exact (hrest k hk).bind fun more => .pure (a :: more)
  · exact .pure [a]

theorem same_separated (h : Same n item item') : Same n (separated item) (separated item') := by
  refine same_limit_bind fun k hk => ?_
  rw [separatedTo_eq, separatedTo_eq]
  refine iterate_agree (P := fun j rest rest' => j ≤ n → Same j rest rest') (fun hrest hj => ?_)
    (Nat.lt_succ_self k) (Nat.lt_succ_self k) _ _ hk
  exact same_separatedWith (h.mono hj) fun i hi => hrest i hi (Nat.le_trans (Nat.le_of_lt hi) hj)

theorem settles_separated (h : ∀ n, Same n item item) :
    Settles Same (separatedWith item) (separated item) := by
  have hstep : ∀ {n : Nat} {rest rest' : Parse (List α)}, (∀ k < n, Same k rest rest') →
      Same n (separatedWith item rest) (separatedWith item rest') := same_separatedWith (h _)
  refine .of_step .symm .trans hstep exhausted fun n => same_limit fun k hk => ?_
  rw [separatedTo_eq]
  exact iterate_agree hstep (Nat.lt_succ_of_le hk) (Nat.lt_succ_self k) _ _

end Separated

/-! ## 4. Types -/

theorem typeTo_eq : ∀ depth, typeTo depth = typeWith^[depth] exhausted
  | 0 => rfl
  | depth + 1 => by
    rw [Function.iterate_succ_apply', ← typeTo_eq depth]
    rfl

theorem eats_typeWith {n : Nat} {argument argument' : Parse WrittenType}
    (h : ∀ k < n, Same k argument argument') : Eats n (typeWith argument) (typeWith argument') := by
  have hrank : ∀ (token : Token) (args : List WrittenType) (k : Nat), Same k (do
      let pairs := TypeScan.bracketPairs (← get).tokens
      brackets pairs
      pure (WrittenType.mk token.lexeme args (min pairs maxRank) (← spanFrom token.span))) (do
      let pairs := TypeScan.bracketPairs (← get).tokens
      brackets pairs
      pure (WrittenType.mk token.lexeme args (min pairs maxRank) (← spanFrom token.span))) :=
    fun token args k => .of_quiet (quiet_get.bind fun p => (quiet_brackets _).bind fun _ =>
      (quiet_spanFrom _).bind fun _ => .pure _)
  refine eats_peek fun p hp => ?_
  dsimp only
  split
  · exact Eats.throw_bind _ _ _ p hp
  · rename_i hkind
    refine (eatsAt_advance (by simp_all)).bind hp fun _ k hk => ?_
    refine same_eat_bind (by simp) (fun j hj => ?_) ?_
    · refine (same_separated (h j (Nat.lt_trans hj hk))).bind fun args => ?_
      exact (same_expect _).bind fun _ => (Same.pure args).bind fun args => hrank _ args j
    · exact (Same.pure []).bind fun args => hrank _ args k

theorem settles_type : Settles Eats typeWith type := by
  have hstep : ∀ {n : Nat} {x y : Parse WrittenType}, (∀ k < n, Eats k x y) →
      Eats n (typeWith x) (typeWith y) := fun h => eats_typeWith fun k hk => (h k hk).same
  refine .of_step .symm .trans hstep exhausted fun n => eats_limit fun k hk => ?_
  rw [typeTo_eq]
  exact iterate_agree hstep (Nat.lt_succ_of_le hk) (Nat.lt_succ_self k) _ _

theorem eats_type {n : Nat} : Eats n type type := (settles_type.unfolds n).self

/-! ## 5. Expressions -/

section Expressions

variable {n : Nat} {p : Parser} {f g : Nat → Parse NodeId}

theorem eats_argumentsWith (h : ∀ k < n, EachSame k f g) :
    Eats n (argumentsWith f) (argumentsWith g) := by
  refine (eats_expect (by simp)).bind fun _ k hk => ?_
  refine (Same.of_quiet (quiet_check _)).bind fun b => ?_
  have hclose : ∀ args : List NodeId, Same k (do let _ ← expect .rightParen; pure args)
      (do let _ ← expect .rightParen; pure args) :=
    fun args => (same_expect _).bind fun _ => .pure args
  split
  · exact (Same.pure []).bind hclose
  · exact (same_separated (h k hk 0)).bind hclose

theorem eats_castWith (h : ∀ k < n, EachSame k f g) :
    Eats n (castWith f) (castWith g) := by
  refine (eats_expect (by simp)).bind fun _ k hk => (same_expect _).bind fun _ => ?_
  refine eats_type.same.bind fun target => (same_expect _).bind fun _ => ?_
  refine (same_expect _).bind fun _ => (h k hk 0).bind fun inner => (same_expect _).bind fun _ => ?_
  exact (Same.of_quiet (quiet_spanFrom _)).bind fun _ => same_alloc _ _

/-- An operand is read token by token, and what is nested in it stands after its first token. -/
theorem eats_operandWith (h : ∀ k < n, EachSame k f g) :
    Eats n (operandWith f) (operandWith g) := by
  refine eats_peek fun p hp => ?_
  have hleaf : ∀ (c : Construct) (s : Span), p.peek.kind ≠ .eof →
      EatsAt p (do let _ ← advance; alloc c s) (do let _ ← advance; alloc c s) :=
    fun c s hkind => (eatsAt_advance hkind).bind hp fun _ _ _ => same_alloc c s
  have hunary : ∀ op : UnaryOp, p.peek.kind ≠ .eof → EatsAt p (do
      let _ ← advance
      let operand ← f BindingPower.unaryPower
      alloc (.unary op operand) (p.peek.span.merge (← spanOf operand))) (do
      let _ ← advance
      let operand ← g BindingPower.unaryPower
      alloc (.unary op operand) (p.peek.span.merge (← spanOf operand))) := by
    intro op hkind
    refine (eatsAt_advance hkind).bind hp fun _ k hk => (h k hk _).bind fun operand => ?_
    exact (Same.of_quiet (quiet_spanOf _)).bind fun _ => same_alloc _ _
  split <;> rename_i hkind
  iterate 5
    · refine (eatsAt_advance (by simp [hkind])).bind hp fun _ _ _ => ?_
      split
      · exact same_alloc _ _
      · exact (Eats.throw _).same
  iterate 3 exact hleaf _ _ (by simp [hkind])
  · exact hunary .neg (by simp [hkind])
  · exact hunary .not (by simp [hkind])
  · refine (eatsAt_advance (by simp [hkind])).bind hp fun _ k hk => (h k hk 0).bind fun inner => ?_
    refine (same_expect _).bind fun _ => (Same.of_quiet (quiet_spanFrom _)).bind fun _ => ?_
    exact same_alloc _ _
  · refine (eatsAt_advance (by simp [hkind])).bind hp fun _ k hk => eats_type.same.bind fun _ => ?_
    refine (eats_argumentsWith fun j hj => h j (Nat.lt_trans hj hk)).same.bind fun args => ?_
    exact (Same.of_quiet (quiet_spanFrom _)).bind fun _ => same_alloc _ _
  · exact eats_castWith h p hp
  · exact hleaf _ _ (by simp [hkind])
  · exact Eats.throw _ p hp
  · exact Eats.throw _ p hp

theorem eatsAt_memberAfter (hkind : p.peek.kind ≠ .eof) (object : NodeId) :
    EatsAt p (memberAfter object) (memberAfter object) := by
  refine (eatsAt_advance hkind).bind (Nat.le_refl _) fun _ k hk => eats_ident.same.bind fun name => ?_
  exact (Same.of_quiet (quiet_spanOf _)).bind fun _ => same_alloc _ _

theorem eats_callAfter (h : ∀ k < n, EachSame k f g) (callee : NodeId) :
    Eats n (callAfter f callee) (callAfter g callee) := by
  refine (eats_argumentsWith h).bind fun args k _ => ?_
  refine (Same.of_quiet (quiet_spanOf _)).bind fun _ => ?_
  exact (Same.of_quiet (quiet_spanFrom _)).bind fun _ => same_alloc _ _

theorem eatsAt_assignAfter (h : ∀ k < n, EachSame k f g)
    (hp : p.tokens.length ≤ n) (hkind : p.peek.kind ≠ .eof) (op : AssignOp) (target : NodeId) :
    EatsAt p (assignAfter f op target) (assignAfter g op target) := by
  refine (eatsAt_advance hkind).bind hp fun token k hk => ?_
  have hvalue : Same k (do
      let value ← f BindingPower.assignRight
      alloc (.assign op target value) ((← spanOf target).merge (← spanOf value))) (do
      let value ← g BindingPower.assignRight
      alloc (.assign op target value) ((← spanOf target).merge (← spanOf value))) := by
    refine (h k hk _).bind fun value => (Same.of_quiet (quiet_spanOf _)).bind fun _ => ?_
    exact (Same.of_quiet (quiet_spanOf _)).bind fun _ => same_alloc _ _
  refine (Same.of_quiet quiet_get).bind fun q => ?_
  dsimp only
  split
  · split
    · exact (Eats.throw_bind _ _ _).same
    · exact hvalue
  · exact hvalue

theorem eatsAt_binaryAfter (h : ∀ k < n, EachSame k f g)
    (hp : p.tokens.length ≤ n) (hkind : p.peek.kind ≠ .eof) (op : BinaryOp) (lhs : NodeId) :
    EatsAt p (binaryAfter f op lhs) (binaryAfter g op lhs) := by
  refine (eatsAt_advance hkind).bind hp fun _ k hk => (h k hk _).bind fun rhs => ?_
  refine (Same.of_quiet (quiet_spanOf _)).bind fun _ => ?_
  exact (Same.of_quiet (quiet_spanOf _)).bind fun _ => same_alloc _ _

/-- **Whatever operator comes next, it is read.** -/
theorem eatsAt_operatorAfter? (h : ∀ k < n, EachSame k f g)
    (hp : p.tokens.length ≤ n) (power : Nat) (lhs : NodeId) :
    Option.Rel (EatsAt p) (operatorAfter? f power p.peek.kind lhs)
      (operatorAfter? g power p.peek.kind lhs) := by
  unfold operatorAfter?
  split
  · rename_i hkind
    split
    · exact .none
    · exact .some (eatsAt_memberAfter (by simp [hkind]) lhs)
  split
  · split
    · exact .none
    · exact .some (eats_callAfter h lhs p hp)
  split
  · rename_i op hop
    have hkind : p.peek.kind ≠ .eof := fun he => by simp [he, TokenKind.assignOp?] at hop
    split
    · exact .none
    · exact .some (eatsAt_assignAfter h hp hkind op lhs)
  split
  · rename_i op hop
    have hkind : p.peek.kind ≠ .eof := fun he => by simp [he, TokenKind.binaryOp?] at hop
    split
    · exact .none
    · exact .some (eatsAt_binaryAfter h hp hkind op lhs)
  · exact .none

/-- One operator and what comes after it. -/
def operatorsWith (expr : Nat → Parse NodeId) (power : Nat) (rest : NodeId → Parse NodeId)
    (lhs : NodeId) : Parse NodeId := do
  match operatorAfter? expr power (← peek).kind lhs with
  | none => pure lhs
  | some operator =>
    let lhs ← operator
    rest lhs

theorem operatorsTo_eq (expr : Nat → Parse NodeId) (power : Nat) :
    ∀ turns, operatorsTo expr power turns = (operatorsWith expr power)^[turns] fun _ => exhausted
  | 0 => rfl
  | turns + 1 => by
    rw [Function.iterate_succ_apply', ← operatorsTo_eq expr power turns]
    rfl

theorem same_operatorsWith (h : ∀ k < n, EachSame k f g) {power : Nat}
    {rest rest' : NodeId → Parse NodeId} (hrest : ∀ k < n, EachSame k rest rest') :
    EachSame n (operatorsWith f power rest) (operatorsWith g power rest') := by
  intro lhs p hp
  refine SameAt.bind ⟨rfl, List.suffix_refl _⟩ fun token q hq _ => ?_
  cases hq
  have hrel := eatsAt_operatorAfter? h hp power lhs
  generalize operatorAfter? f power p.peek.kind lhs = x at hrel
  generalize operatorAfter? g power p.peek.kind lhs = y at hrel
  cases hrel with
  | none => exact Same.pure lhs p hp
  | some hxy => exact (hxy.bind hp fun lhs k hk => hrest k hk lhs).1

theorem same_operatorsTo (h : ∀ k < n, EachSame k f g) {turns turns' : Nat}
    (ht : n < turns) (ht' : n < turns') (power : Nat) (lhs : NodeId) :
    Same n (operatorsTo f power turns lhs) (operatorsTo g power turns' lhs) := by
  rw [operatorsTo_eq, operatorsTo_eq]
  refine iterate_agree (P := fun j x y => j ≤ n → EachSame j x y) (fun hrest hj lhs => ?_) ht ht' _ _
    (Nat.le_refl n) lhs
  exact same_operatorsWith (fun k hk => h k (Nat.lt_of_lt_of_le hk hj))
    (fun k hk => hrest k hk (Nat.le_trans (Nat.le_of_lt hk) hj)) lhs

/-- An expression, given how to read its parts. -/
def exprWith (expr : Nat → Parse NodeId) (power : Nat) : Parse NodeId := do
  let lhs ← operandWith expr
  operatorsTo expr power (← limit) lhs

theorem exprTo_eq : ∀ depth, exprTo depth = exprWith^[depth] fun _ => exhausted
  | 0 => rfl
  | depth + 1 => by
    rw [Function.iterate_succ_apply', ← exprTo_eq depth]
    rfl

theorem eats_exprWith (h : ∀ k < n, EachSame k f g) (power : Nat) :
    Eats n (exprWith f power) (exprWith g power) := by
  refine (eats_operandWith h).bind fun lhs k hk => same_limit_bind fun j hj => ?_
  exact same_operatorsTo (fun i hi => h i (Nat.lt_trans (Nat.lt_of_lt_of_le hi hj) hk))
    (Nat.lt_succ_self j) (Nat.lt_succ_self j) power lhs

end Expressions

theorem settles_expr : Settles EachEats exprWith expr := by
  have hstep : ∀ {n : Nat} {f g : Nat → Parse NodeId}, (∀ k < n, EachEats k f g) →
      EachEats n (exprWith f) (exprWith g) :=
    fun h => eats_exprWith fun k hk power => (h k hk power).same
  refine .of_step (fun h power => (h power).symm) (fun h h' power => (h power).trans (h' power))
    hstep (fun _ => exhausted) fun n power => eats_limit fun k hk => ?_
  rw [exprTo_eq]
  exact iterate_agree (P := EachEats) hstep (Nat.lt_succ_of_le hk) (Nat.lt_succ_self k) _ _ power

theorem eats_expr {n : Nat} (power : Nat) : Eats n (expr power) (expr power) :=
  (settles_expr.unfolds n power).self

section Items

variable {n : Nat} {braced : Bool} {p : Parser} {item item' : Parse NodeId}
  {rest rest' : Parse (List NodeId)}

/-- One turn of a sequence of items, and the turns after it. -/
def itemsWith (braced : Bool) (item : Parse NodeId) (rest : Parse (List NodeId)) :
    Parse (List NodeId) := do
  let closed ← if braced then check .rightBrace else pure false
  if closed || (← atEnd) then pure []
  else
    let before := (← get).tokens.length
    match ← attempt item with
    | .ok id =>
      let more ← rest
      pure (id :: more)
    | .error e =>
      record e
      synchronize before
      rest

theorem itemsTo_eq (braced : Bool) (item : Parse NodeId) :
    ∀ turns, itemsTo braced item turns = (itemsWith braced item)^[turns] (pure [])
  | 0 => rfl
  | turns + 1 => by
    rw [Function.iterate_succ_apply', ← itemsTo_eq braced item turns]
    rfl

/-- The parser after one turn: an item was read, or it failed and the rest of it was skipped. -/
def turn (item : Parse NodeId) (p : Parser) : Parser :=
  match item p with
  | (.ok _, q) => q
  | (.error e, q) => recover p.tokens.length e q

theorem itemsWith_of_closed (h : closed braced p = true) :
    itemsWith braced item rest p = (.ok [], p) := by
  cases braced <;> simp_all [itemsWith, bind_apply, closed]

/-- **The turns that follow start where the turn has ended.** -/
theorem itemsWith_of_open (h : closed braced p = false) :
    itemsWith braced item rest p = match (item p).1 with
      | .ok id => (do let more ← rest; pure (id :: more) : Parse (List NodeId)) (turn item p)
      | .error _ => rest (turn item p) := by
  rcases hi : item p with ⟨e | id, q⟩
  · have ha : attempt item p = (.ok (.error e), q) := by
      simp [attempt, hi]
    obtain ⟨r, hr⟩ := synchronize_apply p.tokens.length { q with errors := q.errors ++ [e] }
    have hrec : recover p.tokens.length e q = r := by
      simp [recover, bind_apply, record, hr]
    cases braced <;> simp_all [itemsWith, turn, bind_apply, closed, record]
  · have ha : attempt item p = (.ok (.ok id), q) := by
      simp [attempt, hi]
    cases braced <;> simp_all [-bind_pure_comp, itemsWith, turn, bind_apply, closed]

/-- **A turn reads a token, also when the item fails.** -/
theorem turn_lt (h : EatsAt p item item') (hc : closed braced p = false) :
    (turn item p).tokens <:+ p.tokens ∧ (turn item p).tokens.length < p.tokens.length := by
  have hne : p.tokens ≠ [] := by
    intro hn
    simp [closed, hn] at hc
  obtain ⟨⟨-, hs⟩, hlt⟩ := h
  unfold turn
  rcases hi : item p with ⟨e | id, q⟩ <;> rw [hi] at hs
  · have hrec : recover p.tokens.length e q =
        (synchronize p.tokens.length { q with errors := q.errors ++ [e] }).2 := by
      simp [recover, bind_apply, record]
    dsimp only
    rw [hrec]
    refine ⟨(quiet_synchronize _ 0 _).1.tokens.trans hs, ?_⟩
    exact synchronize_length_lt hs.length_le (List.length_pos_iff.mpr hne)
  · exact ⟨hs, hlt id q hi⟩

theorem same_itemsWith (h : Eats n item item') (hrest : ∀ k < n, Same k rest rest') :
    Same n (itemsWith braced item rest) (itemsWith braced item' rest') := by
  intro p hp
  unfold SameAt
  cases hc : closed braced p with
  | true =>
    rw [itemsWith_of_closed hc, itemsWith_of_closed hc]
    exact ⟨rfl, List.suffix_refl _⟩
  | false =>
    obtain ⟨hs, hlt⟩ := turn_lt (h p hp) hc
    have hturn : turn item' p = turn item p := by
      rw [turn, turn, (h p hp).1.1]
    have hmore : ∀ {x y : Parse (List NodeId)}, (∀ k < n, Same k x y) → SameAt (turn item p) x y :=
      fun hxy => hxy _ (Nat.lt_of_lt_of_le hlt hp) _ (Nat.le_refl _)
    rw [itemsWith_of_open hc, itemsWith_of_open hc, hturn, ← (h p hp).1.1]
    split
    · rename_i id _
      obtain ⟨he, hs'⟩ := hmore fun k hk => (hrest k hk).bind fun more => .pure (id :: more)
      exact ⟨he, hs'.trans hs⟩
    · obtain ⟨he, hs'⟩ := hmore hrest
      exact ⟨he, hs'.trans hs⟩

theorem same_items (h : Eats n item item') :
    Same n (do itemsTo braced item (← limit)) (do itemsTo braced item' (← limit)) := by
  refine same_limit_bind fun k hk => ?_
  rw [itemsTo_eq, itemsTo_eq]
  refine iterate_agree (P := fun j x y => j ≤ n → Same j x y) (fun hrest hj => ?_)
    (Nat.lt_succ_self k) (Nat.lt_succ_self k) _ _ hk
  exact same_itemsWith (h.mono hj) fun i hi => hrest i hi (Nat.le_trans (Nat.le_of_lt hi) hj)

theorem settles_items (braced : Bool) (h : ∀ n, Eats n item item) :
    Settles Same (itemsWith braced item) (do itemsTo braced item (← limit)) := by
  have hstep : ∀ {n : Nat} {x y : Parse (List NodeId)}, (∀ k < n, Same k x y) →
      Same n (itemsWith braced item x) (itemsWith braced item y) := same_itemsWith (h _)
  refine .of_step .symm .trans hstep (pure []) fun n => same_limit fun k hk => ?_
  rw [itemsTo_eq]
  exact iterate_agree hstep (Nat.lt_succ_of_le hk) (Nat.lt_succ_self k) _ _

/-- **Items up to the end of the text leave no token.** -/
theorem tokens_itemsUntilEnd (h : ∀ n, Eats n item item) (p : Parser) :
    (itemsUntilEnd item p).2.tokens = [] := by
  have hturns : ∀ (turns : Nat) (p : Parser), p.tokens.length < turns →
      (itemsTo false item turns p).2.tokens = [] := by
    intro turns
    induction turns with
    | zero => exact fun p hp => absurd hp (Nat.not_lt_zero _)
    | succ turns ih =>
      intro p hp
      rw [itemsTo_eq, Function.iterate_succ_apply', ← itemsTo_eq]
      cases hc : closed false p with
      | true =>
        rw [itemsWith_of_closed hc]
        simpa [closed] using hc
      | false =>
        have hlt := (turn_lt (h _ p (Nat.le_refl _)) hc).2
        have hend := ih (turn item p) (Nat.lt_of_lt_of_le hlt (Nat.le_of_lt_succ hp))
        rw [itemsWith_of_open hc]
        split
        · obtain ⟨ids, r, hr⟩ := itemsTo_eq_ok false item turns (turn item p)
          rw [bind_of_ok hr]
          rw [hr] at hend
          exact hend
        · exact hend
  exact hturns _ p (Nat.lt_succ_self _)

end Items

/-! ## 7. Statements -/

section Statements

variable {n : Nat} {p : Parser} {stmt stmt' : Parse NodeId}

theorem same_spanned (c : Construct) (start : Span) :
    Same n (do alloc c (← spanFrom start)) (do alloc c (← spanFrom start)) :=
  (Same.of_quiet (quiet_spanFrom _)).bind fun _ => same_alloc c _

theorem eats_exprStmt : Eats n exprStmt exprStmt :=
  (Same.of_quiet quiet_peek).bind_eats fun _ => (eats_expr 0).bind fun _ _ _ =>
    (same_expect _).bind fun _ => same_spanned _ _

theorem same_initializer : Same n initializer initializer := by
  refine same_eat_bind (by simp) (fun k _ => ?_) (.pure none)
  exact (eats_expr 0).same.bind fun e => .pure (some e)

theorem eats_declarator : Eats n declarator declarator :=
  eats_ident.bind fun _ _ _ => same_initializer.bind fun _ => .pure _

theorem eats_localDecl : Eats n localDecl localDecl :=
  eats_type.bind fun _ _ _ => (same_separated eats_declarator.same).bind fun _ =>
    (same_expect _).bind fun _ => same_spanned _ _

theorem eats_returnStmt : Eats n returnStmt returnStmt := by
  refine (eats_expect (by simp)).bind fun token k _ => ?_
  have hend : ∀ value : Option NodeId, Same k (do
      let _ ← expect .semicolon
      alloc (.returnStmt value) (← spanFrom token.span)) (do
      let _ ← expect .semicolon
      alloc (.returnStmt value) (← spanFrom token.span)) :=
    fun value => (same_expect _).bind fun _ => same_spanned _ _
  refine (Same.of_quiet (quiet_check _)).bind fun b => ?_
  split
  · exact (Same.pure none).bind hend
  · exact (eats_expr 0).same.bind fun e => (Same.pure (some e)).bind hend

theorem eats_yieldStmt : Eats n yieldStmt yieldStmt :=
  (eats_expect (by simp)).bind fun _ _ _ => (same_expect _).bind fun _ =>
    (eats_expr 0).same.bind fun _ => (same_expect _).bind fun _ => same_spanned _ _

theorem eatsAt_jumpStmt (hkind : p.peek.kind ≠ .eof) (c : Construct) :
    EatsAt p (jumpStmt c) (jumpStmt c) :=
  (eatsAt_advance hkind).bind (Nat.le_refl _) fun _ _ _ =>
    (same_expect _).bind fun _ => same_spanned _ _

theorem eatsAt_emptyStmt (hkind : p.peek.kind ≠ .eof) : EatsAt p emptyStmt emptyStmt :=
  (eatsAt_advance hkind).bind (Nat.le_refl _) fun _ _ _ => same_alloc _ _

theorem eats_condition : Eats n condition condition :=
  (eats_expect (by simp)).bind fun _ _ _ => (eats_expr 0).same.bind fun e =>
    (same_expect _).bind fun _ => .pure e

theorem eats_blockWith (h : ∀ k < n, Eats k stmt stmt') : Eats n (blockWith stmt) (blockWith stmt') :=
  (eats_expect (by simp)).bind fun _ k hk => Same.bind (same_items (h k hk)) fun _ =>
    (same_expect _).bind fun _ => same_spanned _ _

theorem eats_ifWith (h : ∀ k < n, Eats k stmt stmt') : Eats n (ifWith stmt) (ifWith stmt') := by
  refine (eats_expect (by simp)).bind fun token k hk => eats_condition.same.bind fun test => ?_
  refine (h k hk).same.bind fun thenBranch => ?_
  refine same_eat_bind (by simp) (fun j hj => ?_) ?_
  · exact (h j (Nat.lt_trans hj hk)).same.bind fun s => (Same.pure (some s)).bind fun _ =>
      same_spanned _ _
  · exact (Same.pure none).bind fun _ => same_spanned _ _

theorem eats_whileWith (h : ∀ k < n, Eats k stmt stmt') :
    Eats n (whileWith stmt) (whileWith stmt') :=
  (eats_expect (by simp)).bind fun _ k hk => eats_condition.same.bind fun _ =>
    (h k hk).same.bind fun _ => same_spanned _ _

theorem eats_doWith (h : ∀ k < n, Eats k stmt stmt') : Eats n (doWith stmt) (doWith stmt') :=
  (eats_expect (by simp)).bind fun _ k hk => (h k hk).same.bind fun _ =>
    (same_expect _).bind fun _ => eats_condition.same.bind fun _ => (same_expect _).bind fun _ =>
      same_spanned _ _

theorem eats_statementWith (h : ∀ k < n, Eats k stmt stmt') :
    Eats n (statementWith stmt) (statementWith stmt') := by
  refine eats_peek fun p hp => ?_
  split <;> rename_i hkind
  · exact eats_blockWith h p hp
  · exact eats_ifWith h p hp
  · exact eats_whileWith h p hp
  · exact eats_doWith h p hp
  · exact eats_returnStmt p hp
  · exact eats_yieldStmt p hp
  · exact eatsAt_jumpStmt (by simp [hkind]) _
  · exact eatsAt_jumpStmt (by simp [hkind]) _
  · exact eatsAt_emptyStmt (by simp [hkind])
  · refine Same.bind_eats (Same.of_quiet quiet_isVarDecl) (fun b => ?_) p hp
    split
    · exact eats_localDecl
    · exact eats_exprStmt

end Statements

theorem statementTo_eq : ∀ depth, statementTo depth = statementWith^[depth] exhausted
  | 0 => rfl
  | depth + 1 => by
    rw [Function.iterate_succ_apply', ← statementTo_eq depth]
    rfl

theorem settles_statement : Settles Eats statementWith statement := by
  refine .of_step .symm .trans eats_statementWith exhausted fun n => eats_limit fun k hk => ?_
  rw [statementTo_eq]
  exact iterate_agree eats_statementWith (Nat.lt_succ_of_le hk) (Nat.lt_succ_self k) _ _

/-! ## 8. Programs -/

section Programs

variable {n : Nat}

theorem eats_statement : Eats n statement statement := (settles_statement.unfolds n).self

theorem eats_block : Eats n block block := eats_blockWith fun _ _ => eats_statement

theorem eats_param : Eats n param param :=
  eats_type.bind fun _ _ _ => eats_ident.same.bind fun _ => .pure _

theorem eats_function : Eats n function function := by
  refine eats_type.bind fun returnType k _ => eats_ident.same.bind fun name => ?_
  have hbody : ∀ params : List Param, Same k (do
      let _ ← expect .rightParen
      let body ← block
      alloc (.function returnType name params body) (← spanFrom returnType.span)) (do
      let _ ← expect .rightParen
      let body ← block
      alloc (.function returnType name params body) (← spanFrom returnType.span)) :=
    fun params => (same_expect _).bind fun _ => eats_block.same.bind fun _ => same_spanned _ _
  refine (same_expect _).bind fun _ => (Same.of_quiet (quiet_check _)).bind fun b => ?_
  split
  · exact (Same.pure []).bind hbody
  · exact (same_separated eats_param.same).bind hbody

theorem eats_accessors : Eats n accessors accessors :=
  (eats_expect (by simp)).bind fun _ _ _ => (Same.of_quiet quiet_limit).bind fun turns =>
    (Same.of_quiet (quiet_accessorsTo turns)).bind fun _ => (same_expect _).bind fun _ => .pure _

theorem eats_classMember : Eats n classMember classMember := by
  refine (Same.of_quiet quiet_isFunctionDecl).bind_eats fun b => ?_
  split
  · exact eats_function
  · refine eats_type.bind fun declared k _ => eats_ident.same.bind fun name => ?_
    refine (Same.of_quiet (quiet_check _)).bind fun braced => ?_
    split
    · exact eats_accessors.same.bind fun _ => same_spanned _ _
    · exact same_initializer.bind fun _ => (same_expect _).bind fun _ => same_spanned _ _

theorem eats_classDecl : Eats n classDecl classDecl :=
  (eats_expect (by simp)).bind fun _ _ _ => eats_ident.same.bind fun _ => (same_expect _).bind fun _ =>
    Same.bind (same_items eats_classMember) fun _ => (same_expect _).bind fun _ => same_spanned _ _

theorem eats_item : Eats n item item := by
  refine (Same.of_quiet (quiet_check _)).bind_eats fun b => ?_
  split
  · exact eats_classDecl
  · refine (Same.of_quiet quiet_isFunctionDecl).bind_eats fun b => ?_
    split
    · exact eats_function
    · exact eats_statement

end Programs

end Parse

/-! ## 9. Looking ahead -/

namespace TypeScan

variable {n : Nat} {f g rest rest' : List Token → Option (List Token)}

/-- On at most `n` tokens the two look the same way ahead, over a token at least. -/
def Looks (n : Nat) (f g : List Token → Option (List Token)) : Prop :=
  ∀ ts, ts.length ≤ n → f ts = g ts ∧ ∀ us, f ts = some us → us <:+ ts ∧ us.length < ts.length

theorem Looks.symm (h : Looks n f g) : Looks n g f :=
  fun ts hts => ⟨(h ts hts).1.symm, (h ts hts).1 ▸ (h ts hts).2⟩

theorem Looks.trans {e : List Token → Option (List Token)} (h : Looks n f g) (h' : Looks n g e) :
    Looks n f e :=
  fun ts hts => ⟨(h ts hts).1.trans (h' ts hts).1, (h ts hts).2⟩

end TypeScan

/-! ## 10. The whole parser -/

namespace Parse

/-- The activities of the parser. -/
inductive Routine : {α : Type} → Parse α → Prop
  | peek : Routine peek
  | check (kind : TokenKind) : Routine (check kind)
  | checkWord (word : String) : Routine (checkWord word)
  | atEnd : Routine atEnd
  | isVarDecl : Routine isVarDecl
  | isFunctionDecl : Routine isFunctionDecl
  | alloc (c : Construct) (span : Span) : Routine (alloc c span)
  | advance : Routine advance
  | eat (kind : TokenKind) : Routine (eat kind)
  | expect (kind : TokenKind) : Routine (expect kind)
  | ident : Routine ident
  | synchronize (before : Nat) : Routine (synchronize before)
  | separated {α : Type} {x : Parse α} : Routine x → Routine (separated x)
  | type : Routine type
  | arguments : Routine (argumentsWith expr)
  | cast : Routine (castWith expr)
  | operand : Routine (operandWith expr)
  | expr (power : Nat) : Routine (expr power)
  | exprStmt : Routine exprStmt
  | initializer : Routine initializer
  | declarator : Routine declarator
  | localDecl : Routine localDecl
  | returnStmt : Routine returnStmt
  | yieldStmt : Routine yieldStmt
  | jumpStmt (c : Construct) : Routine (jumpStmt c)
  | emptyStmt : Routine emptyStmt
  | condition : Routine condition
  | ifStmt : Routine (ifWith statement)
  | whileStmt : Routine (whileWith statement)
  | doStmt : Routine (doWith statement)
  | block : Routine block
  | statement : Routine statement
  | param : Routine param
  | function : Routine function
  | accessors : Routine accessors
  | classMember : Routine classMember
  | classDecl : Routine classDecl
  | item : Routine item
  | program : Routine program

/-- **Every activity of the parser goes forward.** -/
theorem Routine.same {α : Type} {x : Parse α} (h : Routine x) (n : Nat) : Same n x x := by
  induction h with
  | peek => exact .of_quiet quiet_peek
  | check kind => exact .of_quiet (quiet_check kind)
  | checkWord word => exact .of_quiet (quiet_checkWord word)
  | atEnd => exact .of_quiet quiet_atEnd
  | isVarDecl => exact .of_quiet quiet_isVarDecl
  | isFunctionDecl => exact .of_quiet quiet_isFunctionDecl
  | alloc c span => exact same_alloc c span
  | advance => exact .of_quiet quiet_advance
  | eat kind => exact .of_quiet (quiet_eat kind)
  | expect kind => exact same_expect kind
  | ident => exact eats_ident.same
  | synchronize before => exact .of_quiet (quiet_synchronize before)
  | separated _ ih => exact same_separated ih
  | type => exact eats_type.same
  | arguments => exact (eats_argumentsWith fun _ _ power => (eats_expr power).same).same
  | cast => exact (eats_castWith fun _ _ power => (eats_expr power).same).same
  | operand => exact (eats_operandWith fun _ _ power => (eats_expr power).same).same
  | expr power => exact (eats_expr power).same
  | exprStmt => exact eats_exprStmt.same
  | initializer => exact same_initializer
  | declarator => exact eats_declarator.same
  | localDecl => exact eats_localDecl.same
  | returnStmt => exact eats_returnStmt.same
  | yieldStmt => exact eats_yieldStmt.same
  | jumpStmt c =>
    exact (Same.of_quiet quiet_advance).bind fun _ => (same_expect _).bind fun _ => same_spanned c _
  | emptyStmt => exact (Same.of_quiet quiet_advance).bind fun _ => same_alloc _ _
  | condition => exact eats_condition.same
  | ifStmt => exact (eats_ifWith fun _ _ => eats_statement).same
  | whileStmt => exact (eats_whileWith fun _ _ => eats_statement).same
  | doStmt => exact (eats_doWith fun _ _ => eats_statement).same
  | block => exact eats_block.same
  | statement => exact eats_statement.same
  | param => exact eats_param.same
  | function => exact eats_function.same
  | accessors => exact eats_accessors.same
  | classMember => exact eats_classMember.same
  | classDecl => exact eats_classDecl.same
  | item => exact eats_item.same
  | program =>
    refine Same.bind (same_items eats_item) fun items => (Same.of_quiet quiet_get).bind fun p => ?_
    exact (same_alloc _ _).bind fun _ _ _ => ⟨rfl, List.suffix_refl _⟩

end Parse

end Recast
