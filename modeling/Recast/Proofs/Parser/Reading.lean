/-
# Activities that only read

Types, parameters, accessors and single tokens are read without a trace: the tokens go, and neither the
tree nor the recorded errors change, whether the reading succeeds or fails.  If it fails, it fails at the
token in front of which it has stopped.

* `ReadsAt x p`: at `p` the activity `x` does nothing else;
* `OnlyReads x`: nowhere does it anything else, with one rule for each way to build an activity;
* `onlyReads_type`, `onlyReads_param`, `onlyReads_accessors`: **the activities that build no node only
  read**;
* `onlyReads_synchronize`: so does the recovery after a failure.
-/
import Recast.Proofs.Grammar.Type

namespace Recast.Parse

variable {α β : Type} {p q : Parser} {ts : List Token} {x : Parse α} {f : α → Parse β}

/-! ## 1. One rule for each way to build an activity -/

theorem JustRead.refl (p : Parser) : JustRead p [] p := ⟨rfl, rfl⟩

theorem JustRead.tree_eq (h : JustRead p ts q) : q.tree = p.tree := by
  rw [h.2, Parser.read_tree]

theorem JustRead.errors_eq (h : JustRead p ts q) : q.errors = p.errors := by
  rw [h.2, Parser.read_errors]

theorem JustRead.endSpan_eq (h : JustRead p ts q) : q.endSpan = p.endSpan := by
  rw [h.2, Parser.read_endSpan]

/-- At `p` the activity reads tokens and does nothing else; if it fails, then at the next token. -/
structure ReadsAt (x : Parse α) (p : Parser) : Prop where
  read : ∃ ts, JustRead p ts (x p).2
  fails : ∀ e, (x p).1 = .error e → e.span = (x p).2.peek.span ∧ e.kind ≠ .lexerError

/-- The activity does nothing but read tokens. -/
def OnlyReads (x : Parse α) : Prop := ∀ p, ReadsAt x p

/-- What follows starts where the first part ended. -/
theorem ReadsAt.bind (h : ReadsAt x p) (hf : ∀ a q, x p = (.ok a, q) → ReadsAt (f a) q) :
    ReadsAt (x >>= f) p := by
  obtain ⟨ts, hts⟩ := h.read
  rcases hx : x p with ⟨e | a, q⟩
  · have hb : (x >>= f) p = (.error e, q) := bind_of_error hx
    rw [hx] at hts
    refine ⟨⟨ts, by rwa [hb]⟩, fun e' he' => ?_⟩
    rw [hb] at he' ⊢
    cases he'
    have := h.fails e (by rw [hx])
    rwa [hx] at this
  · have hb : (x >>= f) p = f a q := bind_of_ok hx
    rw [hx] at hts
    obtain ⟨⟨us, hus⟩, hfails⟩ := hf a q hx
    exact ⟨⟨ts ++ us, by rw [hb]; exact hts.trans hus⟩, by rwa [hb]⟩

theorem OnlyReads.bind (hx : OnlyReads x) (hf : ∀ a, OnlyReads (f a)) : OnlyReads (x >>= f) :=
  fun p => (hx p).bind fun a q _ => hf a q

/-- What asks and leaves the parser as it is reads nothing. -/
theorem OnlyReads.ask (h : ∀ p, ∃ a, x p = (.ok a, p)) : OnlyReads x := by
  intro p
  obtain ⟨a, ha⟩ := h p
  refine ⟨⟨[], by rw [ha]; exact .refl p⟩, fun e he => ?_⟩
  rw [ha] at he
  cases he

theorem OnlyReads.pure (a : α) : OnlyReads (Pure.pure a : Parse α) := .ask fun _ => ⟨a, rfl⟩

/-- A failure at the next token reads nothing. -/
theorem readsAt_throw {e : ParseError} (hs : e.span = p.peek.span) (hk : e.kind ≠ .lexerError) :
    ReadsAt (MonadExcept.throw e : Parse α) p := by
  refine ⟨⟨[], .refl p⟩, fun e' he' => ?_⟩
  cases he'
  exact ⟨hs, hk⟩

/-- What is done after a look at the next token may depend on where it is done. -/
theorem onlyReads_peek {f : Token → Parse β} (h : ∀ p, ReadsAt (f p.peek) p) :
    OnlyReads (peek >>= f) := fun p => (OnlyReads.ask (fun p => ⟨p.peek, rfl⟩) p).bind <| by
  rintro _ _ ⟨⟩
  exact h p

theorem onlyReads_exhausted : OnlyReads (exhausted : Parse α) :=
  onlyReads_peek fun _ => readsAt_throw rfl (by simp)

/-- The next token is read, or there is none. -/
theorem justRead_advance (p : Parser) : ∃ ts q, advance p = (.ok p.peek, q) ∧ JustRead p ts q := by
  cases hp : p.tokens with
  | nil => exact ⟨[], p, advance_of_eq_nil hp, .refl p⟩
  | cons t ts =>
    rw [Parser.peek_of_eq_cons hp]
    exact ⟨[t], _, advance_of_eq_cons hp, .one hp⟩

theorem onlyReads_advance : OnlyReads advance := by
  intro p
  obtain ⟨ts, q, hq, hread⟩ := justRead_advance p
  refine ⟨⟨ts, by rwa [hq]⟩, fun e he => ?_⟩
  rw [hq] at he
  cases he

/-! ## 2. Tokens and sequences -/

theorem onlyReads_expect (k : TokenKind) : OnlyReads (expect k) := by
  refine onlyReads_peek fun p => ?_
  split
  · exact onlyReads_advance p
  · split
    · exact readsAt_throw rfl (by simp)
    · exact readsAt_throw rfl (by simp [ParseError.ofExpectedToken])

theorem onlyReads_ident : OnlyReads ident := by
  refine onlyReads_peek fun p => ?_
  split
  · exact onlyReads_advance.bind (fun _ => .pure _) p
  · exact readsAt_throw rfl (by simp)

theorem onlyReads_check (k : TokenKind) : OnlyReads (check k) := .ask fun p => ⟨_, check_apply k p⟩

theorem onlyReads_limit : OnlyReads limit := .ask fun p => ⟨_, limit_apply p⟩

theorem onlyReads_eat (k : TokenKind) : OnlyReads (eat k) := by
  refine (onlyReads_check k).bind fun b => ?_
  split
  · exact onlyReads_advance.bind fun _ => .pure true
  · exact .pure false

theorem onlyReads_separatedTo (h : OnlyReads x) : ∀ turns, OnlyReads (separatedTo x turns)
  | 0 => onlyReads_exhausted
  | turns + 1 => by
    refine h.bind fun a => (onlyReads_eat _).bind fun b => ?_
    split
    · exact (onlyReads_separatedTo h turns).bind fun more => .pure (a :: more)
    · exact .pure [a]

theorem onlyReads_separated (h : OnlyReads x) : OnlyReads (separated x) :=
  onlyReads_limit.bind fun n => onlyReads_separatedTo h n

/-! ## 3. Types and what they stand in -/

theorem onlyReads_brackets : ∀ pairs, OnlyReads (brackets pairs)
  | 0 => .pure ()
  | pairs + 1 =>
    onlyReads_advance.bind fun _ => onlyReads_advance.bind fun _ => onlyReads_brackets pairs

theorem onlyReads_typeWith {argument : Parse WrittenType} (h : OnlyReads argument) :
    OnlyReads (typeWith argument) := by
  have hrank : ∀ (token : Token) (args : List WrittenType), OnlyReads (do
      let pairs := TypeScan.bracketPairs (← get).tokens
      brackets pairs
      pure (WrittenType.mk token.lexeme args (min pairs maxRank) (← spanFrom token.span))) := by
    intro token args
    refine OnlyReads.bind (.ask fun p => ⟨p, rfl⟩) fun p => (onlyReads_brackets _).bind fun _ => ?_
    exact OnlyReads.bind (.ask fun p => ⟨_, spanFrom_apply _ p⟩) fun _ => .pure _
  refine onlyReads_peek fun p => ?_
  dsimp only
  split
  · refine (readsAt_throw rfl (by simp [ParseError.ofExpectedType])).bind fun _ _ he => ?_
    cases he
  · refine onlyReads_advance.bind (fun _ => (onlyReads_eat _).bind fun b => ?_) p
    split
    · refine (onlyReads_separated h).bind fun args => (onlyReads_expect _).bind fun _ => ?_
      exact (OnlyReads.pure args).bind fun args => hrank _ args
    · exact (OnlyReads.pure []).bind fun args => hrank _ args

theorem onlyReads_typeTo : ∀ depth, OnlyReads (typeTo depth)
  | 0 => onlyReads_exhausted
  | depth + 1 => onlyReads_typeWith (onlyReads_typeTo depth)

/-- **A type is only read.** -/
theorem onlyReads_type : OnlyReads type := onlyReads_limit.bind onlyReads_typeTo

theorem onlyReads_param : OnlyReads param :=
  onlyReads_type.bind fun _ => onlyReads_ident.bind fun _ => .pure _

theorem onlyReads_accessorsTo : ∀ turns, OnlyReads (accessorsTo turns)
  | 0 => onlyReads_exhausted
  | turns + 1 => by
    have hword : ∀ word, OnlyReads (checkWord word) := fun word => .ask fun p => ⟨_, rfl⟩
    refine (onlyReads_check _).bind fun closed => ?_
    split
    · exact .pure false
    · refine (hword _).bind fun isSet => (hword _).bind fun isGet => ?_
      split
      · refine onlyReads_advance.bind fun _ => (onlyReads_expect _).bind fun _ => ?_
        exact (onlyReads_accessorsTo turns).bind fun more => .pure _
      · exact onlyReads_peek fun p => readsAt_throw rfl (by simp [ParseError.ofExpectedToken])

theorem onlyReads_accessors : OnlyReads accessors :=
  (onlyReads_expect _).bind fun _ => onlyReads_limit.bind fun n => (onlyReads_accessorsTo n).bind
    fun _ => (onlyReads_expect _).bind fun _ => .pure _

/-! ## 4. Recovery -/

/-- Skipped tokens are read. -/
theorem exists_justRead_skipStatement : ∀ (ts : List Token) (p : Parser), p.tokens = ts →
    ∃ us, JustRead p us
      { p with
        tokens := (skipStatement ts p.lastSpan).1
        lastSpan := (skipStatement ts p.lastSpan).2 }
  | [], _, hp => ⟨[], hp, rfl⟩
  | t :: ts, p, hp => by
    unfold skipStatement
    split
    · exact ⟨[t], .one hp⟩
    · split
      · exact ⟨[], hp, rfl⟩
      · obtain ⟨us, hus⟩ := exists_justRead_skipStatement ts (p.read [t] ts) rfl
        exact ⟨t :: us, (JustRead.one hp).trans hus⟩

/-- **After a failure tokens are only read.** -/
theorem onlyReads_synchronize (before : Nat) : OnlyReads (synchronize before) := by
  have hskip : OnlyReads (modify fun p =>
      { p with
        tokens := (skipStatement p.tokens p.lastSpan).1
        lastSpan := (skipStatement p.tokens p.lastSpan).2 } : Parse PUnit) := by
    intro p
    exact ⟨exists_justRead_skipStatement p.tokens p rfl, fun e he => by cases he⟩
  refine OnlyReads.bind (.ask fun p => ⟨p, rfl⟩) fun p => ?_
  split
  · exact onlyReads_advance.bind fun _ => hskip
  · exact hskip

end Recast.Parse
