/-
# Running a parser

A `Parse` is a function from a parser to a result and the parser afterwards.  This module says what
each of its building blocks does to the parser, once, so that no later proof opens them again.

* the single-token activities either read the token in front or leave everything as it is
  (`expect_eq_ok`, `ident_eq_ok`, `eat_of_eq`, `eat_of_ne`).
-/
import Recast.Parser.Program
import Recast.Proofs.Sequence

namespace Recast

/-- The parser after it has read the tokens `ts`, in front of the tokens `rest`. -/
def Parser.read (p : Parser) (ts rest : List Token) : Parser :=
  { p with tokens := rest, lastSpan := (ts.getLast?.map Token.span).getD p.lastSpan }

namespace Parser

variable {p : Parser} {ts us rest : List Token} {t : Token}

@[simp] theorem read_tokens : (p.read ts rest).tokens = rest := rfl

@[simp] theorem read_tree : (p.read ts rest).tree = p.tree := rfl

@[simp] theorem read_errors : (p.read ts rest).errors = p.errors := rfl

@[simp] theorem read_endSpan : (p.read ts rest).endSpan = p.endSpan := rfl

@[simp] theorem read_textSize : (p.read ts rest).textSize = p.textSize := rfl

/-- Reading twice is reading everything at once. -/
theorem read_read {mid : List Token} :
    (p.read ts mid).read us rest = p.read (ts ++ us) rest := by
  cases us with
  | nil => simp [read]
  | cons u us => simp [read, List.getLast?_append, List.getLast?_cons]

theorem read_nil (p : Parser) : p.read [] p.tokens = p := rfl

/-- The place of the token read last. -/
theorem read_lastSpan (h : ts.getLast? = some t) : (p.read ts rest).lastSpan = t.span := by
  simp [read, h]

/-- The kind of the token in front, `eof` at the end. -/
def headKind (ts : List Token) : TokenKind := (ts.head?.map Token.kind).getD .eof

@[simp] theorem headKind_nil : headKind [] = .eof := rfl

@[simp] theorem headKind_cons : headKind (t :: ts) = t.kind := rfl

/-- The token in front decides what the parser sees. -/
theorem kind_peek (p : Parser) : p.peek.kind = headKind p.tokens := by
  unfold peek
  cases p.tokens <;> rfl

theorem peek_of_eq_cons (h : p.tokens = t :: ts) : p.peek = t := by
  simp [peek, h]

end Parser

namespace Parse

open Recast.Parser

variable {α β : Type} {p q : Parser} {t : Token} {ts : List Token} {k : TokenKind}

/-! ## 1. Results -/

@[simp] theorem pure_apply (a : α) (p : Parser) : (pure a : Parse α) p = (.ok a, p) := rfl

@[simp] theorem throw_apply (e : ParseError) (p : Parser) :
    (throw e : Parse α) p = (.error e, p) := rfl

@[simp] theorem get_apply (p : Parser) : (get : Parse Parser) p = (.ok p, p) := rfl

@[simp] theorem modify_apply (f : Parser → Parser) (p : Parser) :
    (modify f : Parse PUnit) p = (.ok ⟨⟩, f p) := rfl

@[simp] theorem exhausted_ne_ok (p q : Parser) (a : α) : exhausted p ≠ (.ok a, q) := by
  intro h
  cases h

/-! ## 2. Questions -/

@[simp] theorem peek_apply (p : Parser) : peek p = (.ok p.peek, p) := rfl

@[simp] theorem check_apply (k : TokenKind) (p : Parser) :
    check k p = (.ok (headKind p.tokens = k), p) := by
  rw [← kind_peek]
  rfl

@[simp] theorem atEnd_apply (p : Parser) : atEnd p = (.ok p.tokens.isEmpty, p) := rfl

@[simp] theorem limit_apply (p : Parser) : limit p = (.ok (p.tokens.length + 1), p) := rfl

@[simp] theorem spanFrom_apply (s : Span) (p : Parser) :
    spanFrom s p = (.ok (s.merge p.lastSpan), p) := rfl

@[simp] theorem spanOf_apply (id : NodeId) (p : Parser) :
    spanOf id p = (.ok (p.tree.spanOf id), p) := rfl

@[simp] theorem alloc_apply (c : Construct) (s : Span) (p : Parser) :
    alloc c s p = (.ok p.tree.size, { p with tree := (p.tree.alloc c s).2 }) := rfl

@[simp] theorem isVarDecl_apply (p : Parser) :
    isVarDecl p = (.ok (TypeScan.isVarDecl p.tokens), p) := rfl

@[simp] theorem isFunctionDecl_apply (p : Parser) :
    isFunctionDecl p = (.ok (TypeScan.isFunctionDecl p.tokens), p) := rfl

/-! ## 3. Single tokens -/

theorem advance_of_eq_cons (h : p.tokens = t :: ts) : advance p = (.ok t, p.read [t] ts) := by
  simp only [advance, bind_apply, get_apply]
  rw [h]
  rfl

/-- At the end of the text nothing is read. -/
theorem advance_of_eq_nil (h : p.tokens = []) : advance p = (.ok p.peek, p) := by
  simp only [advance, bind_apply, get_apply]
  rw [h]
  rfl

theorem expect_of_eq_cons (h : p.tokens = t :: ts) (hk : t.kind = k) :
    expect k p = (.ok t, p.read [t] ts) := by
  simp only [expect, bind_apply, peek_apply, peek_of_eq_cons h, hk, if_true]
  exact advance_of_eq_cons h

/-- A token that is expected is the one in front. -/
theorem expect_eq_ok (hk : k ≠ .eof) :
    expect k p = (.ok t, q) ↔ ∃ ts, p.tokens = t :: ts ∧ t.kind = k ∧ q = p.read [t] ts := by
  constructor
  · intro h
    cases hp : p.tokens with
    | nil =>
      simp only [expect, bind_apply, peek_apply, kind_peek, hp, headKind_nil] at h
      rw [if_neg (Ne.symm hk), if_pos trivial] at h
      cases h
    | cons u us =>
      by_cases hu : u.kind = k
      · rw [expect_of_eq_cons hp hu] at h
        cases h
        exact ⟨us, rfl, hu, rfl⟩
      · simp only [expect, bind_apply, peek_apply, peek_of_eq_cons hp] at h
        rw [if_neg hu] at h
        split at h <;> cases h
  · rintro ⟨ts, hp, hu, rfl⟩
    exact expect_of_eq_cons hp hu

theorem ident_of_eq_cons (h : p.tokens = t :: ts) (hk : t.kind = .identifier) :
    ident p = (.ok ⟨t.lexeme, t.span⟩, p.read [t] ts) := by
  simp only [ident, bind_apply, peek_apply, peek_of_eq_cons h, hk, if_true, advance_of_eq_cons h]
  rfl

theorem ident_eq_ok {name : Ident} :
    ident p = (.ok name, q) ↔ ∃ t ts, p.tokens = t :: ts ∧ t.kind = .identifier ∧
      name = ⟨t.lexeme, t.span⟩ ∧ q = p.read [t] ts := by
  constructor
  · intro h
    by_cases hk : headKind p.tokens = .identifier
    · cases hp : p.tokens with
      | nil => simp [hp] at hk
      | cons u us =>
        rw [hp, headKind_cons] at hk
        rw [ident_of_eq_cons hp hk] at h
        cases h
        exact ⟨u, us, rfl, hk, rfl, rfl⟩
    · simp only [ident, bind_apply, peek_apply, kind_peek] at h
      rw [if_neg hk] at h
      cases h
  · rintro ⟨t, ts, hp, hk, rfl, rfl⟩
    exact ident_of_eq_cons hp hk

/-- A token of the kind in question is eaten. -/
theorem eat_of_eq (h : p.tokens = t :: ts) (hk : t.kind = k) :
    eat k p = (.ok true, p.read [t] ts) := by
  simp only [eat, bind_apply, check_apply, h, headKind_cons, hk, decide_true, if_true,
    advance_of_eq_cons h]
  rfl

/-- Any other token stays. -/
theorem eat_of_ne (h : headKind p.tokens ≠ k) : eat k p = (.ok false, p) := by
  simp [eat, bind_apply, h]

theorem eat_eq_ok (hk : k ≠ .eof) {b : Bool} :
    eat k p = (.ok b, q) ↔
      (b = true ∧ ∃ t ts, p.tokens = t :: ts ∧ t.kind = k ∧ q = p.read [t] ts) ∨
      (b = false ∧ headKind p.tokens ≠ k ∧ q = p) := by
  by_cases h : headKind p.tokens = k
  · cases hp : p.tokens with
    | nil =>
      rw [hp, headKind_nil] at h
      exact absurd h.symm hk
    | cons u us =>
      rw [hp, headKind_cons] at h
      rw [eat_of_eq hp h]
      constructor
      · intro he
        cases he
        exact .inl ⟨rfl, u, us, rfl, h, rfl⟩
      · rintro (⟨rfl, t, ts, ht, -, rfl⟩ | ⟨-, hn, -⟩)
        · cases ht
          rfl
        · exact absurd h hn
  · rw [eat_of_ne h]
    constructor
    · intro he
      cases he
      exact .inr ⟨rfl, h, rfl⟩
    · rintro (⟨rfl, t, ts, ht, hkt, -⟩ | ⟨rfl, -, rfl⟩)
      · rw [ht, headKind_cons] at h
        exact absurd hkt h
      · rfl

/-! ## 4. Sequences with commas -/

/-- One more item is read exactly when a comma follows. -/
theorem separatedTo_eq_ok {item : Parse α} {turns : Nat} {as : List α} :
    separatedTo item (turns + 1) p = (.ok as, q) ↔ ∃ a r, item p = (.ok a, r) ∧
      ((headKind r.tokens ≠ .comma ∧ as = [a] ∧ q = r) ∨
        ∃ c rest more, r.tokens = c :: rest ∧ c.kind = .comma ∧
          separatedTo item turns (r.read [c] rest) = (.ok more, q) ∧ as = a :: more) := by
  simp only [separatedTo, bind_eq_ok]
  constructor
  · rintro ⟨a, r, hi, b, s, he, h⟩
    refine ⟨a, r, hi, ?_⟩
    rcases (eat_eq_ok (by simp)).mp he with ⟨rfl, c, rest, hr, hc, rfl⟩ | ⟨rfl, hn, rfl⟩
    · rw [if_pos rfl, bind_eq_ok] at h
      obtain ⟨more, v, hm, hp⟩ := h
      cases hp
      exact .inr ⟨c, rest, more, hr, hc, hm, rfl⟩
    · rw [if_neg (by simp)] at h
      cases h
      exact .inl ⟨hn, rfl, rfl⟩
  · rintro ⟨a, r, hi, ⟨hn, rfl, rfl⟩ | ⟨c, rest, more, hr, hc, hm, rfl⟩⟩
    · exact ⟨a, q, hi, false, q, eat_of_ne hn, rfl⟩
    · refine ⟨a, r, hi, true, r.read [c] rest, eat_of_eq hr hc, ?_⟩
      rw [if_pos rfl, bind_eq_ok]
      exact ⟨more, q, hm, rfl⟩

theorem separated_apply (item : Parse α) (p : Parser) :
    separated item p = separatedTo item (p.tokens.length + 1) p := rfl

/-! ## 5. Nesting -/

theorem expr_apply (power : Nat) (p : Parser) :
    expr power p = exprTo (p.tokens.length + 1) power p := bind_of_ok (limit_apply p)

theorem statement_apply (p : Parser) : statement p = statementTo (p.tokens.length + 1) p :=
  bind_of_ok (limit_apply p)

/-! ## 6. Items -/

/-- The parser after an item has failed at it: the error is recorded, and the rest of the item is
skipped. -/
def recover (before : Nat) (e : ParseError) (p : Parser) : Parser :=
  (do record e; synchronize before : Parse Unit) p |>.2

/-- Whether the items end here. -/
def closed (braced : Bool) (p : Parser) : Bool :=
  (braced && headKind p.tokens = .rightBrace) || p.tokens.isEmpty

theorem synchronize_apply (before : Nat) (p : Parser) :
    ∃ q, synchronize before p = (.ok (), q) := by
  by_cases h : p.tokens.length = before
  · cases hp : p.tokens with
    | nil =>
      simp only [synchronize, bind_apply, get_apply, h, if_true, advance_of_eq_nil hp, modify_apply]
      exact ⟨_, rfl⟩
    | cons t ts =>
      simp only [synchronize, bind_apply, get_apply, h, if_true, advance_of_eq_cons hp,
        modify_apply]
      exact ⟨_, rfl⟩
  · simp only [synchronize, bind_apply, get_apply, h, if_false, modify_apply]
    exact ⟨_, rfl⟩

section Items

variable {braced : Bool} {item : Parse NodeId} {turns : Nat}

theorem itemsTo_of_closed (h : closed braced p = true) :
    itemsTo braced item (turns + 1) p = (.ok [], p) := by
  cases braced <;> simp_all [itemsTo, bind_apply, closed]

/-- An item that succeeds comes before the items after it. -/
theorem itemsTo_of_ok {r : Parser} {id : NodeId} {ids : List NodeId}
    (h : closed braced p = false) (hi : item p = (.ok id, q))
    (hr : itemsTo braced item turns q = (.ok ids, r)) :
    itemsTo braced item (turns + 1) p = (.ok (id :: ids), r) := by
  have ha : attempt item p = (.ok (.ok id), q) := by
    simp [attempt, hi]
  cases braced <;> simp_all [-bind_pure_comp, itemsTo, bind_apply, closed]

/-- An item that fails is left out. -/
theorem itemsTo_of_error {e : ParseError} (h : closed braced p = false)
    (hi : item p = (.error e, q)) :
    itemsTo braced item (turns + 1) p = itemsTo braced item turns (recover p.tokens.length e q) := by
  have ha : attempt item p = (.ok (.error e), q) := by
    simp [attempt, hi]
  obtain ⟨r, hr⟩ := synchronize_apply p.tokens.length { q with errors := q.errors ++ [e] }
  have hrec : recover p.tokens.length e q = r := by
    simp [recover, bind_apply, record, hr]
  rw [hrec]
  cases braced <;> simp_all [itemsTo, bind_apply, closed, record]

/-- **Reading items always comes to an end**, whatever the items are. -/
theorem itemsTo_eq_ok (braced : Bool) (item : Parse NodeId) : ∀ (turns : Nat) (p : Parser),
    ∃ ids q, itemsTo braced item turns p = (.ok ids, q)
  | 0, p => ⟨[], p, rfl⟩
  | turns + 1, p => by
    cases h : closed braced p with
    | true => exact ⟨[], p, itemsTo_of_closed h⟩
    | false =>
      rcases hi : item p with ⟨e | id, q⟩
      · rw [itemsTo_of_error h hi]
        exact itemsTo_eq_ok braced item turns _
      · obtain ⟨ids, r, hr⟩ := itemsTo_eq_ok braced item turns q
        exact ⟨id :: ids, r, itemsTo_of_ok h hi hr⟩

end Items

end Parse

end Recast
