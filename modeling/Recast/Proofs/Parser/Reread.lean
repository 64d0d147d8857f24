/-
# Reading expressions again

The converse of `Recast.Proofs.Parser.Sound`: tokens that spell a tree which fits its role are read
as a tree of the same shape, whatever other trees they spell, and wherever they stand.

* `Consumed p ts q`: between the parsers `p` and `q` exactly the tokens `ts` were read, without
  errors; `Rebuilds t id x p ts`: the activity `x` does so and yields a tree like the one at `id`;
* `Rereads t l r id`: an operand is read, and then every operator on the way from it up to `id`.
  So an operator needs to know its left operand only by its powers (`rereads_member` and the lemmas
  after it);
* `Fits.rebuilds_expr`: **an expression is read as itself**, before a token that is no operator.
-/
import Recast.Proofs.Parser.Sound

namespace Recast

open Recast.Parser (headKind)
open SyntaxTree

/-! ## 1. Tokens read without errors -/

/-- Exactly the tokens `ts` were read, and no error was recorded. -/
structure Consumed (p : Parser) (ts : List Token) (q : Parser) : Prop where
  tree : p.tree.Extends q.tree
  tokens : p.tokens = ts ++ q.tokens
  errors : q.errors = p.errors

/-- The activity reads exactly the tokens `ts` and yields a tree like the one at `id`. -/
def Rebuilds (t : SyntaxTree) (id : NodeId) (x : Parse NodeId) (p : Parser) (ts : List Token) :
    Prop :=
  ∃ id' q, x p = (.ok id', q) ∧ Consumed p ts q ∧ SameShape t q.tree [id] [id']

/-- What does the same at a parser rebuilds the same there. -/
theorem Rebuilds.congr {t : SyntaxTree} {id : NodeId} {x y : Parse NodeId} {p : Parser}
    {ts : List Token} (h : Rebuilds t id x p ts) (he : y p = x p) : Rebuilds t id y p ts := by
  obtain ⟨id', q, hx, hcons, hshape⟩ := h
  exact ⟨id', q, he.trans hx, hcons, hshape⟩

namespace Consumed

variable {p q r : Parser} {ts us rest : List Token}

theorem refl (p : Parser) : Consumed p [] p := ⟨.refl _, rfl, rfl⟩

theorem trans (h : Consumed p ts q) (h' : Consumed q us r) : Consumed p (ts ++ us) r where
  tree := h.tree.trans h'.tree
  tokens := by rw [h.tokens, h'.tokens, List.append_assoc]
  errors := h'.errors.trans h.errors

theorem read (h : p.tokens = ts ++ rest) : Consumed p ts (p.read ts rest) := ⟨.refl _, h, rfl⟩

theorem token {a : Token} (h : p.tokens = a :: rest) : Consumed p [a] (p.read [a] rest) := .read h

/-- What is left is what stood after the tokens. -/
theorem tokens_eq (h : Consumed p ts q) (hp : p.tokens = ts ++ rest) : q.tokens = rest :=
  List.append_cancel_left (h.tokens.symm.trans hp)

/-- **A new node with the outline of an old one, over trees of the same shapes, has its shape.** -/
theorem rebuilds {t : SyntaxTree} {id : NodeId} {c d : Construct} {x : Parse NodeId}
    (h : Consumed p ts q) (hc : t.construct? id = some c)
    (ho : c.outline = d.outline) (hk : SameShape t q.tree c.children d.children)
    (hx : ∃ span, x p = Parse.alloc d span q) : Rebuilds t id x p ts := by
  obtain ⟨span, hx⟩ := hx
  have he : q.tree.Extends (q.tree.alloc d span).2 := .alloc _ _ _
  refine ⟨q.tree.size, { q with tree := (q.tree.alloc d span).2 }, hx, ?_, ?_⟩
  · exact ⟨h.tree.trans he, h.tokens, h.errors⟩
  · refine .node hc ?_ ho (hk.mono (.refl _) he)
    rw [construct?_alloc, if_pos rfl]

end Consumed

theorem Parser.headKind_append {ts : List Token} (h : ts ≠ []) (rest : List Token) :
    headKind (ts ++ rest) = headKind ts := by
  cases ts with
  | nil => exact absurd rfl h
  | cons a ts => rfl

/-! ## 2. How expressions start -/

/-- The kinds of the tokens that an expression can start with. -/
def TokenKind.startsExpr : TokenKind → Bool
  | intLiteral | longLiteral | floatLiteral | doubleLiteral | stringLiteral | trueWord | falseWord
  | nullWord | minus | bang | leftParen | newWord | castWord | identifier => true
  | _ => false

/-- Every expression starts with a token of such a kind. -/
theorem Fits.startsExpr {t : SyntaxTree} {role : Role} {id : NodeId} (h : Fits t role id) :
    ∀ {l r : Nat} {ts : List Token}, role = .expr l r → Spells t Anywhere [.node id] ts →
      (headKind ts).startsExpr = true := by
  induction h with
  | @node role id c ρ hc ha _ ih =>
    rintro l r ts rfl hs
    have hk := hs.pieces hc
    -- the first piece is a node, or a token of its own
    have hnode : ∀ {e : NodeId} {ps : List Piece} {l r : Nat}, c.pieces = .node e :: ps →
        e ∈ c.children → ρ e = .expr l r → (headKind ts).startsExpr = true := by
      intro e ps l r hp he hρ
      rw [hp] at hk
      obtain ⟨us, vs, rfl, hus, -⟩ := Spells.node_cons_iff.mp hk
      have hstart := ih e he hρ hus
      cases us with
      | nil => cases hstart
      | cons a us => exact hstart
    have hsign : ∀ {k : TokenKind} {ps : List Piece}, c.pieces = .sign k :: ps →
        k.startsExpr = true → (headKind ts).startsExpr = true := by
      intro k ps hp hk'
      rw [hp] at hk
      obtain ⟨a, us, rfl, ha, -⟩ := Spells.sign_iff.mp hk
      rwa [Parser.headKind_cons, ha]
    cases ha with
    | @literal v =>
      obtain ⟨a, us, rfl, ha, -⟩ := Spells.literal_iff.mp hk
      rw [Parser.headKind_cons, Token.kind_of_literal? ha]
      rcases v with _ | _ | _ | _ | _ | (_ | _) | _ <;> rfl
    | ident =>
      obtain ⟨a, us, rfl, ⟨ha, -⟩, -⟩ := Spells.name_iff.mp hk
      rw [Parser.headKind_cons, ha]
      rfl
    | paren _ | cast _ | newObject _ => exact hsign rfl rfl
    | @unary op _ _ _ _ _ =>
      refine hsign rfl ?_
      cases op <;> rfl
    | member ho _ => exact hnode rfl (by simp [Construct.children]) ho
    | call hf _ _ => exact hnode rfl (by simp [Construct.children]) hf
    | binary ha _ _ _ => exact hnode rfl (by simp [Construct.children]) ha
    | assign ha _ _ _ _ => exact hnode rfl (by simp [Construct.children]) ha

/-- The outline tells whether a construct can be assigned to. -/
theorem Construct.isAssignable_outline (c : Construct) :
    c.outline.isAssignable = c.isAssignable := by
  cases c <;> rfl

namespace Parse

/-! ## 3. Single tokens, types, and sequences with commas -/

section Tokens

variable {p : Parser} {a : Token} {ts rest : List Token}

theorem advance_consumed (hp : p.tokens = a :: rest) :
    ∃ q, advance p = (.ok a, q) ∧ Consumed p [a] q ∧ q.tokens = rest :=
  ⟨_, advance_of_eq_cons hp, .token hp, rfl⟩

theorem expect_consumed {k : TokenKind} (hp : p.tokens = a :: rest) (ha : a.kind = k) :
    ∃ q, expect k p = (.ok a, q) ∧ Consumed p [a] q ∧ q.tokens = rest :=
  ⟨_, expect_of_eq_cons hp ha, .token hp, rfl⟩

theorem ident_consumed (hp : p.tokens = a :: rest) (ha : a.kind = .identifier) :
    ∃ q, ident p = (.ok ⟨a.lexeme, a.span⟩, q) ∧ Consumed p [a] q ∧ q.tokens = rest :=
  ⟨_, ident_of_eq_cons hp ha, .token hp, rfl⟩

theorem type_consumed {w : WrittenType} (h : SpellsType (.one w) ts) (hp : p.tokens = ts ++ rest)
    (hb : headKind rest ≠ .leftBracket) (hl : headKind rest ≠ .less) :
    ∃ w' q, Parse.type p = (.ok w', q) ∧ Consumed p ts q ∧ q.tokens = rest ∧
      w.unplaced = w'.unplaced := by
  obtain ⟨w', hx, hw⟩ := type_of_spells h hp (.of_headKind hb hl)
  exact ⟨w', _, hx, .read hp, rfl, hw.symm⟩

end Tokens

/-- **What is spelled with commas between is read item by item.**  The items are given by their
pieces `f` and are compared by what `g` says of them beside their nodes. -/
theorem separatedTo_rebuilds {α β : Type} {t : SyntaxTree} {item : Parse α} {n : Nat}
    {stop : TokenKind} (f : α → List Piece) (g : α → β) (hstop : stop ≠ .comma) :
    ∀ {as : List α} {turns : Nat} {p : Parser} {ts rest : List Token}, as ≠ [] →
      (∀ a ∈ as, ∀ {us rest p}, Spells t Anywhere (f a) us → us.length ≤ n →
        p.tokens = us ++ rest → headKind rest = .comma ∨ headKind rest = stop →
        ∃ a' q, item p = (.ok a', q) ∧ Consumed p us q ∧ g a = g a' ∧
          SameShape t q.tree (Piece.nodes (f a)) (Piece.nodes (f a'))) →
      Spells t Anywhere (Piece.separated (as.map f)) ts → ts.length ≤ n → ts.length < turns →
      p.tokens = ts ++ rest → headKind rest = stop →
      ∃ as' q, separatedTo item turns p = (.ok as', q) ∧ Consumed p ts q ∧
        as.map g = as'.map g ∧
        SameShape t q.tree ((as.map f).flatMap Piece.nodes) ((as'.map f).flatMap Piece.nodes)
  | [], _, _, _, _, hne, _, _, _, _, _, _ => absurd rfl hne
  | _, 0, _, _, _, _, _, _, _, ht, _, _ => absurd ht (Nat.not_lt_zero _)
  | [a], turns + 1, p, ts, rest, _, hitem, hs, hn, _, hp, hr => by
    obtain ⟨a', q, hi, hcons, hg, hshape⟩ := hitem a (by simp) hs hn hp (.inr hr)
    refine ⟨[a'], q, separatedTo_eq_ok.mpr ⟨a', q, hi, .inl ⟨?_, rfl, rfl⟩⟩, hcons, ?_, ?_⟩
    · rw [hcons.tokens_eq hp, hr]
      exact hstop
    · rw [List.map_singleton, List.map_singleton, hg]
    · simpa using hshape
  | a :: b :: as, turns + 1, p, ts, rest, _, hitem, hs, hn, ht, hp, hr => by
    obtain ⟨us, vs, rfl, hus, hvs⟩ := Spells.append_iff.mp hs
    obtain ⟨c, ws, rfl, hc, hws⟩ := Spells.sign_iff.mp hvs
    simp only [List.length_append, List.length_cons] at hn ht
    rw [List.append_assoc, List.cons_append] at hp
    obtain ⟨a', q, hi, hcons, hg, hshape⟩ := hitem a (by simp) hus (by omega) hp (.inl hc)
    have hq := hcons.tokens_eq hp
    have hturns : ws.length < turns := by omega
    obtain ⟨as', q', hm, hcons', hgs, hshapes⟩ := separatedTo_rebuilds f g hstop
      (p := q.read [c] (ws ++ rest)) (List.cons_ne_nil b as)
      (fun d hd => hitem d (List.mem_cons_of_mem _ hd)) hws (by omega) hturns rfl hr
    refine ⟨a' :: as', q', separatedTo_eq_ok.mpr ⟨a', q, hi, .inr ⟨c, _, as', hq, hc, hm, rfl⟩⟩,
      hcons.trans ((Consumed.token hq).trans hcons'), ?_, ?_⟩
    · rw [List.map_cons, List.map_cons (f := g) (a := a'), hg, hgs]
    · exact (hshape.mono (.refl _) hcons'.tree).append hshapes

/-! ## 4. Operands -/

/-- What comes of reading an expression again: a tree like it is built from its tokens, and then it
remains to read the operators after it.  A reading at a looser power than all operators on the left
edge gets there, if the next token is not taken by a part at the right edge. -/
def Rereads (t : SyntaxTree) (l r : Nat) (id : NodeId) : Prop :=
  ∀ (ts rest : List Token) (power depth : Nat) (p : Parser), Spells t Anywhere [.node id] ts →
    power ≤ l → ts.length ≤ depth → p.tokens = ts ++ rest → Stops r (headKind rest) →
    ∃ id' q turns, exprTo (depth + 1) power p = operatorsTo (exprTo depth) power turns id' q ∧
      Consumed p ts q ∧ SameShape t q.tree [id] [id'] ∧ rest.length < turns

section Expressions

variable {t : SyntaxTree} {id : NodeId} {ts rest : List Token} {p : Parser} {depth power l r : Nat}

theorem operatorsTo_of_stops {expr : Nat → Parse NodeId} {turns : Nat} {lhs : NodeId}
    (h : Stops power (headKind p.tokens)) :
    operatorsTo expr power (turns + 1) lhs p = (.ok lhs, p) := by
  rw [operatorsTo, bind_of_ok (peek_apply p), Parser.kind_peek,
    operatorAfter?_eq_none_iff.mpr h]
  rfl

/-- One operator is read, and then the others. -/
theorem operatorsTo_of_some {expr : Nat → Parse NodeId} {turns : Nat} {lhs id : NodeId}
    {q : Parser} {operator : Parse NodeId}
    (hop : operatorAfter? expr power (headKind p.tokens) lhs = some operator)
    (h : operator p = (.ok id, q)) :
    operatorsTo expr power (turns + 1) lhs p = operatorsTo expr power turns id q := by
  rw [operatorsTo, bind_of_ok (peek_apply p), Parser.kind_peek, hop]
  exact bind_of_ok h

/-- Where the next token ends it, an expression is read whole. -/
theorem Rereads.whole (h : Rereads t l r id) (hs : Spells t Anywhere [.node id] ts)
    (hl : power ≤ l) (hd : ts.length < depth) (hp : p.tokens = ts ++ rest)
    (hr : Stops r (headKind rest)) (hpow : Stops power (headKind rest)) :
    Rebuilds t id (exprTo depth power) p ts := by
  obtain ⟨depth, rfl⟩ := Nat.exists_eq_succ_of_ne_zero (Nat.ne_zero_of_lt hd)
  obtain ⟨id', q, turns, heq, hcons, hshape, hturns⟩ :=
    h ts rest power depth p hs hl (Nat.le_of_lt_succ hd) hp hr
  obtain ⟨turns, rfl⟩ := Nat.exists_eq_succ_of_ne_zero (Nat.ne_zero_of_lt hturns)
  refine ⟨id', q, ?_, hcons, hshape⟩
  rw [heq]
  refine operatorsTo_of_stops ?_
  rwa [hcons.tokens_eq hp]

/-- The same before a token that is no operator. -/
theorem Rereads.closed (h : Rereads t l r id) (hs : Spells t Anywhere [.node id] ts)
    (hd : ts.length < depth) (hp : p.tokens = ts ++ rest)
    (hr : (headKind rest).leftPower? = none) : Rebuilds t id (exprTo depth 0) p ts :=
  h.whole hs (Nat.zero_le _) hd hp (stops_of_leftPower?_eq_none hr _)
    (stops_of_leftPower?_eq_none hr _)

/-- An expression that is an operand alone is read again if the operand is. -/
theorem rereads_operand (h : ∀ {ts rest : List Token} {depth : Nat} {p : Parser},
    Spells t Anywhere [.node id] ts → ts.length ≤ depth → p.tokens = ts ++ rest →
      Stops r (headKind rest) → Rebuilds t id (operandWith (exprTo depth)) p ts) :
    Rereads t l r id := by
  intro ts rest power depth p hs _ hd hp hr
  obtain ⟨id', q, hx, hcons, hshape⟩ := h hs hd hp hr
  refine ⟨id', q, q.tokens.length + 1, ?_, hcons, hshape, ?_⟩
  · rw [exprTo, bind_of_ok hx, bind_of_ok (limit_apply q)]
  · rw [hcons.tokens_eq hp]
    exact Nat.lt_succ_self _

/-- Reading a literal with a spelling of its own. -/
theorem spelled_apply {v : Literal} {a : Token} {rest : List Token} (hp : p.tokens = a :: rest)
    (hv : (Literal.ofToken a).toOption = some v) : (do
      let _ ← advance
      match Literal.ofToken a with
      | .ok value => alloc (.literal value) a.span
      | .error e => throw e : Parse NodeId) p = alloc (.literal v) a.span (p.read [a] rest) := by
  rw [bind_of_ok (advance_of_eq_cons hp)]
  cases he : Literal.ofToken a with
  | ok w =>
    rw [he] at hv
    cases hv
    rfl
  | error e =>
    rw [he] at hv
    cases hv

theorem rereads_literal {v : Literal} (hc : t.construct? id = some (.literal v)) :
    Rereads t l r id := by
  refine rereads_operand fun {ts rest depth p} hs _ hp _ => ?_
  have hk := hs.pieces hc
  obtain ⟨a, us, rfl, ha, hus⟩ := Spells.literal_iff.mp hk
  rw [Spells.nil_iff.mp hus] at hp ⊢
  have hp' : p.tokens = a :: rest := hp
  refine (Consumed.token hp').rebuilds hc (d := .literal v) rfl .nil ⟨a.span, ?_⟩
  rw [operandWith, bind_of_ok (peek_apply p), Parser.peek_of_eq_cons hp']
  have hkind := Token.kind_of_literal? ha
  unfold Token.literal? at ha
  -- a literal with a spelling of its own, or one of the three words
  rcases v with _ | _ | _ | _ | _ | (_ | _) | _ <;> simp only [hkind, Literal.kind] at ha ⊢
  case bool.false | bool.true | null => exact bind_of_ok (advance_of_eq_cons hp')
  all_goals exact spelled_apply hp' ha

theorem rereads_ident {n : Ident} (hc : t.construct? id = some (.ident n)) : Rereads t l r id := by
  refine rereads_operand fun {ts rest depth p} hs _ hp _ => ?_
  have hk := hs.pieces hc
  obtain ⟨a, us, rfl, ⟨ha, hn⟩, hus⟩ := Spells.name_iff.mp hk
  rw [Spells.nil_iff.mp hus] at hp ⊢
  have hp' : p.tokens = a :: rest := hp
  refine (Consumed.token hp').rebuilds hc (d := .ident ⟨a.lexeme, a.span⟩) ?_ .nil
    ⟨a.span, ?_⟩
  · simp only [Construct.outline, Ident.unplaced, hn]
  · rw [operandWith, bind_of_ok (peek_apply p), Parser.peek_of_eq_cons hp']
    simp only [ha]
    exact bind_of_ok (advance_of_eq_cons hp')

theorem rereads_paren {e : NodeId} {l' r' : Nat} (hc : t.construct? id = some (.paren e))
    (he : Rereads t l' r' e) : Rereads t l r id := by
  refine rereads_operand fun {ts rest depth p} hs hd hp _ => ?_
  have hk := hs.pieces hc
  obtain ⟨a, us, rfl, ha, hus⟩ := Spells.sign_iff.mp hk
  obtain ⟨vs, ws, rfl, hvs, hws⟩ := Spells.node_cons_iff.mp hus
  obtain ⟨b, xs, rfl, hb, hxs⟩ := Spells.sign_iff.mp hws
  obtain rfl := Spells.nil_iff.mp hxs
  have hlt : vs.length < depth := by simp at hd; omega
  simp only [List.cons_append, List.append_assoc, List.nil_append] at hp
  obtain ⟨p₁, hx₁, h₁, hp₁⟩ := advance_consumed hp
  obtain ⟨e', p₂, hx₂, h₂, hshape⟩ := he.closed hvs hlt hp₁ (by rw [Parser.headKind_cons, hb]; rfl)
  obtain ⟨p₃, hx₃, h₃, -⟩ := expect_consumed (h₂.tokens_eq hp₁) hb
  refine (h₁.trans (h₂.trans h₃)).rebuilds hc (d := .paren e') rfl
    (hshape.mono (.refl _) h₃.tree) ⟨a.span.merge p₃.lastSpan, ?_⟩
  rw [operandWith, bind_of_ok (peek_apply p), Parser.peek_of_eq_cons hp]
  simp only [ha]
  rw [bind_of_ok hx₁, bind_of_ok hx₂, bind_of_ok hx₃, bind_of_ok (spanFrom_apply _ _)]

theorem rereads_unary {op : UnaryOp} {e : NodeId} {l' r' : Nat}
    (hc : t.construct? id = some (.unary op e)) (he : Rereads t l' r' e)
    (hl : BindingPower.unaryPower ≤ l') : Rereads t l (min BindingPower.unaryPower r') id := by
  refine rereads_operand fun {ts rest depth p} hs hd hp hr => ?_
  have hk := hs.pieces hc
  obtain ⟨a, us, rfl, ha, hus⟩ := Spells.sign_iff.mp hk
  obtain ⟨p₁, hx₁, h₁, hp₁⟩ := advance_consumed hp
  obtain ⟨e', p₂, hx₂, h₂, hshape⟩ := he.whole hus hl hd hp₁ (hr.mono (Nat.min_le_right _ _))
    (hr.mono (Nat.min_le_left _ _))
  refine (h₁.trans h₂).rebuilds hc (d := .unary op e') rfl hshape
    ⟨a.span.merge (p₂.tree.spanOf e'), ?_⟩
  rw [operandWith, bind_of_ok (peek_apply p), Parser.peek_of_eq_cons hp]
  cases op <;> simp only [ha, UnaryOp.kind] <;>
    rw [bind_of_ok hx₁, bind_of_ok hx₂, bind_of_ok (spanOf_apply _ _)]

theorem rereads_cast {w : WrittenType} {e : NodeId} {l' r' : Nat}
    (hc : t.construct? id = some (.cast w e)) (he : Rereads t l' r' e) : Rereads t l r id := by
  refine rereads_operand fun {ts rest depth p} hs hd hp _ => ?_
  have hk := hs.pieces hc
  obtain ⟨a, us, rfl, ha, hus⟩ := Spells.sign_iff.mp hk
  obtain ⟨less, vs, rfl, hless, hvs⟩ := Spells.sign_iff.mp hus
  obtain ⟨ws, xs, rfl, hws, hxs⟩ := Spells.type_iff.mp hvs
  obtain ⟨greater, ys, rfl, hgreater, hys⟩ := Spells.sign_iff.mp hxs
  obtain ⟨opening, zs, rfl, hopen, hzs⟩ := Spells.sign_iff.mp hys
  obtain ⟨es, cs, rfl, hes, hcs⟩ := Spells.node_cons_iff.mp hzs
  obtain ⟨closing, ds, rfl, hclose, hds⟩ := Spells.sign_iff.mp hcs
  obtain rfl := Spells.nil_iff.mp hds
  have hlt : es.length < depth := by simp at hd; omega
  simp only [List.cons_append, List.append_assoc, List.nil_append] at hp
  obtain ⟨p₁, hx₁, h₁, hp₁⟩ := expect_consumed hp ha
  obtain ⟨p₂, hx₂, h₂, hp₂⟩ := expect_consumed hp₁ hless
  obtain ⟨w', p₃, hx₃, h₃, hp₃, hw⟩ := type_consumed hws hp₂ (by simp [hgreater])
    (by simp [hgreater])
  obtain ⟨p₄, hx₄, h₄, hp₄⟩ := expect_consumed hp₃ hgreater
  obtain ⟨p₅, hx₅, h₅, hp₅⟩ := expect_consumed hp₄ hopen
  obtain ⟨e', p₆, hx₆, h₆, hshape⟩ := he.closed hes hlt hp₅
    (by rw [Parser.headKind_cons, hclose]; rfl)
  obtain ⟨p₇, hx₇, h₇, -⟩ := expect_consumed (h₆.tokens_eq hp₅) hclose
  refine (h₁.trans (h₂.trans (h₃.trans (h₄.trans (h₅.trans (h₆.trans h₇)))))).rebuilds hc
    (d := .cast w' e') ?_ (hshape.mono (.refl _) h₇.tree)
    ⟨a.span.merge p₇.lastSpan, ?_⟩
  · simp only [Construct.outline, hw]
  · rw [operandWith, bind_of_ok (peek_apply p), Parser.peek_of_eq_cons hp]
    simp only [ha]
    rw [castWith, bind_of_ok hx₁, bind_of_ok hx₂, bind_of_ok hx₃, bind_of_ok hx₄, bind_of_ok hx₅,
      bind_of_ok hx₆, bind_of_ok hx₇, bind_of_ok (spanFrom_apply _ _)]

/-- Arguments are read again if each of them is. -/
theorem arguments_consumed {args : List NodeId} (hall : ∀ e ∈ args, ∃ l r, Fits t (.expr l r) e ∧
    Rereads t l r e) (hs : Spells t Anywhere (Piece.arguments args) ts) (hd : ts.length ≤ depth)
    (hp : p.tokens = ts ++ rest) :
    ∃ args' q, argumentsWith (exprTo depth) p = (.ok args', q) ∧ Consumed p ts q ∧
      SameShape t q.tree args args' := by
  obtain ⟨a, us, rfl, ha, hus⟩ := Spells.sign_iff.mp hs
  obtain ⟨vs, ws, rfl, hvs, hws⟩ := Spells.append_iff.mp hus
  obtain ⟨b, xs, rfl, hb, hxs⟩ := Spells.sign_iff.mp hws
  obtain rfl := Spells.nil_iff.mp hxs
  have hlt : vs.length < depth := by simp at hd; omega
  simp only [List.cons_append, List.append_assoc, List.nil_append] at hp
  obtain ⟨p₁, hx₁, h₁, hp₁⟩ := expect_consumed hp ha
  cases args with
  | nil =>
    obtain rfl := Spells.nil_iff.mp hvs
    obtain ⟨p₂, hx₂, h₂, -⟩ := expect_consumed hp₁ hb
    refine ⟨[], p₂, ?_, h₁.trans h₂, .nil⟩
    have hcheck : headKind p₁.tokens = .rightParen := by rw [hp₁]; exact hb
    rw [argumentsWith, bind_of_ok hx₁, bind_of_ok (check_apply _ p₁), if_pos (by simp [hcheck]),
      bind_of_ok (pure_apply _ _)]
    exact bind_of_ok hx₂
  | cons e es =>
    have hturns : vs.length < p₁.tokens.length + 1 := by
      rw [hp₁, List.length_append]
      omega
    obtain ⟨args', p₂, hx₂, h₂, -, hshape⟩ := separatedTo_rebuilds (n := vs.length)
      (fun id : NodeId => [.node id]) (fun _ => ()) (by simp) (List.cons_ne_nil e es)
      (fun e' he' {us rest p} hus hle hp hr => by
        obtain ⟨l, r, -, hre⟩ := hall e' he'
        have hnone : (headKind rest).leftPower? = none := by
          rcases hr with hr | hr <;> rw [hr] <;> rfl
        obtain ⟨id', q, hx, hcons, hshape⟩ := hre.closed hus (Nat.lt_of_le_of_lt hle hlt) hp hnone
        exact ⟨id', q, hx, hcons, rfl, hshape⟩)
      hvs (Nat.le_refl _) hturns hp₁ hb
    obtain ⟨p₃, hx₃, h₃, -⟩ := expect_consumed (h₂.tokens_eq hp₁) hb
    refine ⟨args', p₃, ?_, h₁.trans (h₂.trans h₃), ?_⟩
    · -- the first argument starts an expression, so the list is not empty
      obtain ⟨l, r, hf, -⟩ := hall e (by simp)
      have hcheck : headKind p₁.tokens ≠ .rightParen := by
        have hstart : (headKind vs).startsExpr = true := by
          cases es with
          | nil => exact hf.startsExpr rfl hvs
          | cons e' es =>
            obtain ⟨ys, zs, rfl, hys, -⟩ := Spells.append_iff.mp hvs
            have := hf.startsExpr rfl hys
            cases ys with
            | nil => cases this
            | cons y ys => exact this
        intro hn
        rw [hp₁, Parser.headKind_append (by rintro rfl; cases hstart)] at hn
        rw [hn] at hstart
        cases hstart
      rw [argumentsWith, bind_of_ok hx₁, bind_of_ok (check_apply _ p₁), if_neg (by simp [hcheck]),
        bind_of_ok ((separated_apply _ p₁).trans hx₂)]
      exact bind_of_ok hx₃
    · rw [Piece.flatMap_nodes_node, Piece.flatMap_nodes_node] at hshape
      exact hshape.mono (.refl _) h₃.tree

theorem rereads_newObject {w : WrittenType} {args : List NodeId}
    (hc : t.construct? id = some (.newObject w args)) (hall : ∀ e ∈ args, ∃ l r,
      Fits t (.expr l r) e ∧ Rereads t l r e) : Rereads t l r id := by
  refine rereads_operand fun {ts rest depth p} hs hd hp _ => ?_
  have hk := hs.pieces hc
  obtain ⟨a, us, rfl, ha, hus⟩ := Spells.sign_iff.mp hk
  obtain ⟨vs, ws, rfl, hvs, hws⟩ := Spells.type_iff.mp hus
  have hopen : headKind (ws ++ rest) = .leftParen := by
    obtain ⟨b, xs, rfl, hb, -⟩ := Spells.sign_iff.mp hws
    exact hb
  have hle : ws.length ≤ depth := by simp at hd; omega
  rw [List.cons_append, List.append_assoc] at hp
  obtain ⟨p₁, hx₁, h₁, hp₁⟩ := advance_consumed hp
  obtain ⟨w', p₂, hx₂, h₂, hp₂, hw⟩ := type_consumed hvs hp₁ (by simp [hopen]) (by simp [hopen])
  obtain ⟨args', p₃, hx₃, h₃, hshape⟩ := arguments_consumed hall hws hle hp₂
  refine (h₁.trans (h₂.trans h₃)).rebuilds hc (d := .newObject w' args') ?_ hshape
    ⟨a.span.merge p₃.lastSpan, ?_⟩
  · simp only [Construct.outline, hw, hshape.map_zero_eq]
  · rw [operandWith, bind_of_ok (peek_apply p), Parser.peek_of_eq_cons hp]
    simp only [ha]
    rw [bind_of_ok hx₁, bind_of_ok hx₂, bind_of_ok hx₃, bind_of_ok (spanFrom_apply _ _)]

/-! ## 5. Operators -/

/-- **An operator is read again if its left operand is.**  The operand meets the operator's token,
which does not bind as tightly as the parts at the operand's right edge. -/
theorem rereads_operator {lhs : NodeId} {k : TokenKind} {ps : List Piece} {c : Construct}
    {m l' r' : Nat} (hc : t.construct? id = some c)
    (hpieces : c.pieces = .node lhs :: .sign k :: ps) (hk : k.leftPower? = some m)
    (hlhs : Rereads t l' r' lhs) (hm : m < r')
    (hop : ∀ {a : Token} {us rest : List Token} {power depth : Nat} {p : Parser} {lhs' : NodeId},
      a.kind = k → Spells t Anywhere ps us → power ≤ m → us.length < depth →
      p.tokens = a :: (us ++ rest) → Stops r (headKind rest) → SameShape t p.tree [lhs] [lhs'] →
      ∃ operator, operatorAfter? (exprTo depth) power k lhs' = some operator ∧
        Rebuilds t id operator p (a :: us)) : Rereads t (min l' m) r id := by
  intro ts rest power depth p hs hpow hd hp hr
  have hsp := hs.pieces hc
  rw [hpieces] at hsp
  obtain ⟨us, vs, rfl, hus, hvs⟩ := Spells.node_cons_iff.mp hsp
  obtain ⟨a, ws, rfl, ha, hws⟩ := Spells.sign_iff.mp hvs
  simp only [List.length_append, List.length_cons] at hd
  rw [List.append_assoc, List.cons_append] at hp
  have hlt : ws.length < depth := by omega
  have hstop : Stops r' (headKind (a :: (ws ++ rest))) := by
    intro n hn
    rw [Parser.headKind_cons, ha, hk] at hn
    cases hn
    exact hm
  obtain ⟨lhs', q, turns, heq, hcons, hshape, hturns⟩ :=
    hlhs us _ power depth p hus (Nat.le_trans hpow (Nat.min_le_left _ _)) (by omega) hp hstop
  have hq := hcons.tokens_eq hp
  obtain ⟨operator, hsome, id', q', hx, hcons', hshape'⟩ :=
    hop ha hws (Nat.le_trans hpow (Nat.min_le_right _ _)) hlt hq hr hshape
  simp only [List.length_cons, List.length_append] at hturns
  obtain ⟨turns, rfl⟩ := Nat.exists_eq_succ_of_ne_zero (Nat.ne_zero_of_lt hturns)
  refine ⟨id', q', turns, ?_, hcons.trans hcons', hshape', by omega⟩
  rw [heq]
  refine operatorsTo_of_some ?_ hx
  rw [hq, Parser.headKind_cons, ha]
  exact hsome

theorem rereads_member {o : NodeId} {n : Ident} {l' r' : Nat}
    (hc : t.construct? id = some (.member o n)) (ho : Rereads t l' r' o)
    (hr : BindingPower.postfixPower < r') : Rereads t (min l' BindingPower.postfixPower) r id := by
  refine rereads_operator hc rfl rfl ho hr fun {a us rest power depth p lhs'} ha hs hpow _ hp _
    hshape => ?_
  refine ⟨memberAfter lhs', if_neg (Nat.not_lt.mpr hpow), ?_⟩
  obtain ⟨b, vs, rfl, ⟨hb, hn⟩, hvs⟩ := Spells.name_iff.mp hs
  obtain rfl := Spells.nil_iff.mp hvs
  obtain ⟨p₁, hx₁, h₁, hp₁⟩ := advance_consumed hp
  obtain ⟨p₂, hx₂, h₂, -⟩ := ident_consumed hp₁ hb
  have h₁₂ := h₁.trans h₂
  refine h₁₂.rebuilds hc (d := .member lhs' ⟨b.lexeme, b.span⟩) ?_
    (hshape.mono (.refl _) h₁₂.tree) ⟨(p₂.tree.spanOf lhs').merge b.span, ?_⟩
  · simp only [Construct.outline, Ident.unplaced, hn]
  · rw [memberAfter, bind_of_ok hx₁, bind_of_ok hx₂, bind_of_ok (spanOf_apply _ _)]

theorem rereads_call {f : NodeId} {args : List NodeId} {l' r' : Nat}
    (hc : t.construct? id = some (.call f args)) (hf : Rereads t l' r' f)
    (hr : BindingPower.postfixPower < r') (hall : ∀ e ∈ args, ∃ l r, Fits t (.expr l r) e ∧
      Rereads t l r e) : Rereads t (min l' BindingPower.postfixPower) r id := by
  refine rereads_operator hc rfl rfl hf hr fun {a us rest power depth p lhs'} ha hs hpow hd hp _
    hshape => ?_
  refine ⟨callAfter (exprTo depth) lhs', if_neg (Nat.not_lt.mpr hpow), ?_⟩
  have hargs : Spells t Anywhere (Piece.arguments args) (a :: us) :=
    Spells.sign_iff.mpr ⟨a, us, rfl, ha, hs⟩
  obtain ⟨args', p₁, hx₁, h₁, hshape₁⟩ := arguments_consumed hall hargs hd hp
  refine h₁.rebuilds hc (d := .call lhs' args') ?_
    ((hshape.mono (.refl _) h₁.tree).append hshape₁)
    ⟨(p₁.tree.spanOf lhs').merge p₁.lastSpan, ?_⟩
  · simp only [Construct.outline, hshape₁.map_zero_eq]
  · rw [callAfter, bind_of_ok hx₁, bind_of_ok (spanOf_apply _ _), bind_of_ok (spanFrom_apply _ _)]

theorem rereads_binary {op : BinaryOp} {x y : NodeId} {l' r' l'' r'' : Nat}
    (hc : t.construct? id = some (.binary op x y)) (hx : Rereads t l' r' x)
    (hr : BindingPower.left op < r') (hy : Rereads t l'' r'' y)
    (hl : BindingPower.right op ≤ l'') :
    Rereads t (min l' (BindingPower.left op)) (min (BindingPower.right op) r'') id := by
  refine rereads_operator hc rfl op.leftPower?_kind hx hr
    fun {a us rest power depth p lhs'} ha hs hpow hd hp hstop hshape => ?_
  refine ⟨binaryAfter (exprTo depth) op lhs', ?_, ?_⟩
  · unfold operatorAfter?
    rw [if_neg (by cases op <;> simp [BinaryOp.kind]),
      if_neg (by cases op <;> simp [BinaryOp.kind]), op.assignOp?_kind, op.binaryOp?_kind]
    exact if_neg (Nat.not_lt.mpr hpow)
  · obtain ⟨p₁, hx₁, h₁, hp₁⟩ := advance_consumed hp
    obtain ⟨y', p₂, hx₂, h₂, hshape₂⟩ := hy.whole hs hl hd hp₁
      (hstop.mono (Nat.min_le_right _ _)) (hstop.mono (Nat.min_le_left _ _))
    have h₁₂ := h₁.trans h₂
    refine h₁₂.rebuilds hc (d := .binary op lhs' y') rfl
      ((hshape.mono (.refl _) h₁₂.tree).append hshape₂)
      ⟨(p₂.tree.spanOf lhs').merge (p₂.tree.spanOf y'), ?_⟩
    rw [binaryAfter, bind_of_ok hx₁, bind_of_ok hx₂, bind_of_ok (spanOf_apply _ _),
      bind_of_ok (spanOf_apply _ _)]

theorem rereads_assign {op : AssignOp} {x y : NodeId} {l' r' l'' r'' : Nat}
    (hc : t.construct? id = some (.assign op x y)) (hx : Rereads t l' r' x)
    (hr : BindingPower.assignLeft < r')
    (hassign : (t.construct? x).any Construct.isAssignable = true) (hy : Rereads t l'' r'' y)
    (hl : BindingPower.assignRight ≤ l'') :
    Rereads t (min l' BindingPower.assignLeft) (min BindingPower.assignRight r'') id := by
  refine rereads_operator hc rfl op.leftPower?_kind hx hr
    fun {a us rest power depth p lhs'} ha hs hpow hd hp hstop hshape => ?_
  refine ⟨assignAfter (exprTo depth) op lhs', ?_, ?_⟩
  · unfold operatorAfter?
    rw [if_neg (by cases op <;> simp [AssignOp.kind]),
      if_neg (by cases op <;> simp [AssignOp.kind]), op.assignOp?_kind]
    exact if_neg (Nat.not_lt.mpr hpow)
  · obtain ⟨p₁, hx₁, h₁, hp₁⟩ := advance_consumed hp
    obtain ⟨y', p₂, hx₂, h₂, hshape₂⟩ := hy.whole hs hl hd hp₁
      (hstop.mono (Nat.min_le_right _ _)) (hstop.mono (Nat.min_le_left _ _))
    have h₁₂ := h₁.trans h₂
    refine h₁₂.rebuilds hc (d := .assign op lhs' y') rfl
      ((hshape.mono (.refl _) h₁₂.tree).append hshape₂)
      ⟨(p₂.tree.spanOf lhs').merge (p₂.tree.spanOf y'), ?_⟩
    -- the new target has the outline of the old one, so it can be assigned to as well
    obtain ⟨d, hd, hda⟩ := Option.any_eq_true .. |>.mp hassign
    obtain ⟨d', hd', hout⟩ := (hshape.mono (.refl _) h₁.tree).exists_outline hd
    have hda' : d'.isAssignable = true := by
      rw [← d'.isAssignable_outline, ← hout, d.isAssignable_outline, hda]
    rw [assignAfter, bind_of_ok hx₁, bind_of_ok (get_apply _)]
    simp only [hd', hda', Bool.not_true, Bool.false_eq_true, if_false]
    rw [bind_of_ok hx₂, bind_of_ok (spanOf_apply _ _), bind_of_ok (spanOf_apply _ _)]

end Expressions

/-- **Every expression that fits its role is read again**, whatever its tokens are. -/
theorem rereads_of_fits {t : SyntaxTree} {role : Role} {id : NodeId} (h : Fits t role id) :
    ∀ {l r : Nat}, role = .expr l r → Rereads t l r id := by
  induction h with
  | @node role id c ρ hc ha hk ih =>
    rintro l r rfl
    have hargs : ∀ {args : List NodeId}, (∀ e ∈ args, e ∈ c.children) →
        (∀ e ∈ args, ∃ l r, ρ e = .expr l r) →
        ∀ e ∈ args, ∃ l r, Fits t (.expr l r) e ∧ Rereads t l r e := by
      intro args hsub hall e he
      obtain ⟨l, r, hρ⟩ := hall e he
      exact ⟨l, r, hρ ▸ hk e (hsub e he), ih e (hsub e he) hρ⟩
    cases ha with
    | literal => exact rereads_literal hc
    | ident => exact rereads_ident hc
    | paren he => exact rereads_paren hc (ih _ (by simp [Construct.children]) he)
    | cast he => exact rereads_cast hc (ih _ (by simp [Construct.children]) he)
    | newObject hall => exact rereads_newObject hc (hargs (fun _ h => h) hall)
    | member ho hr => exact rereads_member hc (ih _ (by simp [Construct.children]) ho) hr
    | call hf hr hall =>
      exact rereads_call hc (ih _ (by simp [Construct.children]) hf) hr
        (hargs (fun _ h => List.mem_cons_of_mem _ h) hall)
    | unary he hl => exact rereads_unary hc (ih _ (by simp [Construct.children]) he) hl
    | binary ha hr hb hl =>
      exact rereads_binary hc (ih _ (by simp [Construct.children]) ha) hr
        (ih _ (by simp [Construct.children]) hb) hl
    | assign ha hr hassign hb hl =>
      exact rereads_assign hc (ih _ (by simp [Construct.children]) ha) hr hassign
        (ih _ (by simp [Construct.children]) hb) hl

end Parse

/-- **An expression is read as itself**, before a token that is no operator. -/
theorem Fits.rebuilds_expr {t : SyntaxTree} {id : NodeId} {l r : Nat} {ts rest : List Token}
    {p : Parser} (h : Fits t (.expr l r) id) (hs : Spells t Anywhere [.node id] ts)
    (hp : p.tokens = ts ++ rest) (hr : (headKind rest).leftPower? = none) :
    Rebuilds t id (Parse.expr 0) p ts := by
  have hlt : ts.length < p.tokens.length + 1 := by
    rw [hp, List.length_append]
    omega
  exact ((Parse.rereads_of_fits h rfl).closed hs hlt hp hr).congr (Parse.expr_apply 0 p)

end Recast
