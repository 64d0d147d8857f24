/-
# Two parsers in step

Two parsers that stand in front of tokens of the same kinds and spellings do the same, whatever the
places of these tokens are: they take the same decisions, build the same nodes and fail with the same
reports.  The second parser may have built nodes and recorded errors before, which the first has not;
then its nodes are numbered from there on.

* `Parser.InStep o p q`: the parsers have done the same since they were apart by `o`;
* `Lockstep o R x y`: from parsers in step, the activities `x` and `y` lead to parsers in step, and
  they return values related by `R` or fail with the same report.  One rule for each way to build an
  activity, then one lemma for each form of the grammar;
* `lockstep_item`, `lockstep_itemsTo`: items are read in step, also after a failure;
* `parseLenient_sameButPlaces`: **two texts with the same tokens have the same tree and the same
  errors, but for their places.**
-/
import Mathlib.Data.List.Forall2
import Recast.Proofs.Grammar.Writable
import Recast.Proofs.Parser.Progress

namespace Recast

/-! ## 1. The same but for places -/

/-- The same report about a place, and not one that was carried over from the lexer. -/
structure ParseError.Matches (e e' : ParseError) : Prop where
  kind : e.kind = e'.kind
  message : e.message = e'.message
  parsed : e.kind ≠ .lexerError

theorem ParseError.Matches.of_ne {k : ParseErrorKind} (h : k ≠ .lexerError) (s s' : Span)
    (m : String) : Matches ⟨k, s, m⟩ ⟨k, s', m⟩ := ⟨rfl, rfl, h⟩

/-- The construct `c'` is `c` at other places and over nodes that come `d` later. -/
structure Construct.Moved (d : Nat) (c c' : Construct) : Prop where
  outline : c.outline = c'.outline
  children : c'.children = c.children.map (· + d)

/-- The same kind and spelling. -/
def Token.Matches (a b : Token) : Prop := a.bare = b.bare

theorem Token.Matches.kind {a b : Token} (h : a.Matches b) : a.kind = b.kind := congrArg Prod.fst h

theorem Token.Matches.lexeme {a b : Token} (h : a.Matches b) : a.lexeme = b.lexeme :=
  congrArg Prod.snd h

/-- By how much two parsers are apart: the nodes that the second has built and the first has not, and
the errors that each of them has recorded. -/
structure Offset where
  nodes : Nat
  errors : List ParseError
  errors' : List ParseError

/-- The parsers stand in front of the same tokens and have done the same since they were apart by
`o`. -/
structure Parser.InStep (o : Offset) (p q : Parser) : Prop where
  tokens : Token.SameBare p.tokens q.tokens
  size : q.tree.size = p.tree.size + o.nodes
  constructs : ∀ i, Option.Rel (Construct.Moved o.nodes) (p.tree.construct? i)
    (q.tree.construct? (i + o.nodes))
  parents : ∀ i, q.tree.parent? (i + o.nodes) = (p.tree.parent? i).map (· + o.nodes)
  errors : ∃ es es', p.errors = o.errors ++ es ∧ q.errors = o.errors' ++ es' ∧
    List.Forall₂ ParseError.Matches es es'

/-- The same result: related values, or the same report. -/
inductive SameOutcome {α β : Type} (R : α → β → Prop) :
    Except ParseError α → Except ParseError β → Prop
  | ok {a : α} {b : β} : R a b → SameOutcome R (.ok a) (.ok b)
  | error {e e' : ParseError} : e.Matches e' → SameOutcome R (.error e) (.error e')

theorem SameOutcome.mono {α β : Type} {R S : α → β → Prop} (hRS : ∀ a b, R a b → S a b)
    {r : Except ParseError α} {r' : Except ParseError β} (h : SameOutcome R r r') :
    SameOutcome S r r' := by
  cases h with
  | ok hab => exact .ok (hRS _ _ hab)
  | error he => exact .error he

namespace Token.SameBare

variable {ts us : List Token}

instance : Decidable (SameBare ts us) := inferInstanceAs (Decidable (ts.map bare = us.map bare))

theorem symm (h : SameBare ts us) : SameBare us ts := Eq.symm h

theorem length_eq (h : SameBare ts us) : us.length = ts.length := by
  have := congrArg List.length h
  simpa using this.symm

theorem isEmpty_eq (h : SameBare ts us) : ts.isEmpty = us.isEmpty := by
  rw [Bool.eq_iff_iff, List.isEmpty_iff_length_eq_zero, List.isEmpty_iff_length_eq_zero,
    h.length_eq]

/-- Looking ahead sees kinds only. -/
theorem lead_eq (h : SameBare ts us) : lead ts = lead us := by
  induction ts generalizing us with
  | nil =>
    rw [h.nil_left]
  | cons a ts ih =>
    obtain ⟨b, vs, rfl, hk, -, hvs⟩ := h.cons_left
    rw [lead, lead, hk, ih hvs]

/-- So does counting brackets. -/
theorem bracketPairs_eq (h : SameBare ts us) :
    TypeScan.bracketPairs ts = TypeScan.bracketPairs us := by
  fun_induction TypeScan.bracketPairs ts generalizing us with
  | case1 a b ts hab ih =>
    obtain ⟨a', vs, rfl, ha, -, hvs⟩ := h.cons_left
    obtain ⟨b', ws, rfl, hb, -, hws⟩ := hvs.cons_left
    rw [TypeScan.bracketPairs, ha, hb, if_pos hab, ih hws]
  | case2 a b ts hab =>
    obtain ⟨a', vs, rfl, ha, -, hvs⟩ := h.cons_left
    obtain ⟨b', ws, rfl, hb, -, hws⟩ := hvs.cons_left
    rw [TypeScan.bracketPairs, ha, hb, if_neg hab]
  | case3 ts hts =>
    obtain _ | ⟨a, _ | ⟨b, ts⟩⟩ := ts
    · rw [h.nil_left]
      rfl
    · obtain ⟨a', vs, rfl, -, -, hvs⟩ := h.cons_left
      rw [hvs.nil_left]
      rfl
    · exact absurd rfl (hts a b ts)

/-- What is skipped of a statement depends on kinds only. -/
theorem skipStatement (h : SameBare ts us) (s s' : Span) :
    SameBare (Parse.skipStatement ts s).1 (Parse.skipStatement us s').1 := by
  induction ts generalizing us s s' with
  | nil =>
    rw [h.nil_left]
    rfl
  | cons a ts ih =>
    have hall := h
    obtain ⟨b, vs, rfl, hk, -, hvs⟩ := h.cons_left
    unfold Parse.skipStatement
    rw [hk]
    split
    · exact hvs
    · split
      · exact hall
      · exact ih hvs _ _

end Token.SameBare

namespace Parser.InStep

variable {o : Offset} {p q : Parser}

theorem peek (h : InStep o p q) : p.peek.Matches q.peek := by
  unfold Parser.peek
  cases hp : p.tokens with
  | nil =>
    have htokens := h.tokens
    rw [hp] at htokens
    rw [htokens.nil_left]
    rfl
  | cons a ts =>
    have htokens := h.tokens
    rw [hp] at htokens
    obtain ⟨b, vs, hq, hk, hl, -⟩ := htokens.cons_left
    rw [hq]
    exact Prod.ext hk.symm hl.symm

/-- A parser is in step with itself at other places. -/
theorem of_sameBare {us : List Token} (h : Token.SameBare p.tokens us) :
    InStep ⟨0, p.errors, p.errors⟩ p { p with tokens := us } where
  tokens := h
  size := rfl
  constructs i := by
    change Option.Rel (Construct.Moved 0) (p.tree.construct? i) (p.tree.construct? i)
    cases p.tree.construct? i with
    | none => exact .none
    | some c => exact .some ⟨rfl, (List.map_id _).symm⟩
  parents i := Option.map_id'.symm
  errors := ⟨[], [], (List.append_nil _).symm, (List.append_nil _).symm, .nil⟩

/-- If one of them has recorded nothing, neither has the other. -/
theorem errors_eq (h : InStep o p q) (hp : p.errors = o.errors) : q.errors = o.errors' := by
  obtain ⟨es, es', hes, hes', hmatch⟩ := h.errors
  rw [hp] at hes
  obtain rfl : es = [] := List.self_eq_append_right.mp hes
  cases hmatch
  rw [hes', List.append_nil]

/-- Only the tokens count of what is read. -/
theorem of_tokens {p' q' : Parser} (h : InStep o p q) (ht : Token.SameBare p'.tokens q'.tokens)
    (hp : p'.tree = p.tree) (hq : q'.tree = q.tree) (hp' : p'.errors = p.errors)
    (hq' : q'.errors = q.errors) : InStep o p' q' := by
  obtain ⟨-, hsize, hconstructs, hparents, herrors⟩ := h
  refine ⟨ht, ?_, ?_, ?_, ?_⟩
  · rw [hp, hq, hsize]
  · rw [hp, hq]
    exact hconstructs
  · rw [hp, hq]
    exact hparents
  · rw [hp', hq']
    exact herrors

/-- **The same construct is added as the same node.** -/
theorem alloc {c c' : Construct} (h : InStep o p q) (hc : c.Moved o.nodes c') (s s' : Span) :
    InStep o { p with tree := (p.tree.alloc c s).2 } { q with tree := (q.tree.alloc c' s').2 } where
  tokens := h.tokens
  size := by
    rw [SyntaxTree.size_alloc, SyntaxTree.size_alloc, h.size]
    omega
  constructs i := by
    have hi : i + o.nodes = q.tree.size ↔ i = p.tree.size := by
      rw [h.size, Nat.add_right_cancel_iff]
    simp only [SyntaxTree.construct?_alloc, hi]
    split
    · exact .some hc
    · exact h.constructs i
  parents i := by
    have hmem : i + o.nodes ∈ c'.children ↔ i ∈ c.children := by
      rw [hc.children]
      exact List.mem_map_of_injective fun _ _ => Nat.add_right_cancel
    have hlt : i + o.nodes < q.tree.size ↔ i < p.tree.size := by
      rw [h.size, Nat.add_lt_add_iff_right]
    simp only [SyntaxTree.parent?_alloc, hmem, hlt]
    split
    · rw [h.size]
      rfl
    · exact h.parents i
  errors := h.errors

theorem record {e e' : ParseError} (h : InStep o p q) (he : e.Matches e') :
    InStep o { p with errors := p.errors ++ [e] } { q with errors := q.errors ++ [e'] } := by
  obtain ⟨es, es', hp, hq, hes⟩ := h.errors
  refine { h with errors := ⟨es ++ [e], es' ++ [e'], ?_, ?_, ?_⟩ }
  · rw [hp, List.append_assoc]
  · rw [hq, List.append_assoc]
  · exact List.rel_append hes (.cons he .nil)

end Parser.InStep

namespace Parse

/-! ## 2. Rules -/

section Rules

variable {o : Offset} {α α' β β' : Type} {R R' : α → α' → Prop} {S : β → β' → Prop}

/-- From parsers in step, the activities lead to parsers in step and have the same outcome. -/
def Lockstep (o : Offset) (R : α → α' → Prop) (x : Parse α) (y : Parse α') : Prop :=
  ∀ p q, Parser.InStep o p q →
    SameOutcome R (x p).1 (y q).1 ∧ Parser.InStep o (x p).2 (y q).2

theorem Lockstep.mono {x : Parse α} {y : Parse α'} (h : Lockstep o R x y)
    (hR : ∀ a b, R a b → R' a b) : Lockstep o R' x y := by
  intro p q hpq
  obtain ⟨hres, hstep⟩ := h p q hpq
  exact ⟨hres.mono hR, hstep⟩

theorem Lockstep.pure {a : α} {b : α'} (h : R a b) :
    Lockstep o R (Pure.pure a) (Pure.pure b) :=
  fun _ _ hpq => ⟨.ok h, hpq⟩

theorem Lockstep.throw {e e' : ParseError} (h : e.Matches e') :
    Lockstep o R (MonadExcept.throw e) (MonadExcept.throw e') :=
  fun _ _ hpq => ⟨.error h, hpq⟩

/-- Nothing comes after a failure. -/
theorem Lockstep.throw_bind {e e' : ParseError} (h : e.Matches e') (f : α → Parse β)
    (g : α' → Parse β') :
    Lockstep o S (MonadExcept.throw e >>= f) (MonadExcept.throw e' >>= g) :=
  fun _ _ hpq => ⟨.error h, hpq⟩

/-- **Sequences stay in step**, if what comes second does so for all that may come first. -/
theorem Lockstep.bind {x : Parse α} {y : Parse α'} {f : α → Parse β} {g : α' → Parse β'}
    (h : Lockstep o R x y) (hf : ∀ a b, R a b → Lockstep o S (f a) (g b)) :
    Lockstep o S (x >>= f) (y >>= g) := by
  intro p q hpq
  obtain ⟨hres, hstep⟩ := h p q hpq
  rw [bind_apply, bind_apply]
  rcases hx : x p with ⟨rx, p'⟩
  rcases hy : y q with ⟨ry, q'⟩
  rw [hx, hy] at hres hstep
  cases hres with
  | ok hab => exact hf _ _ hab p' q' hstep
  | error he => exact ⟨.error he, hstep⟩

/-- **After a failure both go on in step.** -/
theorem Lockstep.attempt {x : Parse α} {y : Parse α'} (h : Lockstep o R x y) :
    Lockstep o (SameOutcome R) (attempt x) (attempt y) :=
  fun p q hpq => ⟨.ok (h p q hpq).1, (h p q hpq).2⟩

theorem Lockstep.ite {x y : Parse α} {x' y' : Parse α'} {b b' : Bool} (hb : b = b')
    (hx : Lockstep o R x x') (hy : Lockstep o R y y') :
    Lockstep o R (if b then x else y) (if b' then x' else y') := by
  subst hb
  cases b with
  | false => exact hy
  | true => exact hx

/-! ## 3. Single tokens and nodes -/

/-- Any two values. -/
def Any (_ : α) (_ : α') : Prop := True

/-- The second of two nodes comes so much later. -/
def Later (o : Offset) (a b : NodeId) : Prop := b = a + o.nodes

theorem lockstep_get : Lockstep o (Parser.InStep o) get get := fun _ _ hpq => ⟨.ok hpq, hpq⟩

theorem lockstep_peek : Lockstep o Token.Matches peek peek := fun _ _ hpq => ⟨.ok hpq.peek, hpq⟩

theorem lockstep_check (k : TokenKind) : Lockstep o Eq (check k) (check k) :=
  lockstep_peek.bind fun a b hab => .pure (by rw [hab.kind])

theorem lockstep_checkWord (word : String) : Lockstep o Eq (checkWord word) (checkWord word) :=
  lockstep_peek.bind fun a b hab => .pure (by rw [hab.kind, hab.lexeme])

theorem lockstep_atEnd : Lockstep o Eq atEnd atEnd :=
  lockstep_get.bind fun _ _ hpq => .pure hpq.tokens.isEmpty_eq

theorem lockstep_limit : Lockstep o Eq limit limit :=
  lockstep_get.bind fun p q hpq => .pure (by rw [hpq.tokens.length_eq])

theorem lockstep_spanFrom (s s' : Span) : Lockstep o Any (spanFrom s) (spanFrom s') :=
  fun _ _ hpq => ⟨.ok trivial, hpq⟩

theorem lockstep_spanOf (a b : NodeId) : Lockstep o Any (spanOf a) (spanOf b) :=
  fun _ _ hpq => ⟨.ok trivial, hpq⟩

theorem lockstep_isVarDecl : Lockstep o Eq isVarDecl isVarDecl :=
  lockstep_get.bind fun _ _ hpq => .pure (TypeScan.isVarDecl_congr hpq.tokens.lead_eq)

theorem lockstep_isFunctionDecl : Lockstep o Eq isFunctionDecl isFunctionDecl :=
  lockstep_get.bind fun _ _ hpq => .pure (TypeScan.isFunctionDecl_congr hpq.tokens.lead_eq)

theorem lockstep_exhausted : Lockstep o R exhausted exhausted :=
  lockstep_peek.bind fun a b hab => .throw ⟨rfl, by rw [hab.kind], by simp⟩

theorem lockstep_advance : Lockstep o Token.Matches advance advance := by
  intro p q hpq
  have htokens := hpq.tokens
  cases hp : p.tokens with
  | nil =>
    rw [hp] at htokens
    rw [advance_of_eq_nil hp, advance_of_eq_nil htokens.nil_left]
    exact ⟨.ok hpq.peek, hpq⟩
  | cons a ts =>
    rw [hp] at htokens
    obtain ⟨b, vs, hq, hk, hl, hvs⟩ := htokens.cons_left
    rw [advance_of_eq_cons hp, advance_of_eq_cons hq]
    exact ⟨.ok (Prod.ext hk.symm hl.symm), hpq.of_tokens hvs rfl rfl rfl rfl⟩

theorem lockstep_eat (k : TokenKind) : Lockstep o Eq (eat k) (eat k) := by
  refine (lockstep_check k).bind fun b b' hb => .ite hb ?_ (.pure rfl)
  exact lockstep_advance.bind fun _ _ _ => .pure rfl

theorem lockstep_expect (k : TokenKind) : Lockstep o Token.Matches (expect k) (expect k) := by
  refine lockstep_peek.bind fun a b hab => ?_
  rw [hab.kind]
  split
  · exact lockstep_advance
  · split
    · exact .throw (.of_ne (by simp) _ _ _)
    · exact .throw (.of_ne (by simp) _ _ _)

/-- The same name. -/
def SameName (a b : Ident) : Prop := a.unplaced = b.unplaced

/-- The same written type. -/
def SameType (a b : WrittenType) : Prop := a.unplaced = b.unplaced

theorem lockstep_ident : Lockstep o SameName ident ident := by
  refine lockstep_peek.bind fun a b hab => ?_
  rw [hab.kind]
  split
  · refine lockstep_advance.bind fun _ _ _ => .pure ?_
    exact congrArg Ident.synthetic hab.lexeme
  · exact .throw (.of_ne (by simp) _ _ _)

theorem lockstep_alloc {c c' : Construct} (hc : c.Moved o.nodes c') (s s' : Span) :
    Lockstep o (Later o) (alloc c s) (alloc c' s') :=
  fun _ _ hpq => ⟨.ok hpq.size, hpq.alloc hc s s'⟩

/-- A node that spans what was read for it. -/
theorem lockstep_spanned {c c' : Construct} (hc : c.Moved o.nodes c') (s s' : Span) :
    Lockstep o (Later o) (do alloc c (← spanFrom s)) (do alloc c' (← spanFrom s')) :=
  (lockstep_spanFrom s s').bind fun _ _ _ => lockstep_alloc hc _ _

theorem lockstep_record {e e' : ParseError} (he : e.Matches e') :
    Lockstep o Eq (record e) (record e') :=
  fun _ _ hpq => ⟨.ok rfl, hpq.record he⟩

theorem lockstep_synchronize (before : Nat) :
    Lockstep o Eq (synchronize before) (synchronize before) := by
  have hskip : Lockstep o Eq
      (modify fun p =>
        { p with
          tokens := (skipStatement p.tokens p.lastSpan).1
          lastSpan := (skipStatement p.tokens p.lastSpan).2 })
      (modify fun p =>
        { p with
          tokens := (skipStatement p.tokens p.lastSpan).1
          lastSpan := (skipStatement p.tokens p.lastSpan).2 }) :=
    fun p q hpq => ⟨.ok rfl, hpq.of_tokens (hpq.tokens.skipStatement _ _) rfl rfl rfl rfl⟩
  refine lockstep_get.bind fun p q hpq => ?_
  rw [hpq.tokens.length_eq]
  split
  · exact lockstep_advance.bind fun _ _ _ => hskip
  · exact hskip

end Rules

/-! ## 4. Sequences -/

section Sequences

variable {o : Offset} {α : Type} {R : α → α → Prop} {x y : Parse α}

theorem lockstep_separatedTo (h : Lockstep o R x y) : ∀ turns,
    Lockstep o (List.Forall₂ R) (separatedTo x turns) (separatedTo y turns)
  | 0 => lockstep_exhausted
  | turns + 1 => by
    refine h.bind fun a b hab => (lockstep_eat .comma).bind fun c c' hc => .ite hc ?_ ?_
    · exact (lockstep_separatedTo h turns).bind fun as bs hmore => .pure (.cons hab hmore)
    · exact .pure (.cons hab .nil)

theorem lockstep_separated (h : Lockstep o R x y) :
    Lockstep o (List.Forall₂ R) (separated x) (separated y) := by
  refine lockstep_limit.bind fun n m hn => ?_
  subst hn
  exact lockstep_separatedTo h n

/-- The nodes of the second list come so much later. -/
def AllLater (o : Offset) (as bs : List NodeId) : Prop := bs = as.map (· + o.nodes)

theorem AllLater.of_forall₂ {as bs : List NodeId} (h : List.Forall₂ (Later o) as bs) :
    AllLater o as bs := by
  induction h with
  | nil => rfl
  | cons hab _ ih => rw [AllLater, List.map_cons, ← ih, ← hab]

section Turn

variable {x y : Parse NodeId} {rest rest' : Parse (List NodeId)}
  (h : Lockstep o (Later o) x y) (hrest : Lockstep o (AllLater o) rest rest')
include h hrest

/-- One turn of a sequence of items: after a failure both go on in step as well. -/
theorem lockstep_turn (closed : Bool) : Lockstep o (AllLater o) (do
      if closed || (← atEnd) then pure []
      else
        let before := (← get).tokens.length
        match ← attempt x with
        | .ok id =>
          let more ← rest
          pure (id :: more)
        | .error e =>
          record e
          synchronize before
          rest) (do
      if closed || (← atEnd) then pure []
      else
        let before := (← get).tokens.length
        match ← attempt y with
        | .ok id =>
          let more ← rest'
          pure (id :: more)
        | .error e =>
          record e
          synchronize before
          rest') := by
  refine lockstep_atEnd.bind fun b b' hb => .ite (by rw [hb]) (.pure rfl) ?_
  refine lockstep_get.bind fun p q hpq => h.attempt.bind fun r r' hr => ?_
  cases hr with
  | ok hab =>
    refine hrest.bind fun as bs habs => .pure ?_
    rw [AllLater, List.map_cons, ← habs, ← hab]
  | error he =>
    rw [hpq.tokens.length_eq]
    exact (lockstep_record he).bind fun _ _ _ => (lockstep_synchronize _).bind fun _ _ _ => hrest

theorem lockstep_itemsWith (braced : Bool) :
    Lockstep o (AllLater o) (itemsWith braced x rest) (itemsWith braced y rest') := by
  have hturn := lockstep_turn h hrest
  cases braced with
  | false => exact hturn false
  | true => exact (lockstep_check _).bind fun b b' hb => by subst hb; exact hturn b

end Turn

theorem lockstep_itemsTo {x y : Parse NodeId} (h : Lockstep o (Later o) x y) (braced : Bool) :
    ∀ turns, Lockstep o (AllLater o) (itemsTo braced x turns) (itemsTo braced y turns)
  | 0 => .pure rfl
  | turns + 1 => lockstep_itemsWith h (lockstep_itemsTo h braced turns) braced

theorem lockstep_items {x y : Parse NodeId} (h : Lockstep o (Later o) x y) (braced : Bool) :
    Lockstep o (AllLater o) (do itemsTo braced x (← limit)) (do itemsTo braced y (← limit)) := by
  refine lockstep_limit.bind fun n m hn => ?_
  subst hn
  exact lockstep_itemsTo h braced n

end Sequences

/-! ## 5. Types -/

section Types

variable {o : Offset}

theorem lockstep_brackets : ∀ pairs, Lockstep o Eq (brackets pairs) (brackets pairs)
  | 0 => .pure rfl
  | pairs + 1 => lockstep_advance.bind fun _ _ _ => lockstep_advance.bind fun _ _ _ =>
    lockstep_brackets pairs

theorem unplacedAll_eq_of_forall₂ {as bs : List WrittenType} (h : List.Forall₂ SameType as bs) :
    WrittenType.unplacedAll as = WrittenType.unplacedAll bs := by
  induction h with
  | nil => rfl
  | cons hab _ ih => rw [WrittenType.unplacedAll, WrittenType.unplacedAll, hab, ih]

theorem lockstep_typeWith {x y : Parse WrittenType} (h : Lockstep o SameType x y) :
    Lockstep o SameType (typeWith x) (typeWith y) := by
  refine lockstep_peek.bind fun a b hab => ?_
  have hrank : ∀ as bs : List WrittenType, List.Forall₂ SameType as bs → Lockstep o SameType (do
      let pairs := TypeScan.bracketPairs (← get).tokens
      brackets pairs
      pure (WrittenType.mk a.lexeme as (min pairs maxRank) (← spanFrom a.span))) (do
      let pairs := TypeScan.bracketPairs (← get).tokens
      brackets pairs
      pure (WrittenType.mk b.lexeme bs (min pairs maxRank) (← spanFrom b.span))) := by
    intro as bs habs
    refine lockstep_get.bind fun p q hpq => ?_
    rw [hpq.tokens.bracketPairs_eq, hab.lexeme]
    refine (lockstep_brackets _).bind fun _ _ _ => (lockstep_spanFrom _ _).bind fun s s' _ => .pure ?_
    rw [SameType, WrittenType.unplaced, WrittenType.unplaced, unplacedAll_eq_of_forall₂ habs]
  rw [hab.kind]
  dsimp only
  split
  · exact .throw_bind (.of_ne (by simp) _ _ _) _ _
  · refine lockstep_advance.bind fun _ _ _ => (lockstep_eat .less).bind fun c c' hc => .ite hc ?_ ?_
    · refine (lockstep_separated h).bind fun as bs habs => (lockstep_expect _).bind fun _ _ _ => ?_
      exact (Lockstep.pure habs).bind hrank
    · exact (Lockstep.pure .nil).bind hrank

theorem lockstep_typeTo : ∀ depth, Lockstep o SameType (typeTo depth) (typeTo depth)
  | 0 => lockstep_exhausted
  | depth + 1 => lockstep_typeWith (lockstep_typeTo depth)

theorem lockstep_type : Lockstep o SameType type type := by
  refine lockstep_limit.bind fun n m hn => ?_
  subst hn
  exact lockstep_typeTo n

end Types

/-! ## 6. Expressions -/

section Expressions

variable {o : Offset} {f g : Nat → Parse NodeId}

theorem lockstep_argumentsWith (h : ∀ power, Lockstep o (Later o) (f power) (g power)) :
    Lockstep o (AllLater o) (argumentsWith f) (argumentsWith g) := by
  refine (lockstep_expect _).bind fun _ _ _ => (lockstep_check _).bind fun b b' hb => ?_
  have hclose : ∀ as bs : List NodeId, AllLater o as bs → Lockstep o (AllLater o)
      (do let _ ← expect .rightParen; pure as) (do let _ ← expect .rightParen; pure bs) :=
    fun as bs habs => (lockstep_expect _).bind fun _ _ _ => .pure habs
  refine .ite hb ((Lockstep.pure (R := AllLater o) rfl).bind hclose) ?_
  exact ((lockstep_separated (h 0)).mono fun _ _ => .of_forall₂).bind hclose

theorem lockstep_castWith (h : ∀ power, Lockstep o (Later o) (f power) (g power)) :
    Lockstep o (Later o) (castWith f) (castWith g) := by
  refine (lockstep_expect _).bind fun _ _ _ => (lockstep_expect _).bind fun _ _ _ => ?_
  refine lockstep_type.bind fun w w' hw => (lockstep_expect _).bind fun _ _ _ => ?_
  refine (lockstep_expect _).bind fun _ _ _ => (h 0).bind fun a b hab => ?_
  subst hab
  refine (lockstep_expect _).bind fun _ _ _ => lockstep_spanned ⟨?_, rfl⟩ _ _
  rw [Construct.outline, Construct.outline, hw]

/-- The value of a literal is in its kind and spelling, and so is what is wrong with it. -/
theorem sameOutcome_ofToken {a b : Token} (h : a.Matches b) :
    SameOutcome Eq (Literal.ofToken a) (Literal.ofToken b) := by
  unfold Literal.ofToken
  rw [h.kind, h.lexeme]
  cases b.kind with
  | intLiteral | longLiteral | floatLiteral | doubleLiteral | stringLiteral =>
    dsimp only
    split
    · exact .ok rfl
    · exact .error (.of_ne (by simp) _ _ _)
  | _ => exact .error (.of_ne (by simp) _ _ _)

theorem lockstep_spelled {a b : Token} (hab : a.Matches b) : Lockstep o (Later o) (do
      let _ ← advance
      match Literal.ofToken a with
      | .ok value => alloc (.literal value) a.span
      | .error e => throw e) (do
      let _ ← advance
      match Literal.ofToken b with
      | .ok value => alloc (.literal value) b.span
      | .error e => throw e) := by
  refine lockstep_advance.bind fun _ _ _ => ?_
  generalize hr : Literal.ofToken a = r
  generalize hr' : Literal.ofToken b = r'
  have hrr := sameOutcome_ofToken hab
  rw [hr, hr'] at hrr
  cases hrr with
  | ok hv =>
    subst hv
    exact lockstep_alloc (by constructor <;> rfl) _ _
  | error he => exact .throw he

theorem lockstep_operandWith (h : ∀ power, Lockstep o (Later o) (f power) (g power)) :
    Lockstep o (Later o) (operandWith f) (operandWith g) := by
  refine lockstep_peek.bind fun a b hab => ?_
  have hleaf : ∀ c c' : Construct, c.Moved o.nodes c' → ∀ s s' : Span, Lockstep o (Later o)
      (do let _ ← advance; alloc c s) (do let _ ← advance; alloc c' s') :=
    fun c c' hc s s' => lockstep_advance.bind fun _ _ _ => lockstep_alloc hc s s'
  have hunary : ∀ op : UnaryOp, Lockstep o (Later o) (do
      let _ ← advance
      let operand ← f BindingPower.unaryPower
      alloc (.unary op operand) (a.span.merge (← spanOf operand))) (do
      let _ ← advance
      let operand ← g BindingPower.unaryPower
      alloc (.unary op operand) (b.span.merge (← spanOf operand))) := by
    intro op
    refine lockstep_advance.bind fun _ _ _ => (h _).bind fun i j hij => ?_
    subst hij
    exact (lockstep_spanOf _ _).bind fun _ _ _ => lockstep_alloc (by constructor <;> rfl) _ _
  rw [hab.kind]
  cases hb : b.kind with
  | intLiteral | longLiteral | floatLiteral | doubleLiteral | stringLiteral =>
    exact lockstep_spelled hab
  | trueWord | falseWord | nullWord => exact hleaf _ _ ⟨rfl, rfl⟩ _ _
  | minus => exact hunary .neg
  | bang => exact hunary .not
  | leftParen =>
    refine lockstep_advance.bind fun _ _ _ => (h 0).bind fun i j hij => ?_
    subst hij
    exact (lockstep_expect _).bind fun _ _ _ => lockstep_spanned (by constructor <;> rfl) _ _
  | newWord =>
    refine lockstep_advance.bind fun _ _ _ => lockstep_type.bind fun w w' hw => ?_
    refine (lockstep_argumentsWith h).bind fun as bs habs => ?_
    subst habs
    refine lockstep_spanned ⟨?_, rfl⟩ _ _
    rw [Construct.outline, Construct.outline, hw, List.map_map]
    rfl
  | castWord => exact lockstep_castWith h
  | identifier =>
    refine hleaf _ _ ⟨?_, rfl⟩ _ _
    rw [hab.lexeme]
    rfl
  | _ => exact .throw (.of_ne (by simp) _ _ _)

theorem lockstep_memberAfter {i j : NodeId} (hij : Later o i j) :
    Lockstep o (Later o) (memberAfter i) (memberAfter j) := by
  subst hij
  refine lockstep_advance.bind fun _ _ _ => lockstep_ident.bind fun n n' hn => ?_
  refine (lockstep_spanOf _ _).bind fun _ _ _ => lockstep_alloc ⟨?_, rfl⟩ _ _
  rw [Construct.outline, Construct.outline, hn]

theorem lockstep_callAfter (h : ∀ power, Lockstep o (Later o) (f power) (g power)) {i j : NodeId}
    (hij : Later o i j) : Lockstep o (Later o) (callAfter f i) (callAfter g j) := by
  subst hij
  refine (lockstep_argumentsWith h).bind fun as bs habs => (lockstep_spanOf _ _).bind fun _ _ _ => ?_
  subst habs
  refine lockstep_spanned ⟨?_, rfl⟩ _ _
  rw [Construct.outline, Construct.outline, List.map_map]
  rfl

/-- What a construct is called, and whether it can be assigned to, is in its outline. -/
theorem name_eq_of_outline_eq {c c' : Construct} (h : c.outline = c'.outline) :
    c.name = c'.name ∧ c.isAssignable = c'.isAssignable := by
  have hname : ∀ c : Construct, c.outline.name = c.name := fun c => by cases c <;> rfl
  have hassign : ∀ c : Construct, c.outline.isAssignable = c.isAssignable :=
    fun c => by cases c <;> rfl
  rw [← hname c, ← hname c', ← hassign c, ← hassign c', h]
  exact ⟨rfl, rfl⟩

theorem lockstep_assignAfter (h : ∀ power, Lockstep o (Later o) (f power) (g power)) (op : AssignOp)
    {i j : NodeId} (hij : Later o i j) :
    Lockstep o (Later o) (assignAfter f op i) (assignAfter g op j) := by
  subst hij
  refine lockstep_advance.bind fun a b _ => ?_
  have hvalue : Lockstep o (Later o) (do
      let value ← f BindingPower.assignRight
      alloc (.assign op i value) ((← spanOf i).merge (← spanOf value))) (do
      let value ← g BindingPower.assignRight
      alloc (.assign op (i + o.nodes) value)
        ((← spanOf (i + o.nodes)).merge (← spanOf value))) := by
    refine (h _).bind fun v v' hv => ?_
    subst hv
    refine (lockstep_spanOf _ _).bind fun _ _ _ => (lockstep_spanOf _ _).bind fun _ _ _ => ?_
    exact lockstep_alloc (by constructor <;> rfl) _ _
  -- the target is the same node in both trees, so it is assignable in both or in neither
  refine lockstep_get.bind fun p q hpq => ?_
  have htarget := hpq.constructs i
  generalize p.tree.construct? i = x at htarget
  generalize q.tree.construct? (i + o.nodes) = y at htarget
  cases htarget with
  | none => exact hvalue
  | some hc =>
    obtain ⟨hname, hassign⟩ := name_eq_of_outline_eq hc.outline
    dsimp only
    rw [hassign, hname]
    split
    · exact .throw_bind (.of_ne (by simp) _ _ _) _ _
    · exact hvalue

theorem lockstep_binaryAfter (h : ∀ power, Lockstep o (Later o) (f power) (g power)) (op : BinaryOp)
    {i j : NodeId} (hij : Later o i j) :
    Lockstep o (Later o) (binaryAfter f op i) (binaryAfter g op j) := by
  subst hij
  refine lockstep_advance.bind fun _ _ _ => (h _).bind fun r r' hr => ?_
  subst hr
  refine (lockstep_spanOf _ _).bind fun _ _ _ => (lockstep_spanOf _ _).bind fun _ _ _ => ?_
  exact lockstep_alloc (by constructor <;> rfl) _ _

/-- **Whatever operator comes next, it comes next in both.** -/
theorem lockstep_operatorAfter? (h : ∀ power, Lockstep o (Later o) (f power) (g power))
    (power : Nat) (k : TokenKind) {i j : NodeId} (hij : Later o i j) :
    Option.Rel (Lockstep o (Later o)) (operatorAfter? f power k i) (operatorAfter? g power k j) := by
  unfold operatorAfter?
  split
  · split
    · exact .none
    · exact .some (lockstep_memberAfter hij)
  split
  · split
    · exact .none
    · exact .some (lockstep_callAfter h hij)
  split
  · split
    · exact .none
    · exact .some (lockstep_assignAfter h _ hij)
  split
  · split
    · exact .none
    · exact .some (lockstep_binaryAfter h _ hij)
  · exact .none

theorem lockstep_operatorsTo (h : ∀ power, Lockstep o (Later o) (f power) (g power)) (power : Nat) :
    ∀ (turns : Nat) {i j : NodeId}, Later o i j →
      Lockstep o (Later o) (operatorsTo f power turns i) (operatorsTo g power turns j)
  | 0, _, _, _ => lockstep_exhausted
  | turns + 1, i, j, hij => by
    refine lockstep_peek.bind fun a b hab => ?_
    rw [hab.kind]
    have hnext := lockstep_operatorAfter? h power b.kind hij
    generalize operatorAfter? f power b.kind i = x at hnext
    generalize operatorAfter? g power b.kind j = y at hnext
    cases hnext with
    | none => exact .pure hij
    | some hxy => exact hxy.bind fun _ _ hlhs => lockstep_operatorsTo h power turns hlhs

end Expressions

section Statements

variable {o : Offset}

theorem lockstep_exprTo : ∀ depth power,
    Lockstep o (Later o) (exprTo depth power) (exprTo depth power)
  | 0, _ => lockstep_exhausted
  | depth + 1, power => by
    refine (lockstep_operandWith (lockstep_exprTo depth)).bind fun i j hij => ?_
    refine lockstep_limit.bind fun n m hn => ?_
    subst hn
    exact lockstep_operatorsTo (lockstep_exprTo depth) power n hij

theorem lockstep_expr (power : Nat) : Lockstep o (Later o) (expr power) (expr power) := by
  refine lockstep_limit.bind fun n m hn => ?_
  subst hn
  exact lockstep_exprTo n power

/-! ## 7. Statements -/

theorem lockstep_exprStmt : Lockstep o (Later o) exprStmt exprStmt := by
  refine lockstep_peek.bind fun _ _ _ => (lockstep_expr 0).bind fun i j hij => ?_
  subst hij
  exact (lockstep_expect _).bind fun _ _ _ => lockstep_spanned (by constructor <;> rfl) _ _

/-- The node of the second, if there is one, comes so much later. -/
def OptLater (o : Offset) (a b : Option NodeId) : Prop := b = a.map (· + o.nodes)

theorem OptLater.some {i j : NodeId} (h : Later o i j) : OptLater o (.some i) (.some j) :=
  congrArg Option.some h

theorem lockstep_initializer : Lockstep o (OptLater o) initializer initializer := by
  refine (lockstep_eat _).bind fun b b' hb => .ite hb ?_ (.pure rfl)
  exact (lockstep_expr 0).bind fun _ _ hij => .pure (.some hij)

/-- The same variable, and its initializer comes so much later. -/
def SameVar (o : Offset) (a b : Declarator) : Prop :=
  SameName a.name b.name ∧ OptLater o a.init b.init

theorem lockstep_declarator : Lockstep o (SameVar o) declarator declarator :=
  lockstep_ident.bind fun _ _ hn => lockstep_initializer.bind fun _ _ hi => .pure ⟨hn, hi⟩

theorem moved_localDecl {w w' : WrittenType} {vars vars' : List Declarator} (hw : SameType w w')
    (h : List.Forall₂ (SameVar o) vars vars') :
    Construct.Moved o.nodes (.localDecl w vars) (.localDecl w' vars') := by
  have hvars : vars.map (fun v => Declarator.mk v.name.unplaced (v.init.map fun _ => 0)) =
      vars'.map (fun v => Declarator.mk v.name.unplaced (v.init.map fun _ => 0)) ∧
      vars'.filterMap Declarator.init = (vars.filterMap Declarator.init).map (· + o.nodes) := by
    induction h with
    | nil => exact ⟨rfl, rfl⟩
    | cons hv _ ih =>
      obtain ⟨hn, hi⟩ := hv
      obtain ⟨ih₁, ih₂⟩ := ih
      constructor
      · rw [List.map_cons, List.map_cons, ih₁, hn, hi, Option.map_map]
        rfl
      · rw [List.filterMap_cons, List.filterMap_cons, hi, ih₂]
        cases Declarator.init _ <;> rfl
  constructor
  · rw [Construct.outline, Construct.outline, hw, hvars.1]
  · exact hvars.2

theorem lockstep_localDecl : Lockstep o (Later o) localDecl localDecl := by
  refine lockstep_type.bind fun w w' hw => (lockstep_separated lockstep_declarator).bind ?_
  intro vars vars' hvars
  exact (lockstep_expect _).bind fun _ _ _ => lockstep_spanned (moved_localDecl hw hvars) _ _

theorem lockstep_returnStmt : Lockstep o (Later o) returnStmt returnStmt := by
  refine (lockstep_expect _).bind fun a b _ => (lockstep_check _).bind fun c c' hc => ?_
  have hend : ∀ v v' : Option NodeId, OptLater o v v' → Lockstep o (Later o) (do
      let _ ← expect .semicolon
      alloc (.returnStmt v) (← spanFrom a.span)) (do
      let _ ← expect .semicolon
      alloc (.returnStmt v') (← spanFrom b.span)) := by
    intro v v' hv
    subst hv
    refine (lockstep_expect _).bind fun _ _ _ => lockstep_spanned ?_ _ _
    cases v <;> exact ⟨rfl, rfl⟩
  refine .ite hc ((Lockstep.pure (R := OptLater o) rfl).bind hend) ?_
  refine (lockstep_expr 0).bind fun i j hij => ?_
  exact (Lockstep.pure (OptLater.some hij)).bind hend

theorem lockstep_yieldStmt : Lockstep o (Later o) yieldStmt yieldStmt := by
  refine (lockstep_expect _).bind fun _ _ _ => (lockstep_expect _).bind fun _ _ _ => ?_
  refine (lockstep_expr 0).bind fun i j hij => ?_
  subst hij
  exact (lockstep_expect _).bind fun _ _ _ => lockstep_spanned (by constructor <;> rfl) _ _

theorem lockstep_jumpStmt {c : Construct} (hc : c.children = []) :
    Lockstep o (Later o) (jumpStmt c) (jumpStmt c) := by
  refine lockstep_advance.bind fun _ _ _ => (lockstep_expect _).bind fun _ _ _ => ?_
  exact lockstep_spanned ⟨rfl, by rw [hc]; rfl⟩ _ _

theorem lockstep_emptyStmt : Lockstep o (Later o) emptyStmt emptyStmt :=
  lockstep_advance.bind fun _ _ _ => lockstep_alloc (by constructor <;> rfl) _ _

theorem lockstep_condition : Lockstep o (Later o) condition condition :=
  (lockstep_expect _).bind fun _ _ _ => (lockstep_expr 0).bind fun _ _ hij =>
    (lockstep_expect _).bind fun _ _ _ => .pure hij

variable {x y : Parse NodeId}

theorem lockstep_blockWith (h : Lockstep o (Later o) x y) :
    Lockstep o (Later o) (blockWith x) (blockWith y) := by
  refine (lockstep_expect _).bind fun _ _ _ => (lockstep_items h true).bind fun as bs habs => ?_
  subst habs
  refine (lockstep_expect _).bind fun _ _ _ => lockstep_spanned ⟨?_, rfl⟩ _ _
  rw [Construct.outline, Construct.outline, List.map_map]
  rfl

theorem lockstep_ifWith (h : Lockstep o (Later o) x y) :
    Lockstep o (Later o) (ifWith x) (ifWith y) := by
  refine (lockstep_expect _).bind fun a b _ => lockstep_condition.bind fun c c' hc => ?_
  refine h.bind fun t t' ht => (lockstep_eat _).bind fun e e' he => ?_
  subst hc ht
  have hend : ∀ v v' : Option NodeId, OptLater o v v' → Lockstep o (Later o) (do
      alloc (.ifStmt c t v) (← spanFrom a.span)) (do
      alloc (.ifStmt (c + o.nodes) (t + o.nodes) v') (← spanFrom b.span)) := by
    intro v v' hv
    subst hv
    refine lockstep_spanned ?_ _ _
    cases v <;> exact ⟨rfl, rfl⟩
  refine .ite he ?_ ((Lockstep.pure (R := OptLater o) rfl).bind hend)
  exact h.bind fun i j hij => (Lockstep.pure (OptLater.some hij)).bind hend

theorem lockstep_whileWith (h : Lockstep o (Later o) x y) :
    Lockstep o (Later o) (whileWith x) (whileWith y) := by
  refine (lockstep_expect _).bind fun _ _ _ => lockstep_condition.bind fun c c' hc => ?_
  refine h.bind fun i j hij => ?_
  subst hc hij
  exact lockstep_spanned (by constructor <;> rfl) _ _

theorem lockstep_doWith (h : Lockstep o (Later o) x y) :
    Lockstep o (Later o) (doWith x) (doWith y) := by
  refine (lockstep_expect _).bind fun _ _ _ => h.bind fun i j hij => ?_
  refine (lockstep_expect _).bind fun _ _ _ => lockstep_condition.bind fun c c' hc => ?_
  subst hc hij
  exact (lockstep_expect _).bind fun _ _ _ => lockstep_spanned (by constructor <;> rfl) _ _

theorem lockstep_statementWith (h : Lockstep o (Later o) x y) :
    Lockstep o (Later o) (statementWith x) (statementWith y) := by
  refine lockstep_peek.bind fun a b hab => ?_
  rw [hab.kind]
  split
  · exact lockstep_blockWith h
  · exact lockstep_ifWith h
  · exact lockstep_whileWith h
  · exact lockstep_doWith h
  · exact lockstep_returnStmt
  · exact lockstep_yieldStmt
  · exact lockstep_jumpStmt rfl
  · exact lockstep_jumpStmt rfl
  · exact lockstep_emptyStmt
  · refine lockstep_isVarDecl.bind fun c c' hc => .ite hc ?_ ?_
    · exact lockstep_localDecl
    · exact lockstep_exprStmt

theorem lockstep_statementTo : ∀ depth,
    Lockstep o (Later o) (statementTo depth) (statementTo depth)
  | 0 => lockstep_exhausted
  | depth + 1 => lockstep_statementWith (lockstep_statementTo depth)

theorem lockstep_statement : Lockstep o (Later o) statement statement := by
  refine lockstep_limit.bind fun n m hn => ?_
  subst hn
  exact lockstep_statementTo n

end Statements

/-! ## 8. Programs -/

section Programs

variable {o : Offset}

/-- The same parameter. -/
def SameParam (a b : Param) : Prop := a.unplaced = b.unplaced

theorem lockstep_param : Lockstep o SameParam param param := by
  refine lockstep_type.bind fun w w' hw => lockstep_ident.bind fun n n' hn => .pure ?_
  rw [SameParam, Param.unplaced, Param.unplaced, hw, hn]

theorem lockstep_function : Lockstep o (Later o) function function := by
  refine lockstep_type.bind fun w w' hw => lockstep_ident.bind fun n n' hn => ?_
  have hbody : ∀ ps ps' : List Param, List.Forall₂ SameParam ps ps' → Lockstep o (Later o) (do
      let _ ← expect .rightParen
      let body ← block
      alloc (.function w n ps body) (← spanFrom w.span)) (do
      let _ ← expect .rightParen
      let body ← block
      alloc (.function w' n' ps' body) (← spanFrom w'.span)) := by
    intro ps ps' hps
    refine (lockstep_expect _).bind fun _ _ _ => ?_
    refine (lockstep_blockWith lockstep_statement).bind fun i j hij => ?_
    subst hij
    refine lockstep_spanned ⟨?_, rfl⟩ _ _
    have hmap : ps.map Param.unplaced = ps'.map Param.unplaced :=
      List.forall₂_eq_eq_eq ▸ List.forall₂_map_left_iff.mpr (List.forall₂_map_right_iff.mpr hps)
    rw [Construct.outline, Construct.outline, hw, hn, hmap]
  refine (lockstep_expect _).bind fun _ _ _ => (lockstep_check _).bind fun c c' hc => ?_
  refine .ite hc ((Lockstep.pure .nil).bind hbody) ?_
  exact (lockstep_separated lockstep_param).bind hbody

theorem lockstep_accessorsTo : ∀ turns, Lockstep o Eq (accessorsTo turns) (accessorsTo turns)
  | 0 => lockstep_exhausted
  | turns + 1 => by
    refine (lockstep_check _).bind fun c c' hc => .ite hc (.pure rfl) ?_
    refine (lockstep_checkWord _).bind fun s s' hs => (lockstep_checkWord _).bind fun t t' ht => ?_
    refine .ite (by rw [hs, ht]) ?_ ?_
    · refine lockstep_advance.bind fun _ _ _ => (lockstep_expect _).bind fun _ _ _ => ?_
      exact (lockstep_accessorsTo turns).bind fun m m' hm => .pure (by rw [hs, hm])
    · refine lockstep_peek.bind fun a b hab => ?_
      rw [hab.kind]
      exact .throw (.of_ne (by simp) _ _ _)

theorem lockstep_accessors : Lockstep o Eq accessors accessors := by
  refine (lockstep_expect _).bind fun _ _ _ => lockstep_limit.bind fun n m hn => ?_
  subst hn
  exact (lockstep_accessorsTo n).bind fun _ _ hs => (lockstep_expect _).bind fun _ _ _ => .pure hs

theorem lockstep_classMember : Lockstep o (Later o) classMember classMember := by
  refine lockstep_isFunctionDecl.bind fun c c' hc => .ite hc lockstep_function ?_
  refine lockstep_type.bind fun w w' hw => lockstep_ident.bind fun n n' hn => ?_
  refine (lockstep_check _).bind fun b b' hb => .ite hb ?_ ?_
  · refine lockstep_accessors.bind fun s s' hs => lockstep_spanned ⟨?_, rfl⟩ _ _
    rw [Construct.outline, Construct.outline, hw, hn, hs]
  · refine lockstep_initializer.bind fun v v' hv => (lockstep_expect _).bind fun _ _ _ => ?_
    subst hv
    refine lockstep_spanned ⟨?_, ?_⟩ _ _
    · rw [Construct.outline, Construct.outline, hw, hn, Option.map_map]
      rfl
    · cases v <;> rfl

theorem lockstep_classDecl : Lockstep o (Later o) classDecl classDecl := by
  refine (lockstep_expect _).bind fun _ _ _ => lockstep_ident.bind fun n n' hn => ?_
  refine (lockstep_expect _).bind fun _ _ _ => ?_
  refine (lockstep_items lockstep_classMember true).bind fun as bs habs => ?_
  subst habs
  refine (lockstep_expect _).bind fun _ _ _ => lockstep_spanned ⟨?_, rfl⟩ _ _
  rw [Construct.outline, Construct.outline, hn, List.map_map]
  rfl

/-- **A class, a function or a statement is read in step.** -/
theorem lockstep_item : Lockstep o (Later o) item item := by
  refine (lockstep_check _).bind fun b b' hb => .ite hb lockstep_classDecl ?_
  refine lockstep_isFunctionDecl.bind fun c c' hc => .ite hc ?_ ?_
  · exact lockstep_function
  · exact lockstep_statement

theorem lockstep_itemsUntilEnd :
    Lockstep o (AllLater o) (itemsUntilEnd item) (itemsUntilEnd item) :=
  lockstep_items lockstep_item false

end Programs

end Parse

/-! ## 9. Whole texts -/

/-- The same nodes with the same links, but for their places. -/
structure SyntaxTree.SameButPlaces (t u : SyntaxTree) : Prop where
  size : t.size = u.size
  root : t.root = u.root
  parents : ∀ i, t.parent? i = u.parent? i
  outlines : ∀ i, (t.construct? i).map Construct.outline = (u.construct? i).map Construct.outline
  children : ∀ i, t.children i = u.children i

/-- What the parser itself has found wrong, without the places. -/
def ParseError.reports (errors : List ParseError) : List (ParseErrorKind × String) :=
  (errors.filter fun e => e.kind ≠ .lexerError).map fun e => (e.kind, e.message)

/-- Errors of the lexer are not found by the parser. -/
theorem ParseError.reports_append_of_lexer (lexed : List LexError) (es : List ParseError) :
    reports (lexed.map .ofLexError ++ es) = reports es := by
  have hlexed : (lexed.map ofLexError).filter (fun e => e.kind ≠ .lexerError) = [] := by
    rw [List.filter_eq_nil_iff]
    intro e he
    obtain ⟨l, -, rfl⟩ := List.mem_map.mp he
    simp [ofLexError]
  rw [reports, reports, List.filter_append, hlexed, List.nil_append]

theorem ParseError.reports_eq_of_forall₂ {es es' : List ParseError}
    (h : List.Forall₂ Matches es es') : reports es = reports es' := by
  induction h with
  | nil => rfl
  | @cons e e' es es' he _ ih =>
    have hne : e'.kind ≠ .lexerError := he.kind ▸ he.parsed
    unfold reports at ih ⊢
    rw [List.filter_cons_of_pos (by simpa using he.parsed),
      List.filter_cons_of_pos (by simpa using hne), List.map_cons, List.map_cons, ih, he.kind,
      he.message]

/-- Parsers in step, neither of them ahead, have built the same tree. -/
theorem Parser.InStep.sameButPlaces {p q : Parser} {es es' : List ParseError}
    (h : InStep ⟨0, es, es'⟩ p q) (root : NodeId) :
    SyntaxTree.SameButPlaces { p.tree with root := root } { q.tree with root := root } where
  size := h.size.symm
  root := rfl
  parents i := by
    have hi := h.parents i
    simp only [Nat.add_zero, Option.map_id'] at hi
    exact hi.symm
  outlines i := by
    have hi : Option.Rel (Construct.Moved 0) (p.tree.construct? i) (q.tree.construct? i) :=
      h.constructs i
    change (p.tree.construct? i).map _ = (q.tree.construct? i).map _
    generalize p.tree.construct? i = x at hi
    generalize q.tree.construct? i = y at hi
    cases hi with
    | none => rfl
    | some hc => exact congrArg some hc.outline
  children i := by
    have hi : Option.Rel (Construct.Moved 0) (p.tree.construct? i) (q.tree.construct? i) :=
      h.constructs i
    change ((p.tree.construct? i).map _).getD _ = ((q.tree.construct? i).map _).getD _
    generalize p.tree.construct? i = x at hi
    generalize q.tree.construct? i = y at hi
    cases hi with
    | none => rfl
    | some hc =>
      have hchildren := hc.children
      simp only [Nat.add_zero, List.map_id'] at hchildren
      exact hchildren.symm

/-- The end of the text is left out as well. -/
theorem Parser.bare_tokens_ofText (text : String) : (ofText text).tokens.map Token.bare =
    (((tokenize text).1.filter fun t => t.kind ≠ .error).map Token.bare).filter
      fun t => t.1 ≠ .eof := by
  have htokens : (ofText text).tokens =
      (tokenize text).1.filter fun t => t.kind ≠ .error ∧ t.kind ≠ .eof := rfl
  rw [htokens, List.filter_map, List.filter_filter]
  congr 2
  funext t
  rw [Bool.eq_iff_iff]
  simp only [Function.comp_apply, Bool.and_eq_true, decide_eq_true_eq]
  exact And.comm

/-- Two texts with the same tokens are read in step from their starts. -/
theorem Parser.inStep_ofText {a b : String}
    (h : Token.SameBare ((tokenize a).1.filter fun t => t.kind ≠ .error)
      ((tokenize b).1.filter fun t => t.kind ≠ .error)) :
    InStep ⟨0, (tokenize a).2.map .ofLexError, (tokenize b).2.map .ofLexError⟩ (ofText a)
      (ofText b) where
  tokens := by
    rw [Token.SameBare, bare_tokens_ofText, bare_tokens_ofText, h]
  size := rfl
  constructs _ := .none
  parents _ := rfl
  errors := ⟨[], [], (List.append_nil _).symm, (List.append_nil _).symm, .nil⟩

/-- **Places never matter.**  Two texts whose tokens agree in kind and spelling, characters that form
no token left aside, have the same tree and the same errors of the parser, but for the places. -/
theorem parseLenient_sameButPlaces {a b : String}
    (h : Token.SameBare ((tokenize a).1.filter fun t => t.kind ≠ .error)
      ((tokenize b).1.filter fun t => t.kind ≠ .error)) :
    (parseLenient a).1.SameButPlaces (parseLenient b).1 ∧
      ParseError.reports (parseLenient a).2 = ParseError.reports (parseLenient b).2 := by
  obtain ⟨items, p, hp, hpe, hpt⟩ := parseLenient_apply a
  obtain ⟨items', q, hq, hqe, hqt⟩ := parseLenient_apply b
  obtain ⟨hitems, hpq⟩ := Parse.lockstep_itemsUntilEnd _ _ (Parser.inStep_ofText h)
  rw [hp, hq] at hitems hpq
  cases hitems with
  | ok hids =>
    subst hids
    constructor
    · have hroot : q.tree.size = p.tree.size := hpq.size
      rw [hpt, hqt, hroot]
      refine (hpq.alloc ⟨?_, rfl⟩ _ _).sameButPlaces p.tree.size
      rw [Construct.outline, Construct.outline, List.map_map]
      rfl
    · obtain ⟨es, es', hes, hes', hmatch⟩ := hpq.errors
      rw [hpe, hqe, hes, hes', ParseError.reports_append_of_lexer,
        ParseError.reports_append_of_lexer, ParseError.reports_eq_of_forall₂ hmatch]

/-- A comment, line breaks and a stray character inside a statement that fails, and between others. -/
theorem parseLenient_sameButPlaces_of_comment :
    (parseLenient "int x = 1; x = (2; f(x);").1.SameButPlaces
      (parseLenient "int x /* one */ = 1;\nx = #(2\n; // two\n  f(x);").1 ∧
    ParseError.reports (parseLenient "int x = 1; x = (2; f(x);").2 =
      ParseError.reports (parseLenient "int x /* one */ = 1;\nx = #(2\n; // two\n  f(x);").2 :=
  parseLenient_sameButPlaces (by decide +kernel)

end Recast
