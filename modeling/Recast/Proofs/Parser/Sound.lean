/-
# Reading expressions

Every activity of the parser that succeeds has read tokens that spell the tree which it built, and
that tree fits its role.  This module says so of types and expressions.

* `Got b p ps ts q`: between the parsers `p` and `q` the tokens `ts` were read, and they spell the
  pieces `ps`.  Blocks go on after errors and leave out tokens; the flag `b` says that none was left
  out, and none was in any case if no error was recorded;
* `ReadsExpr`: what it is to have read an expression.  One operator keeps it
  (`operatorAfter?_sound`), so all do (`operatorsTo_sound`);
* `exprTo_sound`: **an expression is read with all its operators**, up to one that binds more
  loosely.
-/
import Recast.Proofs.Grammar.Fits
import Recast.Proofs.Parser.Builds

namespace Recast

open Recast.Parser (headKind)
open SyntaxTree

/-! ## 1. Tokens read so far -/

/-- The node covers its tokens. -/
def Placed (t : SyntaxTree) : NodeId → List Token → Prop := fun id ts => t.spanOf id = cover ts

/-- The last of the tokens is the one that was read last. -/
def Parser.EndsWith (q : Parser) (ts : List Token) : Prop :=
  ∃ b, ts.getLast? = some b ∧ q.lastSpan = b.span

theorem Parser.EndsWith.append {q : Parser} {us : List Token} (h : q.EndsWith us)
    (ts : List Token) : q.EndsWith (ts ++ us) := by
  obtain ⟨b, hb, hl⟩ := h
  refine ⟨b, ?_, hl⟩
  rw [List.getLast?_append, hb]
  rfl

theorem Parser.EndsWith.ne_nil {q : Parser} {ts : List Token} (h : q.EndsWith ts) : ts ≠ [] := by
  obtain ⟨b, hb, -⟩ := h
  rintro rfl
  cases hb

theorem Parser.endsWith_read {p : Parser} {ts rest : List Token} (h : ts ≠ []) :
    (p.read ts rest).EndsWith ts := by
  obtain ⟨-, b, -, hb, -, -⟩ := exists_ends h
  exact ⟨b, hb, Parser.read_lastSpan hb⟩

/-- Between two parsers some tokens were read, and they spell the pieces over the later tree.
Further tokens were left out only if the reading is not clean and an error was recorded. -/
structure Got (b : Bool) (p : Parser) (ps : List Piece) (ts : List Token) (q : Parser) :
    Prop where
  tree : p.tree.Extends q.tree
  tokens : (ts ++ q.tokens).Sublist p.tokens
  errors : p.errors <+: q.errors
  whole : b = true ∨ q.errors = p.errors → p.tokens = ts ++ q.tokens ∧ q.errors = p.errors
  spells : Spells q.tree (Placed q.tree) ps ts

/-- Spelling does not change when the table grows. -/
theorem Spells.extends {t u : SyntaxTree} {ps : List Piece} {ts : List Token}
    (h : Spells t (Placed t) ps ts) (he : t.Extends u) : Spells u (Placed u) ps ts :=
  h.mono (fun _ _ hc => he.construct?_eq_some hc) fun id us hid hat => by
    rw [Placed, he.span_eq id hid]
    exact hat

theorem Fits.extends {t u : SyntaxTree} {role : Role} {id : NodeId} (h : Fits t role id)
    (he : t.Extends u) : Fits u role id :=
  h.mono fun _ _ hc => he.construct?_eq_some hc

namespace Got

variable {b : Bool} {p q r : Parser} {ps qs : List Piece} {ts us rest : List Token}

theorem nil (p : Parser) : Got b p [] [] p :=
  ⟨.refl _, List.Sublist.refl _, List.prefix_refl _, fun _ => ⟨rfl, rfl⟩, .nil⟩

theorem trans (h : Got b p ps ts q) (h' : Got b q qs us r) :
    Got b p (ps ++ qs) (ts ++ us) r where
  tree := h.tree.trans h'.tree
  tokens := by
    rw [List.append_assoc]
    exact ((List.Sublist.refl ts).append h'.tokens).trans h.tokens
  errors := h.errors.trans h'.errors
  whole hc := by
    have hq : b = true ∨ q.errors = p.errors := by
      rcases hc with hc | hc
      · exact .inl hc
      · refine .inr (h.errors.eq_of_length_le ?_).symm
        rw [← hc]
        exact h'.errors.length_le
    obtain ⟨hp, he⟩ := h.whole hq
    have hr : b = true ∨ r.errors = q.errors := hc.imp id fun hc => hc.trans he.symm
    obtain ⟨hp', he'⟩ := h'.whole hr
    exact ⟨by rw [hp, hp', List.append_assoc], he'.trans he⟩
  spells := (h.spells.extends h'.tree).append h'.spells

/-- A clean reading is a reading. -/
theorem lax (h : Got true p ps ts q) : Got b p ps ts q :=
  { h with whole := fun _ => h.whole (.inl rfl) }

/-- Reading tokens without building nodes. -/
theorem read (hp : p.tokens = ts ++ rest) (h : Spells p.tree (Placed p.tree) ps ts) :
    Got b p ps ts (p.read ts rest) where
  tree := .refl _
  tokens := by rw [hp]; exact List.Sublist.refl _
  errors := List.prefix_refl _
  whole _ := ⟨hp, rfl⟩
  spells := h

/-- Reading one token. -/
theorem token {a : Token} {piece : Piece} (hp : p.tokens = a :: rest) (h : piece.Spelled [a]) :
    Got b p [piece] [a] (p.read [a] rest) :=
  .read hp (show Spells _ _ [piece] ([a] ++ []) from .leaf h .nil)

theorem sign {a : Token} {k : TokenKind} (h : Parse.expect k p = (.ok a, q)) (hk : k ≠ .eof) :
    Got b p [.sign k] [a] q ∧ q.EndsWith [a] := by
  obtain ⟨rest, hp, ha, rfl⟩ := (Parse.expect_eq_ok hk).mp h
  exact ⟨.token hp ⟨a, rfl, ha⟩, Parser.endsWith_read (by simp)⟩

theorem name {n : Ident} (h : Parse.ident p = (.ok n, q)) :
    ∃ a, Got b p [.name n.name] [a] q ∧ q.EndsWith [a] ∧ n.span = a.span := by
  obtain ⟨a, rest, hp, ha, rfl, rfl⟩ := Parse.ident_eq_ok.mp h
  exact ⟨a, .token hp ⟨a, rfl, ha, rfl⟩, Parser.endsWith_read (by simp), rfl⟩

theorem type {w : WrittenType} (h : Parse.type p = (.ok w, q)) (ho : Ordered p.tokens) :
    ∃ ts, Got b p [.type w] ts q ∧ q.EndsWith ts ∧ w.span = cover ts ∧
      EndsType ts q.tokens := by
  obtain ⟨ts, ⟨hp, hq⟩, hs, hend, hspan⟩ := Parse.type_sound h
  have hne := hs.ne_nil
  rw [hq]
  refine ⟨ts, .read hp ?_, Parser.endsWith_read hne, hspan ho, hend⟩
  rw [← List.append_nil ts]
  exact .leaf (p := .type w) hs .nil

/-- **A new node is spelled by the tokens of its pieces**, if its span covers them. -/
theorem alloc {c : Construct} {span : Span} (h : Got b p c.pieces ts q)
    (hs : span = cover ts) :
    Got b p [.node q.tree.size] ts { q with tree := (q.tree.alloc c span).2 } where
  tree := h.tree.trans (.alloc _ _ _)
  tokens := h.tokens
  errors := h.errors
  whole := h.whole
  spells := by
    refine Spells.node_iff.mpr ⟨c, ?_, h.spells.extends (.alloc _ _ _), ?_⟩
    · rw [construct?_alloc, if_pos rfl]
    · rw [Placed, spanOf_alloc, if_pos rfl, hs]

theorem ordered (h : Got b p ps ts q) (ho : Ordered p.tokens) : Ordered (ts ++ q.tokens) :=
  ho.sublist h.tokens

/-- The span of a node that was read, also when the table has grown since. -/
theorem spanOf {u : SyntaxTree} {id : NodeId} (h : Got b p [.node id] ts q)
    (he : q.tree.Extends u) : u.spanOf id = cover ts := by
  obtain ⟨-, -, -, hat⟩ := Spells.node_iff.mp (h.spells.extends he)
  exact hat

/-- The span from the start of what was read through the token read last. -/
theorem spanFrom (h : Got b p ps (ts ++ us) q) (ho : Ordered p.tokens) (hts : ts ≠ [])
    (he : q.EndsWith (ts ++ us)) : (cover ts).merge q.lastSpan = cover (ts ++ us) := by
  obtain ⟨b, hb, hl⟩ := he
  rw [hl]
  exact cover_merge_last (h.ordered ho).left hts hb

theorem fits {role : Role} {id : NodeId} (h : Got b p ps ts q) (hf : Fits p.tree role id) :
    Fits q.tree role id := hf.extends h.tree

end Got

/-- A node that comes later in the table is another one. -/
theorem Fits.ne_of_size_le {t : SyntaxTree} {role : Role} {a b : NodeId} (h : Fits t role a)
    (hb : t.size ≤ b) : b ≠ a := by
  cases h with
  | node _ hc _ _ => exact Nat.ne_of_gt (Nat.lt_of_lt_of_le (lt_size_of_construct? hc) hb)

/-- Roles that some nodes have one by one are the values of one function. -/
theorem Fits.exists_roles {t : SyntaxTree} (P : Role → Prop) {ids : List NodeId}
    (h : ∀ k ∈ ids, ∃ role, P role ∧ Fits t role k) :
    ∃ ρ : NodeId → Role, ∀ k ∈ ids, P (ρ k) ∧ Fits t (ρ k) k := by
  classical
  refine ⟨fun k => if hk : k ∈ ids then (h k hk).choose else .item, fun k hk => ?_⟩
  simp only [dif_pos hk]
  exact (h k hk).choose_spec

/-- The role of a new node. -/
theorem Fits.alloc {t : SyntaxTree} {c : Construct} {role : Role} (span : Span) (ρ : NodeId → Role)
    (ha : Admits t ρ c role) (hk : ∀ k ∈ c.children, Fits t (ρ k) k) :
    Fits (t.alloc c span).2 role t.size := by
  have he : t.Extends (t.alloc c span).2 := .alloc t c span
  refine .node (c := c) ρ ?_ (ha.mono fun _ _ h => he.construct?_eq_some h)
    fun k hk' => (hk k hk').extends he
  rw [construct?_alloc, if_pos rfl]

namespace Parse

/-! ## 2. Sequences with commas -/

/-- A sequence of readings with commas between them is a reading. -/
theorem separatedTo_sound {α : Type} {item : Parse α} {n : Nat} (f : α → List Piece)
    (P : SyntaxTree → α → Prop) (hP : ∀ {t u a}, t.Extends u → P t a → P u a)
    (hitem : ∀ {p q a}, Ordered p.tokens → n ≤ p.tree.size → item p = (.ok a, q) →
      ∃ ts, Got true p (f a) ts q ∧ P q.tree a) :
    ∀ {turns : Nat} {p q : Parser} {as : List α}, Ordered p.tokens → n ≤ p.tree.size →
      separatedTo item turns p = (.ok as, q) → as ≠ [] ∧
      ∃ ts, Got true p (Piece.separated (as.map f)) ts q ∧ ∀ a ∈ as, P q.tree a
  | 0, p, q, as, _, _, h => absurd h (exhausted_ne_ok p q as)
  | turns + 1, p, q, as, ho, hn, h => by
    obtain ⟨a, r, ha, ⟨-, rfl, rfl⟩ | ⟨c, rest, more, hr, hc, hm, rfl⟩⟩ := separatedTo_eq_ok.mp h
    · obtain ⟨ts, hg, hpa⟩ := hitem ho hn ha
      refine ⟨by simp, ts, hg, fun b hb => ?_⟩
      rw [List.mem_singleton.mp hb]
      exact hpa
    · obtain ⟨ts, hg, hpa⟩ := hitem ho hn ha
      have hcomma : Got true r [.sign .comma] [c] (r.read [c] rest) := .token hr ⟨c, rfl, hc⟩
      have hg₂ := hg.trans hcomma
      obtain ⟨hne, us, hg', hps⟩ := separatedTo_sound f P hP hitem (hg₂.ordered ho).right
        (Nat.le_trans hn hg₂.tree.size_le) hm
      obtain ⟨b, more, rfl⟩ := List.exists_cons_of_ne_nil hne
      refine ⟨by simp, ts ++ ([c] ++ us), hg.trans (hcomma.trans hg'), fun d hd => ?_⟩
      rcases List.mem_cons.mp hd with rfl | hd
      · exact hP (hcomma.trans hg').tree hpa
      · exact hps d hd

/-! ## 3. Expressions -/

/-- A new expression was read whose operators bind at least as tightly as `power`, and what follows
is not part of it. -/
def ReadsExpr (power : Nat) (p : Parser) (id : NodeId) (q : Parser) : Prop :=
  p.tree.size ≤ id ∧ ∃ ts l r, Got true p [.node id] ts q ∧ q.EndsWith ts ∧
    Fits q.tree (.expr l r) id ∧ power ≤ l ∧ Stops r (headKind q.tokens)

/-- Every expression that is read is read rightly and to its end. -/
def SoundExpr (expr : Nat → Parse NodeId) : Prop :=
  ∀ (power : Nat) (p q : Parser) (id : NodeId), power ≤ BindingPower.closed → Ordered p.tokens →
    expr power p = (.ok id, q) → ReadsExpr power p id q ∧ Stops power (headKind q.tokens)

section Expressions

variable {expr : Nat → Parse NodeId} {p q : Parser} {id : NodeId}

/-- The role of an expression, whatever its powers are. -/
def IsExpr (t : SyntaxTree) (id : NodeId) : Prop := ∃ l r, Fits t (.expr l r) id

theorem IsExpr.extends {t u : SyntaxTree} (he : t.Extends u) (h : IsExpr t id) : IsExpr u id := by
  obtain ⟨l, r, hf⟩ := h
  exact ⟨l, r, hf.extends he⟩

theorem exists_exprRoles {t : SyntaxTree} {ids : List NodeId} (h : ∀ e ∈ ids, IsExpr t e) :
    ∃ ρ : NodeId → Role, ∀ k ∈ ids, (∃ l r, ρ k = .expr l r) ∧ Fits t (ρ k) k :=
  Fits.exists_roles (fun role => ∃ l r, role = .expr l r) fun k hk => by
    obtain ⟨l, r, hf⟩ := h k hk
    exact ⟨_, ⟨l, r, rfl⟩, hf⟩

theorem argumentsWith_sound (hexpr : SoundExpr expr) (ho : Ordered p.tokens) {ids : List NodeId}
    (h : argumentsWith expr p = (.ok ids, q)) :
    ∃ ts, Got true p (Piece.arguments ids) ts q ∧ q.EndsWith ts ∧
      ∀ e ∈ ids, p.tree.size ≤ e ∧ IsExpr q.tree e := by
  simp only [argumentsWith, bind_eq_ok, check_apply] at h
  obtain ⟨opening, p₁, h₁, b, p₂, h₂, h⟩ := h
  cases h₂
  obtain ⟨hg₁, -⟩ := Got.sign (b := true) h₁ (by simp)
  have hclose : ∀ {args : List NodeId} {p₃ : Parser} {ts : List Token},
      Got true p₁ (Piece.separated (args.map fun id => [.node id])) ts p₃ →
      (∀ e ∈ args, p.tree.size ≤ e ∧ IsExpr p₃.tree e) →
      (do let _ ← expect .rightParen; pure args : Parse (List NodeId)) p₃ = (.ok ids, q) →
      ∃ ts, Got true p (Piece.arguments ids) ts q ∧ q.EndsWith ts ∧
        ∀ e ∈ ids, p.tree.size ≤ e ∧ IsExpr q.tree e := by
    intro args p₃ ts hg hall h
    obtain ⟨closing, p₄, h₄, h⟩ := bind_eq_ok.mp h
    cases h
    obtain ⟨hg₄, he₄⟩ := Got.sign (b := true) h₄ (by simp)
    refine ⟨[opening] ++ (ts ++ [closing]), hg₁.trans (hg.trans hg₄), ?_, ?_⟩
    · exact (he₄.append ts).append [opening]
    · intro e he
      exact ⟨(hall e he).1, (hall e he).2.extends hg₄.tree⟩
  split at h
  · exact hclose (.nil p₁) (by simp) h
  · obtain ⟨args, p₃, hargs, h⟩ := bind_eq_ok.mp h
    rw [separated_apply] at hargs
    obtain ⟨-, ts, hg, hall⟩ := separatedTo_sound (fun id => [.node id])
      (fun t e => p.tree.size ≤ e ∧ IsExpr t e) (fun he h => ⟨h.1, h.2.extends he⟩)
      (fun ho hn h => by
        obtain ⟨⟨hnew, ts, l, r, hg, -, hf, -⟩, -⟩ := hexpr _ _ _ _ (by decide) ho h
        exact ⟨ts, hg, Nat.le_trans hn hnew, l, r, hf⟩)
      (hg₁.ordered ho).right hg₁.tree.size_le hargs
    exact hclose hg hall h

/-- A new node over what was read is an expression. -/
theorem readsExpr_alloc {power l r : Nat} {c : Construct} {span : Span} {ts : List Token}
    (hg : Got true p c.pieces ts q) (he : q.EndsWith ts) (hs : span = cover ts) (ρ : NodeId → Role)
    (ha : Admits q.tree ρ c (.expr l r)) (hk : ∀ k ∈ c.children, Fits q.tree (ρ k) k)
    (hl : power ≤ l) (hstop : Stops r (headKind q.tokens)) :
    ReadsExpr power p q.tree.size { q with tree := (q.tree.alloc c span).2 } :=
  ⟨hg.tree.size_le, ts, l, r, hg.alloc hs, he, .alloc span ρ ha hk, hl, hstop⟩

theorem exists_of_headKind_ne {ts : List Token} (h : headKind ts ≠ .eof) :
    ∃ a rest, ts = a :: rest := by
  cases ts with
  | nil => exact absurd rfl h
  | cons a rest => exact ⟨a, rest, rfl⟩

/-- An operand that is one token. -/
theorem token_sound {a : Token} {rest : List Token} {v : Literal} (hp : p.tokens = a :: rest)
    (hv : a.literal? = some v)
    (h : alloc (.literal v) a.span (p.read [a] rest) = (.ok id, q)) :
    ReadsExpr BindingPower.closed p id q := by
  cases h
  exact readsExpr_alloc (.token hp ⟨a, rfl, hv⟩) (Parser.endsWith_read (by simp))
    (cover_singleton a).symm (fun _ => .item) .literal (by simp [Construct.children])
    (Nat.le_refl _) (stops_closed _)

/-- An operator before an operand. -/
theorem unary_sound (hexpr : SoundExpr expr) (ho : Ordered p.tokens) (op : UnaryOp) {a : Token}
    {rest : List Token} (hp : p.tokens = a :: rest) (ha : a.kind = op.kind)
    (h : (do
      let operand ← expr BindingPower.unaryPower
      alloc (.unary op operand) (a.span.merge (← spanOf operand)) : Parse NodeId)
        (p.read [a] rest) = (.ok id, q)) :
    ReadsExpr BindingPower.closed p id q := by
  have hg : Got true p [.sign op.kind] [a] (p.read [a] rest) := .token hp ⟨a, rfl, ha⟩
  obtain ⟨e, p₁, he, h⟩ := bind_eq_ok.mp h
  obtain ⟨⟨-, ts, l, r, hg₁, hend, hf, hl, hr⟩, hstop⟩ := hexpr _ _ _ _ (by decide) (hg.ordered ho).right he
  cases h
  have hgot := hg.trans hg₁
  refine readsExpr_alloc (c := .unary op e) hgot (hend.append [a]) ?_ (fun _ => .expr l r)
    (.unary rfl hl) ?_ (Nat.le_refl _) (hstop.min hr)
  · rw [hg₁.spanOf (.refl _), ← cover_singleton a]
    have ho' : Ordered ([a] ++ [] ++ ts) := by simpa using (hgot.ordered ho).left
    simpa using cover_merge ho' (by simp) hend.ne_nil
  · intro k hk
    rw [List.mem_singleton.mp hk]
    exact hf

theorem paren_sound (hexpr : SoundExpr expr) (ho : Ordered p.tokens) {a : Token}
    {rest : List Token} (hp : p.tokens = a :: rest) (ha : a.kind = .leftParen)
    (h : (do
      let inner ← expr 0
      let _ ← expect .rightParen
      alloc (.paren inner) (← spanFrom a.span) : Parse NodeId) (p.read [a] rest) = (.ok id, q)) :
    ReadsExpr BindingPower.closed p id q := by
  have hg : Got true p [.sign .leftParen] [a] (p.read [a] rest) := .token hp ⟨a, rfl, ha⟩
  obtain ⟨e, p₁, he, h⟩ := bind_eq_ok.mp h
  obtain ⟨closing, p₂, h₂, h⟩ := bind_eq_ok.mp h
  obtain ⟨⟨-, ts, l, r, hg₁, -, hf, -⟩, -⟩ := hexpr _ _ _ _ (by decide) (hg.ordered ho).right he
  obtain ⟨hg₂, hend⟩ := Got.sign (b := true) h₂ (by simp)
  cases h
  have hgot := hg.trans (hg₁.trans hg₂)
  have hend' := (hend.append ts).append [a]
  refine readsExpr_alloc (c := .paren e) hgot hend' ?_ (fun _ => .expr l r) (.paren rfl) ?_
    (Nat.le_refl _) (stops_closed _)
  · rw [← cover_singleton a]
    exact hgot.spanFrom ho (by simp) hend'
  · intro k hk
    rw [List.mem_singleton.mp hk]
    exact hg₂.fits hf

theorem new_sound (hexpr : SoundExpr expr) (ho : Ordered p.tokens) {a : Token}
    {rest : List Token} (hp : p.tokens = a :: rest) (ha : a.kind = .newWord)
    (h : (do
      let target ← type
      let args ← argumentsWith expr
      alloc (.newObject target args) (← spanFrom a.span) : Parse NodeId) (p.read [a] rest) =
        (.ok id, q)) :
    ReadsExpr BindingPower.closed p id q := by
  have hg : Got true p [.sign .newWord] [a] (p.read [a] rest) := .token hp ⟨a, rfl, ha⟩
  obtain ⟨w, p₁, hw, h⟩ := bind_eq_ok.mp h
  obtain ⟨args, p₂, h₂, h⟩ := bind_eq_ok.mp h
  obtain ⟨ts, hg₁, -, -, -⟩ := Got.type (b := true) hw (hg.ordered ho).right
  obtain ⟨us, hg₂, hend, hall⟩ := argumentsWith_sound hexpr ((hg.trans hg₁).ordered ho).right h₂
  cases h
  have hgot := hg.trans (hg₁.trans hg₂)
  have hend' := (hend.append ts).append [a]
  obtain ⟨ρ, hρ⟩ := exists_exprRoles fun e he => (hall e he).2
  refine readsExpr_alloc (c := .newObject w args) hgot hend' ?_ ρ
    (.newObject fun e he => (hρ e he).1) (fun k hk => (hρ k hk).2) (Nat.le_refl _) (stops_closed _)
  rw [← cover_singleton a]
  exact hgot.spanFrom ho (by simp) hend'

theorem castWith_sound (hexpr : SoundExpr expr) (ho : Ordered p.tokens)
    (h : castWith expr p = (.ok id, q)) : ReadsExpr BindingPower.closed p id q := by
  obtain ⟨a, p₁, h₁, h⟩ := bind_eq_ok.mp h
  obtain ⟨less, p₂, h₂, h⟩ := bind_eq_ok.mp h
  obtain ⟨w, p₃, h₃, h⟩ := bind_eq_ok.mp h
  obtain ⟨greater, p₄, h₄, h⟩ := bind_eq_ok.mp h
  obtain ⟨opening, p₅, h₅, h⟩ := bind_eq_ok.mp h
  obtain ⟨e, p₆, h₆, h⟩ := bind_eq_ok.mp h
  obtain ⟨closing, p₇, h₇, h⟩ := bind_eq_ok.mp h
  obtain ⟨hg₁, -⟩ := Got.sign (b := true) h₁ (by simp)
  obtain ⟨hg₂, -⟩ := Got.sign (b := true) h₂ (by simp)
  have hg₂ := hg₁.trans hg₂
  obtain ⟨ts, hg₃, -, -, -⟩ := Got.type (b := true) h₃ (hg₂.ordered ho).right
  obtain ⟨hg₄, -⟩ := Got.sign (b := true) h₄ (by simp)
  obtain ⟨hg₅, -⟩ := Got.sign (b := true) h₅ (by simp)
  have hg₅ := hg₂.trans (hg₃.trans (hg₄.trans hg₅))
  obtain ⟨⟨-, us, l, r, hg₆, -, hf, -⟩, -⟩ := hexpr _ _ _ _ (by decide) (hg₅.ordered ho).right h₆
  obtain ⟨hg₇, hend⟩ := Got.sign (b := true) h₇ (by simp)
  cases h
  have hgot := hg₅.trans (hg₆.trans hg₇)
  have hend' := (hend.append us).append ([a] ++ [less] ++ (ts ++ ([greater] ++ [opening])))
  refine readsExpr_alloc (c := .cast w e) hgot hend' ?_ (fun _ => .expr l r) (.cast rfl) ?_
    (Nat.le_refl _) (stops_closed _)
  · rw [← cover_singleton a]
    simp only [List.append_assoc] at hgot hend' ⊢
    exact hgot.spanFrom ho (by simp) hend'
  · intro k hk
    rw [List.mem_singleton.mp hk]
    exact hg₇.fits hf

/-- A literal with a spelling of its own. -/
theorem spelled_sound {a : Token} {rest : List Token} (hp : p.tokens = a :: rest)
    (hk : a.kind.isLiteral = true) (h : (do
      let _ ← advance
      match Literal.ofToken a with
      | .ok value => alloc (.literal value) a.span
      | .error e => throw e : Parse NodeId) p = (.ok id, q)) :
    ReadsExpr BindingPower.closed p id q := by
  rw [bind_of_ok (advance_of_eq_cons hp)] at h
  cases hv : Literal.ofToken a with
  | ok v =>
    have hlit : a.literal? = some v := by
      unfold Token.literal?
      cases hka : a.kind <;> simp only [hka] at hk ⊢ <;> first
        | (rw [hv]; rfl)
        | cases hk
    rw [hv] at h
    exact token_sound hp hlit h
  | error e =>
    rw [hv] at h
    cases h

theorem operandWith_sound (hexpr : SoundExpr expr) (ho : Ordered p.tokens)
    (h : operandWith expr p = (.ok id, q)) : ReadsExpr BindingPower.closed p id q := by
  rw [operandWith, bind_of_ok (peek_apply p)] at h
  cases hp : p.tokens with
  | nil =>
    have hk : p.peek.kind = .eof := by rw [Parser.kind_peek, hp]; rfl
    simp only [hk] at h
    cases h
  | cons a rest =>
    rw [Parser.peek_of_eq_cons hp] at h
    cases hk : a.kind <;> simp only [hk] at h
    case intLiteral | longLiteral | floatLiteral | doubleLiteral | stringLiteral =>
      exact spelled_sound hp (by rw [hk]; rfl) h
    case trueWord | falseWord | nullWord =>
      rw [bind_of_ok (advance_of_eq_cons hp)] at h
      refine token_sound hp ?_ h
      simp only [Token.literal?, hk]
    case minus =>
      rw [bind_of_ok (advance_of_eq_cons hp)] at h
      exact unary_sound hexpr ho .neg hp hk h
    case bang =>
      rw [bind_of_ok (advance_of_eq_cons hp)] at h
      exact unary_sound hexpr ho .not hp hk h
    case leftParen =>
      rw [bind_of_ok (advance_of_eq_cons hp)] at h
      exact paren_sound hexpr ho hp hk h
    case newWord =>
      rw [bind_of_ok (advance_of_eq_cons hp)] at h
      exact new_sound hexpr ho hp hk h
    case castWord => exact castWith_sound hexpr ho h
    case identifier =>
      rw [bind_of_ok (advance_of_eq_cons hp)] at h
      cases h
      exact readsExpr_alloc (c := .ident ⟨a.lexeme, a.span⟩) (.token hp ⟨a, rfl, hk, rfl⟩)
        (Parser.endsWith_read (by simp)) (cover_singleton a).symm (fun _ => .item) .ident
        (by simp [Construct.children]) (Nat.le_refl _) (stops_closed _)
    all_goals cases h

/-! ## 4. Operators -/

section Operators

variable {power : Nat} {p₀ : Parser} {lhs : NodeId}

theorem ReadsExpr.ordered (h : ReadsExpr power p₀ lhs p) (ho : Ordered p₀.tokens) :
    Ordered p.tokens := by
  obtain ⟨-, ts, l, r, hg, -⟩ := h
  exact (hg.ordered ho).right

theorem memberAfter_sound (ho : Ordered p₀.tokens) (hlhs : ReadsExpr power p₀ lhs p)
    (hk : headKind p.tokens = .dot) (hpow : power ≤ BindingPower.postfixPower)
    (h : memberAfter lhs p = (.ok id, q)) : ReadsExpr power p₀ id q := by
  obtain ⟨-, ts, l, r, hg, hend, hf, hl, hr⟩ := hlhs
  obtain ⟨a, rest, hp⟩ := exists_of_headKind_ne (show headKind p.tokens ≠ .eof by simp [hk])
  rw [hp, Parser.headKind_cons] at hk
  rw [memberAfter, bind_of_ok (advance_of_eq_cons hp)] at h
  obtain ⟨n, p₁, h₁, h⟩ := bind_eq_ok.mp h
  have hg₁ : Got true p [.sign .dot] [a] (p.read [a] rest) := .token hp ⟨a, rfl, hk⟩
  obtain ⟨b, hg₂, hend₂, hn⟩ := Got.name (b := true) h₁
  cases h
  have hgot := hg.trans (hg₁.trans hg₂)
  have hg₁₂ := hg₁.trans hg₂
  have hlt : BindingPower.postfixPower < r := by
    rw [hp, Parser.headKind_cons, hk] at hr
    exact hr _ rfl
  refine readsExpr_alloc (c := .member lhs n) hgot ((hend₂.append [a]).append ts) ?_
    (fun _ => .expr l r) (.member rfl hlt) ?_ (Nat.le_min.mpr ⟨hl, hpow⟩) (stops_closed _)
  · rw [hg.spanOf hg₁₂.tree, hn, ← cover_singleton b, ← List.append_assoc]
    refine cover_merge ?_ hend.ne_nil (by simp)
    rw [List.append_assoc]
    exact (hgot.ordered ho).left
  · intro k hk'
    rw [List.mem_singleton.mp hk']
    exact hg₁₂.fits hf

/-- The two operands of an operator have their own roles: the left one comes first in the table. -/
theorem exists_two_roles {t u : SyntaxTree} {a b : NodeId} {ra rb : Role} (ha : Fits t ra a)
    (hb : t.size ≤ b) (hfa : Fits u ra a) (hfb : Fits u rb b) :
    ∃ ρ : NodeId → Role, ρ a = ra ∧ ρ b = rb ∧ ∀ k ∈ [a, b], Fits u (ρ k) k := by
  have hne : b ≠ a := ha.ne_of_size_le hb
  have hρ : (fun k => if k = a then ra else rb) b = rb := if_neg hne
  refine ⟨fun k => if k = a then ra else rb, if_pos rfl, hρ, fun k hk => ?_⟩
  simp only [List.mem_cons, List.not_mem_nil, or_false] at hk
  rcases hk with rfl | rfl
  · simpa using hfa
  · simpa [hne] using hfb

theorem callAfter_sound (hexpr : SoundExpr expr) (ho : Ordered p₀.tokens)
    (hlhs : ReadsExpr power p₀ lhs p) (hk : headKind p.tokens = .leftParen)
    (hpow : power ≤ BindingPower.postfixPower) (h : callAfter expr lhs p = (.ok id, q)) :
    ReadsExpr power p₀ id q := by
  have ho₁ := hlhs.ordered ho
  obtain ⟨-, ts, l, r, hg, hend, hf, hl, hr⟩ := hlhs
  obtain ⟨args, p₁, h₁, h⟩ := bind_eq_ok.mp h
  obtain ⟨us, hg₁, hend₁, hall⟩ := argumentsWith_sound hexpr ho₁ h₁
  cases h
  have hgot := hg.trans hg₁
  have hlt : BindingPower.postfixPower < r := by
    rw [hk] at hr
    exact hr _ rfl
  obtain ⟨ρ, hρ⟩ := exists_exprRoles fun e he => (hall e he).2
  -- the callee comes first in the table, so it is none of the arguments
  have hne : ∀ e ∈ args, e ≠ lhs := fun e he => hf.ne_of_size_le (hall e he).1
  refine readsExpr_alloc (c := .call lhs args) hgot (hend₁.append ts) ?_
    (fun k => if k = lhs then .expr l r else ρ k) (.call (if_pos rfl) hlt fun e he => ?_)
    (fun k hk' => ?_) (Nat.le_min.mpr ⟨hl, hpow⟩) (stops_closed _)
  · rw [hg.spanOf hg₁.tree]
    exact hgot.spanFrom ho hend.ne_nil (hend₁.append ts)
  · rw [if_neg (hne e he)]
    exact (hρ e he).1
  · rcases List.mem_cons.mp hk' with rfl | hk'
    · simpa using hg₁.fits hf
    · simpa [hne k hk'] using (hρ k hk').2

theorem binaryAfter_sound (hexpr : SoundExpr expr) (ho : Ordered p₀.tokens)
    (hlhs : ReadsExpr power p₀ lhs p) {op : BinaryOp} (hk : headKind p.tokens = op.kind)
    (hpow : power ≤ BindingPower.left op) (h : binaryAfter expr op lhs p = (.ok id, q)) :
    ReadsExpr power p₀ id q := by
  obtain ⟨-, ts, l, r, hg, hend, hf, hl, hr⟩ := hlhs
  obtain ⟨a, rest, hp⟩ := exists_of_headKind_ne (show headKind p.tokens ≠ .eof by
    rw [hk]
    cases op <;> simp [BinaryOp.kind])
  have hlt : BindingPower.left op < r := by
    rw [hk] at hr
    exact hr _ op.leftPower?_kind
  rw [hp, Parser.headKind_cons] at hk
  rw [binaryAfter, bind_of_ok (advance_of_eq_cons hp)] at h
  obtain ⟨e, p₁, h₁, h⟩ := bind_eq_ok.mp h
  have hg₁ : Got true p [.sign op.kind] [a] (p.read [a] rest) := .token hp ⟨a, rfl, hk⟩
  obtain ⟨⟨hnew, us, l', r', hg₂, hend₂, hf₂, hl', hr'⟩, hstop⟩ :=
    hexpr _ _ _ _ (by cases op <;> decide) ((hg.trans hg₁).ordered ho).right h₁
  cases h
  have hgot := hg.trans (hg₁.trans hg₂)
  have hg₁₂ := hg₁.trans hg₂
  obtain ⟨ρ, hρa, hρb, hρ⟩ := exists_two_roles hf hnew (hg₁₂.fits hf) hf₂
  refine readsExpr_alloc (c := .binary op lhs e) hgot ((hend₂.append [a]).append ts) ?_ ρ
    (.binary hρa hlt hρb hl') hρ (Nat.le_min.mpr ⟨hl, hpow⟩) (hstop.min hr')
  rw [hg.spanOf hg₁₂.tree, hg₂.spanOf (.refl _), ← List.append_assoc]
  refine cover_merge ?_ hend.ne_nil hend₂.ne_nil
  rw [List.append_assoc]
  exact (hgot.ordered ho).left

theorem assignAfter_sound (hexpr : SoundExpr expr) (ho : Ordered p₀.tokens)
    (hlhs : ReadsExpr power p₀ lhs p) {op : AssignOp} (hk : headKind p.tokens = op.kind)
    (hpow : power ≤ BindingPower.assignLeft) (h : assignAfter expr op lhs p = (.ok id, q)) :
    ReadsExpr power p₀ id q := by
  obtain ⟨-, ts, l, r, hg, hend, hf, hl, hr⟩ := hlhs
  obtain ⟨a, rest, hp⟩ := exists_of_headKind_ne (show headKind p.tokens ≠ .eof by
    rw [hk]
    cases op <;> simp [AssignOp.kind])
  have hlt : BindingPower.assignLeft < r := by
    rw [hk] at hr
    exact hr _ op.leftPower?_kind
  rw [hp, Parser.headKind_cons] at hk
  rw [assignAfter, bind_of_ok (advance_of_eq_cons hp)] at h
  obtain ⟨c, hc⟩ : ∃ c, p.tree.construct? lhs = some c := by
    cases hf with
    | node _ hc _ _ => exact ⟨_, hc⟩
  simp only [bind_apply, get_apply, Parser.read_tree, hc] at h
  cases hassign : c.isAssignable with
  | false =>
    simp only [hassign, Bool.not_false, if_true] at h
    cases h
  | true =>
    simp only [hassign, Bool.not_true, Bool.false_eq_true, if_false] at h
    obtain ⟨e, p₁, h₁, h⟩ := bind_eq_ok.mp h
    have hg₁ : Got true p [.sign op.kind] [a] (p.read [a] rest) := .token hp ⟨a, rfl, hk⟩
    obtain ⟨⟨hnew, us, l', r', hg₂, hend₂, hf₂, hl', hr'⟩, hstop⟩ :=
      hexpr _ _ _ _ (by decide) ((hg.trans hg₁).ordered ho).right h₁
    cases h
    have hgot := hg.trans (hg₁.trans hg₂)
    have hg₁₂ := hg₁.trans hg₂
    obtain ⟨ρ, hρa, hρb, hρ⟩ := exists_two_roles hf hnew (hg₁₂.fits hf) hf₂
    have hany : (p₁.tree.construct? lhs).any Construct.isAssignable = true := by
      rw [hg₁₂.tree.construct?_eq_some hc]
      exact hassign
    refine readsExpr_alloc (c := .assign op lhs e) hgot ((hend₂.append [a]).append ts) ?_ ρ
      (.assign hρa hlt hany hρb hl') hρ (Nat.le_min.mpr ⟨hl, hpow⟩) (hstop.min hr')
    rw [hg.spanOf hg₁₂.tree, hg₂.spanOf (.refl _), ← List.append_assoc]
    refine cover_merge ?_ hend.ne_nil hend₂.ne_nil
    rw [List.append_assoc]
    exact (hgot.ordered ho).left

/-- No operator is read exactly where the next token stops the expression. -/
theorem operatorAfter?_eq_none_iff {k : TokenKind} :
    operatorAfter? expr power k lhs = none ↔ Stops power k := by
  unfold operatorAfter? Stops TokenKind.leftPower?
  by_cases hd : k = .dot
  · subst hd
    simp
  · by_cases hl : k = .leftParen
    · subst hl
      simp
    · simp only [hd, hl, if_false, or_false]
      cases ha : k.assignOp? with
      | some op => simp
      | none => cases hb : k.binaryOp? <;> simp

/-- **One more operator is read rightly.** -/
theorem operatorAfter?_sound (hexpr : SoundExpr expr) (ho : Ordered p₀.tokens)
    (hlhs : ReadsExpr power p₀ lhs p) {operator : Parse NodeId}
    (hop : operatorAfter? expr power (headKind p.tokens) lhs = some operator)
    (h : operator p = (.ok id, q)) : ReadsExpr power p₀ id q := by
  unfold operatorAfter? at hop
  split at hop
  · rename_i hk
    split at hop <;> cases hop
    exact memberAfter_sound ho hlhs hk (by omega) h
  · split at hop
    · rename_i hk
      split at hop <;> cases hop
      exact callAfter_sound hexpr ho hlhs hk (by omega) h
    · split at hop
      · rename_i op hk
        split at hop <;> cases hop
        exact assignAfter_sound hexpr ho hlhs (TokenKind.kind_of_assignOp? hk) (by omega) h
      · split at hop
        · rename_i op hk
          split at hop <;> cases hop
          exact binaryAfter_sound hexpr ho hlhs (TokenKind.kind_of_binaryOp? hk) (by omega) h
        · cases hop

theorem operatorsTo_sound (hexpr : SoundExpr expr) (ho : Ordered p₀.tokens) :
    ∀ {turns : Nat} {lhs : NodeId} {p : Parser}, ReadsExpr power p₀ lhs p →
      operatorsTo expr power turns lhs p = (.ok id, q) →
      ReadsExpr power p₀ id q ∧ Stops power (headKind q.tokens)
  | 0, lhs, p, _, h => absurd h (exhausted_ne_ok p q id)
  | turns + 1, lhs, p, hlhs, h => by
    rw [operatorsTo, bind_of_ok (peek_apply p), Parser.kind_peek] at h
    cases hop : operatorAfter? expr power (headKind p.tokens) lhs with
    | none =>
      rw [hop] at h
      cases h
      exact ⟨hlhs, operatorAfter?_eq_none_iff.mp hop⟩
    | some operator =>
      rw [hop] at h
      obtain ⟨lhs', p', h', h⟩ := bind_eq_ok.mp h
      exact operatorsTo_sound hexpr ho (operatorAfter?_sound hexpr ho hlhs hop h') h

end Operators

end Expressions

/-- **An expression is read with all its operators**, up to one that binds more loosely. -/
theorem exprTo_sound : ∀ depth : Nat, SoundExpr (exprTo depth)
  | 0 => fun _ p q id _ _ h => absurd h (exhausted_ne_ok p q id)
  | depth + 1 => by
    intro power p q id hpow ho h
    obtain ⟨lhs, p₁, h₁, h⟩ := bind_eq_ok.mp h
    rw [bind_of_ok (limit_apply p₁)] at h
    obtain ⟨hnew, ts, l, r, hg, hend, hf, hl, hr⟩ := operandWith_sound (exprTo_sound depth) ho h₁
    exact operatorsTo_sound (exprTo_sound depth) ho
      ⟨hnew, ts, l, r, hg, hend, hf, Nat.le_trans hpow hl, hr⟩ h

theorem expr_sound : SoundExpr expr := by
  intro power p q id hpow ho h
  rw [expr_apply] at h
  exact exprTo_sound (p.tokens.length + 1) power p q id hpow ho h

end Parse

end Recast
