/-
# Reading statements and programs

The tokens that were read spell the statements, declarations and programs built from them, as
`Recast.Proofs.Parser.Sound` says it of expressions.  A block goes on after a statement that fails,
so what it spells is a part of what was read; it is all of it if no error was recorded.

* `ReadsStmt`: what it is to have read a statement; `statementTo_sound`: every statement is;
* `itemsTo_sound`: a sequence of items, by one item after another and one failure after another;
* `parseLenient_sound`: **the tree of a text spells a part of its tokens, in order, and all of them
  if there are no errors.**
-/
import Recast.Proofs.Parser.Sound
import Recast.Proofs.Token.Lexed

namespace Recast

namespace Parse

open Recast.Parser (headKind)
open SyntaxTree

/-! ## 1. Simple statements -/

/-- A new statement was read.  If it is an expression statement, nothing was left out. -/
def ReadsStmt (p : Parser) (id : NodeId) (q : Parser) : Prop :=
  p.tree.size ≤ id ∧ ∃ ts d, Got false p [.node id] ts q ∧ q.EndsWith ts ∧
    Fits q.tree (.stmt d) id ∧ (d = true → headKind q.tokens ≠ .elseWord) ∧
    ∀ e, q.tree.construct? id = some (.exprStmt e) → p.tokens = ts ++ q.tokens

/-- Every statement that is read is read rightly. -/
def SoundStmt (stmt : Parse NodeId) : Prop :=
  ∀ (p q : Parser) (id : NodeId), Ordered p.tokens → stmt p = (.ok id, q) → ReadsStmt p id q

section Statements

variable {p q : Parser} {id : NodeId}

/-- A new node over what was read is a statement. -/
theorem readsStmt_alloc {c : Construct} {span : Span} {ts : List Token} {d : Bool}
    (hg : Got false p c.pieces ts q) (he : q.EndsWith ts) (hs : span = cover ts) (ρ : NodeId → Role)
    (ha : Admits q.tree ρ c (.stmt d)) (hk : ∀ k ∈ c.children, Fits q.tree (ρ k) k)
    (hd : d = true → headKind q.tokens ≠ .elseWord)
    (hx : ∀ e, c = .exprStmt e → p.tokens = ts ++ q.tokens) :
    ReadsStmt p q.tree.size { q with tree := (q.tree.alloc c span).2 } := by
  refine ⟨hg.tree.size_le, ts, d, hg.alloc hs, he, .alloc span ρ ha hk, hd, fun e hc => ?_⟩
  rw [construct?_alloc, if_pos rfl] at hc
  exact hx e (Option.some.inj hc)

theorem expr_got {e : NodeId} (ho : Ordered p.tokens) (h : expr 0 p = (.ok e, q)) :
    p.tree.size ≤ e ∧ ∃ ts l r, Got true p [.node e] ts q ∧ q.EndsWith ts ∧
      Fits q.tree (.expr l r) e := by
  obtain ⟨⟨hnew, ts, l, r, hg, he, hf, -⟩, -⟩ := expr_sound 0 p q e (Nat.zero_le _) ho h
  exact ⟨hnew, ts, l, r, hg, he, hf⟩

/-- The span that starts with the next token is the one from what is read next. -/
theorem peek_spanFrom {b : Bool} {ps : List Piece} {ts : List Token} (hp : p.tokens = ts ++ q.tokens)
    (hg : Got b p ps ts q) (ho : Ordered p.tokens) (he : q.EndsWith ts) :
    p.peek.span.merge q.lastSpan = cover ts := by
  obtain ⟨a, ts', rfl⟩ := List.exists_cons_of_ne_nil he.ne_nil
  rw [Parser.peek_of_eq_cons hp, ← cover_singleton a]
  rw [← List.singleton_append] at hg he ⊢
  exact hg.spanFrom ho (by simp) he

theorem exprStmt_sound (ho : Ordered p.tokens) (hdecl : TypeScan.isVarDecl p.tokens = false)
    (h : exprStmt p = (.ok id, q)) : ReadsStmt p id q := by
  rw [exprStmt, bind_of_ok (peek_apply p)] at h
  obtain ⟨e, p₁, h₁, h⟩ := bind_eq_ok.mp h
  obtain ⟨a, p₂, h₂, h⟩ := bind_eq_ok.mp h
  obtain ⟨-, ts, l, r, hg₁, -, hf⟩ := expr_got ho h₁
  obtain ⟨hg₂, hend⟩ := Got.sign (b := true) h₂ (by simp)
  obtain ⟨rest, hp₁, ha, -⟩ := (expect_eq_ok (by simp)).mp h₂
  cases h
  have hgot := hg₁.trans hg₂
  have hend' := hend.append ts
  have hwhole := (hgot.whole (.inl rfl)).1
  have hdecl' : TypeScan.isVarDecl (ts ++ a :: p₂.tokens) = false := by
    rw [← List.singleton_append, ← List.append_assoc, ← hwhole]
    exact hdecl
  have hund : Undeclared TypeScan.isVarDecl p₂.tree e :=
    .intro TypeScan.isVarDecl_congr (hg₁.spells.extends hg₂.tree) ha hdecl' (hg₂.fits hf)
  refine readsStmt_alloc (c := .exprStmt e) hgot.lax hend' ?_ (fun _ => .expr l r)
    (.exprStmt rfl hund) ?_ (by simp) fun _ _ => hwhole
  · exact peek_spanFrom hwhole hgot ho hend'
  · intro k hk
    rw [List.mem_singleton.mp hk]
    exact hg₂.fits hf

theorem initializer_sound {init : Option NodeId} (ho : Ordered p.tokens)
    (h : initializer p = (.ok init, q)) (n : Ident) {a : Token} {p₀ : Parser}
    (hn : Got true p₀ [.name n.name] [a] p) :
    ∃ ts, Got true p₀ (Declarator.pieces ⟨n, init⟩) ts q ∧ ∀ e ∈ init, IsExpr q.tree e := by
  obtain ⟨b, p₁, h₁, h'⟩ := bind_eq_ok.mp h
  rcases (eat_eq_ok (by simp)).mp h₁ with ⟨rfl, c, rest, hp, hc, rfl⟩ | ⟨rfl, -, rfl⟩
  · rw [if_pos rfl] at h'
    obtain ⟨e, p₂, h₂, h'⟩ := bind_eq_ok.mp h'
    cases h'
    have hg : Got true p [.sign .equal] [c] (p.read [c] rest) := .token hp ⟨c, rfl, hc⟩
    obtain ⟨-, ts, l, r, hg₂, -, hf⟩ := expr_got (hg.ordered ho).right h₂
    refine ⟨[a] ++ ([c] ++ ts), hn.trans (hg.trans hg₂), fun e' he' => ?_⟩
    cases he'
    exact ⟨l, r, hf⟩
  · rw [if_neg (by simp)] at h'
    cases h'
    exact ⟨[a], hn, by simp⟩

theorem declarator_sound {var : Declarator} (ho : Ordered p.tokens)
    (h : declarator p = (.ok var, q)) :
    ∃ ts, Got true p var.pieces ts q ∧ ∀ e ∈ var.init, IsExpr q.tree e := by
  obtain ⟨n, p₁, h₁, h⟩ := bind_eq_ok.mp h
  obtain ⟨init, p₂, h₂, h⟩ := bind_eq_ok.mp h
  cases h
  obtain ⟨a, hg, -, -⟩ := Got.name (b := true) h₁
  exact initializer_sound (hg.ordered ho).right h₂ n hg

theorem localDecl_sound (ho : Ordered p.tokens) (h : localDecl p = (.ok id, q)) :
    ReadsStmt p id q := by
  obtain ⟨w, p₁, h₁, h⟩ := bind_eq_ok.mp h
  obtain ⟨vars, p₂, h₂, h⟩ := bind_eq_ok.mp h
  obtain ⟨a, p₃, h₃, h⟩ := bind_eq_ok.mp h
  cases h
  obtain ⟨ts, hg₁, hend₁, hspan, -⟩ := Got.type (b := true) h₁ ho
  rw [separated_apply] at h₂
  obtain ⟨hne, us, hg₂, hall⟩ := separatedTo_sound (n := 0) Declarator.pieces
    (fun t var => ∀ e ∈ var.init, IsExpr t e) (fun he h e hm => (h e hm).extends he)
    (fun ho _ h => declarator_sound ho h) (hg₁.ordered ho).right (Nat.zero_le _) h₂
  obtain ⟨hg₃, hend⟩ := Got.sign (b := true) h₃ (by simp)
  have hgot := hg₁.trans (hg₂.trans hg₃)
  have hend' := (hend.append us).append ts
  have hinits : ∀ e ∈ vars.filterMap Declarator.init, IsExpr p₃.tree e := by
    intro e he
    obtain ⟨var, hvar, hinit⟩ := List.mem_filterMap.mp he
    exact (hall var hvar e hinit).extends hg₃.tree
  obtain ⟨ρ, hρ⟩ := exists_exprRoles hinits
  refine readsStmt_alloc (c := .localDecl w vars) hgot.lax hend' ?_ ρ
    (.localDecl hne fun e he => (hρ e he).1) (fun k hk => (hρ k hk).2) (by simp) (by simp)
  rw [hspan]
  exact hgot.spanFrom ho hend₁.ne_nil hend'

theorem returnStmt_sound (ho : Ordered p.tokens) (h : returnStmt p = (.ok id, q)) :
    ReadsStmt p id q := by
  obtain ⟨a, p₁, h₁, h⟩ := bind_eq_ok.mp h
  rw [bind_of_ok (check_apply _ p₁)] at h
  obtain ⟨hg₁, hend₁⟩ := Got.sign (b := true) h₁ (by simp)
  split at h
  · rw [bind_of_ok (pure_apply _ p₁)] at h
    obtain ⟨c, p₂, h₂, h⟩ := bind_eq_ok.mp h
    cases h
    obtain ⟨hg₂, hend⟩ := Got.sign (b := true) h₂ (by simp)
    have hgot := hg₁.trans hg₂
    have hend' := hend.append [a]
    refine readsStmt_alloc (c := .returnStmt none) hgot.lax hend' ?_ (fun _ => .item)
      (.returnStmt (by simp)) (by simp [Construct.children]) (by simp) (by simp)
    rw [← cover_singleton a]
    exact hgot.spanFrom ho (by simp) hend'
  · obtain ⟨e, p₂, h₂, h⟩ := bind_eq_ok.mp h
    rw [bind_of_ok (pure_apply _ p₂)] at h
    obtain ⟨c, p₃, h₃, h⟩ := bind_eq_ok.mp h
    cases h
    obtain ⟨-, ts, l, r, hg₂, -, hf⟩ := expr_got (hg₁.ordered ho).right h₂
    obtain ⟨hg₃, hend⟩ := Got.sign (b := true) h₃ (by simp)
    have hgot := hg₁.trans (hg₂.trans hg₃)
    have hend' := (hend.append ts).append [a]
    refine readsStmt_alloc (c := .returnStmt (some e)) hgot.lax hend' ?_ (fun _ => .expr l r)
      (.returnStmt (by simp)) (fun k hk => ?_) (by simp) (by simp)
    · rw [← cover_singleton a]
      exact hgot.spanFrom ho (by simp) hend'
    · rw [List.mem_singleton.mp hk]
      exact hg₃.fits hf

theorem yieldStmt_sound (ho : Ordered p.tokens) (h : yieldStmt p = (.ok id, q)) :
    ReadsStmt p id q := by
  obtain ⟨a, p₁, h₁, h⟩ := bind_eq_ok.mp h
  obtain ⟨b, p₂, h₂, h⟩ := bind_eq_ok.mp h
  obtain ⟨e, p₃, h₃, h⟩ := bind_eq_ok.mp h
  obtain ⟨c, p₄, h₄, h⟩ := bind_eq_ok.mp h
  cases h
  obtain ⟨hg₁, hend₁⟩ := Got.sign (b := true) h₁ (by simp)
  obtain ⟨hg₂, -⟩ := Got.sign (b := true) h₂ (by simp)
  obtain ⟨-, ts, l, r, hg₃, -, hf⟩ := expr_got ((hg₁.trans hg₂).ordered ho).right h₃
  obtain ⟨hg₄, hend⟩ := Got.sign (b := true) h₄ (by simp)
  have hgot := hg₁.trans (hg₂.trans (hg₃.trans hg₄))
  have hend' := ((hend.append ts).append [b]).append [a]
  refine readsStmt_alloc (c := .yieldStmt e) hgot.lax hend' ?_ (fun _ => .expr l r)
    (.yieldStmt rfl) (fun k hk => ?_) (by simp) (by simp)
  · rw [← cover_singleton a]
    exact hgot.spanFrom ho (by simp) hend'
  · rw [List.mem_singleton.mp hk]
    exact hg₄.fits hf

/-- A statement that is one word and a semicolon. -/
theorem jumpStmt_sound {k : TokenKind} {c : Construct} (ho : Ordered p.tokens)
    (hk : headKind p.tokens = k) (hke : k ≠ .eof) (hc : c.pieces = [.sign k, .sign .semicolon])
    (ha : ∀ t, Admits t (fun _ => .item) c (.stmt false)) (h : jumpStmt c p = (.ok id, q)) :
    ReadsStmt p id q := by
  obtain ⟨a, rest, hp⟩ := exists_of_headKind_ne (show headKind p.tokens ≠ .eof by rwa [hk])
  rw [hp, Parser.headKind_cons] at hk
  rw [jumpStmt, bind_of_ok (advance_of_eq_cons hp)] at h
  obtain ⟨b, p₁, h₁, h⟩ := bind_eq_ok.mp h
  cases h
  have hg : Got true p [.sign k] [a] (p.read [a] rest) := .token hp ⟨a, rfl, hk⟩
  obtain ⟨hg₁, hend⟩ := Got.sign (b := true) h₁ (by simp)
  have hgot := hg.trans hg₁
  have hend' := hend.append [a]
  have hchildren : c.children = [] := by
    rw [← c.nodes_pieces, hc]
    rfl
  rw [List.singleton_append, ← hc] at hgot
  refine readsStmt_alloc hgot.lax hend' ?_ _ (ha p₁.tree) (by simp [hchildren]) (by simp) ?_
  · rw [← cover_singleton a]
    exact hgot.spanFrom ho (by simp) hend'
  · rintro e rfl
    cases hc

theorem emptyStmt_sound (hk : headKind p.tokens = .semicolon) (h : emptyStmt p = (.ok id, q)) :
    ReadsStmt p id q := by
  obtain ⟨a, rest, hp⟩ := exists_of_headKind_ne (show headKind p.tokens ≠ .eof by simp [hk])
  rw [hp, Parser.headKind_cons] at hk
  rw [emptyStmt, bind_of_ok (advance_of_eq_cons hp)] at h
  cases h
  exact readsStmt_alloc (c := .emptyStmt) (.token hp ⟨a, rfl, hk⟩) (Parser.endsWith_read (by simp))
    (cover_singleton a).symm (fun _ => .item) .emptyStmt (by simp [Construct.children]) (by simp)
    (by simp)

end Statements

/-! ## 2. Items -/

theorem synchronize_length_lt {before : Nat} {p : Parser} (h : p.tokens.length ≤ before)
    (hb : 0 < before) : (synchronize before p).2.tokens.length < before := by
  have hskip : ∀ (ts : List Token) (s : Span), (skipStatement ts s).1.length ≤ ts.length :=
    fun ts s => (skipStatement_suffix ts s).length_le
  by_cases hl : p.tokens.length = before
  · cases hp : p.tokens with
    | nil =>
      rw [hp, List.length_nil] at hl
      omega
    | cons t ts =>
      simp only [synchronize, bind_apply, get_apply, hl, if_true, advance_of_eq_cons hp,
        modify_apply, Parser.read_tokens]
      have := hskip ts (p.read [t] ts).lastSpan
      rw [hp, List.length_cons] at hl
      omega
  · simp only [synchronize, bind_apply, get_apply, hl, if_false, modify_apply]
    have := hskip p.tokens p.lastSpan
    omega

/-- After a failure the error is recorded and tokens are left out. -/
theorem recover_sound {p q : Parser} (e : ParseError) (h : Advances 0 p q) :
    Got false p [] [] (recover p.tokens.length e q) ∧
      (p.tokens ≠ [] → (recover p.tokens.length e q).tokens.length < p.tokens.length) := by
  obtain ⟨hadv, -⟩ := quiet_synchronize p.tokens.length 0 { q with errors := q.errors ++ [e] }
  have hrec : recover p.tokens.length e q =
      (synchronize p.tokens.length { q with errors := q.errors ++ [e] }).2 := by
    simp [recover, bind_apply, record]
  rw [hrec]
  refine ⟨⟨h.tree.trans hadv.tree, ?_, ?_, ?_, .nil⟩, fun hne => ?_⟩
  · exact (hadv.tokens.trans h.tokens).sublist
  · exact h.errors.trans ((List.prefix_append _ _).trans hadv.errors)
  · rintro (hf | he)
    · cases hf
    · have hlt := hadv.errors.length_le
      have hle := h.errors.length_le
      rw [he] at hlt
      simp only [List.length_append, List.length_singleton] at hlt
      omega
  · exact synchronize_length_lt h.tokens.length_le (List.length_pos_iff.mpr hne)

/-- **A sequence of items is read item by item**, and up to the end unless a brace ends it. -/
theorem itemsTo_sound {braced : Bool} {item : Parse NodeId} (P : SyntaxTree → NodeId → Prop)
    (hP : ∀ {t u id}, t.Extends u → P t id → P u id) (hb : Builds item [] ([·]))
    (hitem : ∀ (p q : Parser) (id : NodeId), Ordered p.tokens → item p = (.ok id, q) →
      ∃ ts, ts ≠ [] ∧ Got false p [.node id] ts q ∧ P q.tree id) :
    ∀ {turns : Nat} {p q : Parser} {ids : List NodeId}, Ordered p.tokens →
      itemsTo braced item turns p = (.ok ids, q) →
      ∃ ts, Got false p (ids.map .node) ts q ∧ (∀ id ∈ ids, P q.tree id) ∧
        (braced = false → p.tokens.length < turns → q.tokens = [])
  | 0, p, q, ids, _, h => by
    cases h
    exact ⟨[], .nil p, by simp, by simp⟩
  | turns + 1, p, q, ids, ho, h => by
    cases hc : closed braced p with
    | true =>
      rw [itemsTo_of_closed hc] at h
      cases h
      refine ⟨[], .nil p, by simp, ?_⟩
      rintro rfl -
      simpa [closed] using hc
    | false =>
      rcases hi : item p with ⟨e | id, p₁⟩
      · rw [itemsTo_of_error hc hi] at h
        have hadv : Advances 0 p p₁ := by
          have := (hb 0 p (pending_nil (Nat.zero_le _))).1
          rwa [hi] at this
        obtain ⟨hrec, hlt⟩ := recover_sound e hadv
        obtain ⟨ts, hg, hall, hend⟩ := itemsTo_sound P hP hb hitem (hrec.ordered ho).right h
        refine ⟨ts, hrec.trans hg, hall, fun hbr hlen => hend hbr ?_⟩
        have hne : p.tokens ≠ [] := by
          rintro hn
          simp [closed, hn] at hc
        have := hlt hne
        omega
      · obtain ⟨more, q', hm⟩ := itemsTo_eq_ok braced item turns p₁
        rw [itemsTo_of_ok hc hi hm] at h
        cases h
        obtain ⟨us, hne, hg₁, hp₁⟩ := hitem p p₁ id ho hi
        obtain ⟨ts, hg, hall, hend⟩ := itemsTo_sound P hP hb hitem (hg₁.ordered ho).right hm
        refine ⟨us ++ ts, hg₁.trans hg, fun k hk => ?_, fun hbr hlen => hend hbr ?_⟩
        · rcases List.mem_cons.mp hk with rfl | hk
          · exact hP hg.tree hp₁
          · exact hall k hk
        · have hle := hg₁.tokens.length_le
          have hpos := List.length_pos_iff.mpr hne
          rw [List.length_append] at hle
          omega

/-! ## 3. Statements with statements in them -/

/-- The role of a statement, dangling or not. -/
def IsStmt (t : SyntaxTree) (id : NodeId) : Prop := ∃ d, Fits t (.stmt d) id

theorem IsStmt.extends {t u : SyntaxTree} {id : NodeId} (he : t.Extends u) (h : IsStmt t id) :
    IsStmt u id := by
  obtain ⟨d, hf⟩ := h
  exact ⟨d, hf.extends he⟩

section Nested

variable {stmt : Parse NodeId} {p q : Parser} {id : NodeId}

/-- What is read between braces, and the new node that it makes. -/
theorem blockWith_sound (hb : Builds stmt [] ([·])) (hstmt : SoundStmt stmt)
    (ho : Ordered p.tokens) (h : blockWith stmt p = (.ok id, q)) :
    p.tree.size ≤ id ∧ ∃ ts, Got false p [.node id] ts q ∧ q.EndsWith ts ∧
      Fits q.tree (.stmt false) id ∧ Fits q.tree .body id ∧
      ∃ stmts, q.tree.construct? id = some (.block stmts) := by
  obtain ⟨a, p₁, h₁, h⟩ := bind_eq_ok.mp h
  obtain ⟨stmts, p₂, h₂, h⟩ := bind_eq_ok.mp h
  obtain ⟨c, p₃, h₃, h⟩ := bind_eq_ok.mp h
  cases h
  obtain ⟨hg₁, -⟩ := Got.sign (b := false) h₁ (by simp)
  obtain ⟨ts, hg₂, hall, -⟩ := itemsTo_sound IsStmt IsStmt.extends hb
    (fun p q id ho h => by
      obtain ⟨-, ts, d, hg, he, hf, -⟩ := hstmt p q id ho h
      exact ⟨ts, he.ne_nil, hg, d, hf⟩) (hg₁.ordered ho).right h₂
  obtain ⟨hg₃, hend⟩ := Got.sign (b := false) h₃ (by simp)
  have hgot := hg₁.trans (hg₂.trans hg₃)
  have hend' := (hend.append ts).append [a]
  have hspan : a.span.merge p₃.lastSpan = cover ([a] ++ (ts ++ [c])) := by
    rw [← cover_singleton a]
    exact hgot.spanFrom ho (by simp) hend'
  obtain ⟨ρ, hρ⟩ := Fits.exists_roles (t := p₃.tree) (fun role => ∃ d, role = .stmt d)
    fun k hk => by
      obtain ⟨d, hf⟩ := hall k hk
      exact ⟨_, ⟨d, rfl⟩, hg₃.fits hf⟩
  have hkids : ∀ k ∈ (Construct.block stmts).children, Fits p₃.tree (ρ k) k :=
    fun k hk => (hρ k hk).2
  refine ⟨hgot.tree.size_le, _, Got.alloc (c := .block stmts) hgot hspan, hend',
    .alloc _ ρ (.block fun k hk => (hρ k hk).1) hkids,
    .alloc _ ρ (.body fun k hk => (hρ k hk).1) hkids, stmts, ?_⟩
  exact (construct?_alloc _ _ _ _).trans (if_pos rfl)

theorem condition_sound {e : NodeId} (ho : Ordered p.tokens) (h : condition p = (.ok e, q)) :
    p.tree.size ≤ e ∧ ∃ ts l r,
      Got true p [.sign .leftParen, .node e, .sign .rightParen] ts q ∧ q.EndsWith ts ∧
        Fits q.tree (.expr l r) e := by
  obtain ⟨a, p₁, h₁, h⟩ := bind_eq_ok.mp h
  obtain ⟨e', p₂, h₂, h⟩ := bind_eq_ok.mp h
  obtain ⟨c, p₃, h₃, h⟩ := bind_eq_ok.mp h
  cases h
  obtain ⟨hg₁, -⟩ := Got.sign (b := true) h₁ (by simp)
  obtain ⟨hnew, ts, l, r, hg₂, -, hf⟩ := expr_got (hg₁.ordered ho).right h₂
  obtain ⟨hg₃, hend⟩ := Got.sign (b := true) h₃ (by simp)
  exact ⟨Nat.le_trans hg₁.tree.size_le hnew, _, l, r, hg₁.trans (hg₂.trans hg₃),
    (hend.append ts).append [a], hg₃.fits hf⟩

theorem whileWith_sound (hstmt : SoundStmt stmt) (ho : Ordered p.tokens)
    (h : whileWith stmt p = (.ok id, q)) : ReadsStmt p id q := by
  obtain ⟨a, p₁, h₁, h⟩ := bind_eq_ok.mp h
  obtain ⟨e, p₂, h₂, h⟩ := bind_eq_ok.mp h
  obtain ⟨s, p₃, h₃, h⟩ := bind_eq_ok.mp h
  cases h
  obtain ⟨hg₁, -⟩ := Got.sign (b := false) h₁ (by simp)
  obtain ⟨-, ts, l, r, hg₂, -, hf⟩ := condition_sound (hg₁.ordered ho).right h₂
  have hg₁₂ := hg₁.trans hg₂.lax
  obtain ⟨hnew, us, d, hg₃, hend, hf₃, hd, -⟩ := hstmt _ _ _ (hg₁₂.ordered ho).right h₃
  have hgot := hg₁.trans (hg₂.lax.trans hg₃)
  have hend' := (hend.append ts).append [a]
  obtain ⟨ρ, hρa, hρb, hρ⟩ := exists_two_roles hf hnew (hg₃.fits hf) hf₃
  refine readsStmt_alloc (c := .whileStmt e s) hgot hend' ?_ ρ (.whileStmt hρa hρb) hρ hd (by simp)
  rw [← cover_singleton a]
  exact hgot.spanFrom ho (by simp) hend'

theorem doWith_sound (hstmt : SoundStmt stmt) (ho : Ordered p.tokens)
    (h : doWith stmt p = (.ok id, q)) : ReadsStmt p id q := by
  obtain ⟨a, p₁, h₁, h⟩ := bind_eq_ok.mp h
  obtain ⟨s, p₂, h₂, h⟩ := bind_eq_ok.mp h
  obtain ⟨w, p₃, h₃, h⟩ := bind_eq_ok.mp h
  obtain ⟨e, p₄, h₄, h⟩ := bind_eq_ok.mp h
  obtain ⟨c, p₅, h₅, h⟩ := bind_eq_ok.mp h
  cases h
  obtain ⟨hg₁, -⟩ := Got.sign (b := false) h₁ (by simp)
  obtain ⟨-, ts, d, hg₂, -, hf, -⟩ := hstmt _ _ _ (hg₁.ordered ho).right h₂
  obtain ⟨hg₃, -⟩ := Got.sign (b := false) h₃ (by simp)
  have hg₁₃ := hg₁.trans (hg₂.trans hg₃)
  obtain ⟨hnew, us, l, r, hg₄, -, hf₄⟩ := condition_sound (hg₁₃.ordered ho).right h₄
  obtain ⟨hg₅, hend⟩ := Got.sign (b := false) h₅ (by simp)
  have hgot := hg₁.trans (hg₂.trans (hg₃.trans (hg₄.lax.trans hg₅)))
  have hend' := (((hend.append us).append [w]).append ts).append [a]
  have hlater := hg₃.trans (hg₄.lax.trans hg₅)
  obtain ⟨ρ, hρa, hρb, hρ⟩ := exists_two_roles hf (Nat.le_trans hg₃.tree.size_le hnew)
    (hlater.fits hf) (hg₅.fits hf₄)
  refine readsStmt_alloc (c := .doStmt s e) hgot hend' ?_ ρ (.doStmt hρa hρb) hρ (by simp) (by simp)
  rw [← cover_singleton a]
  exact hgot.spanFrom ho (by simp) hend'

theorem ifWith_sound (hstmt : SoundStmt stmt) (ho : Ordered p.tokens)
    (h : ifWith stmt p = (.ok id, q)) : ReadsStmt p id q := by
  obtain ⟨a, p₁, h₁, h⟩ := bind_eq_ok.mp h
  obtain ⟨e, p₂, h₂, h⟩ := bind_eq_ok.mp h
  obtain ⟨s, p₃, h₃, h⟩ := bind_eq_ok.mp h
  obtain ⟨b, p₄, h₄, h'⟩ := bind_eq_ok.mp h
  clear h
  obtain ⟨hg₁, -⟩ := Got.sign (b := false) h₁ (by simp)
  obtain ⟨-, ts, l, r, hg₂, -, hf⟩ := condition_sound (hg₁.ordered ho).right h₂
  have hg₁₂ := hg₁.trans hg₂.lax
  obtain ⟨hnew, us, d, hg₃, hend₃, hf₃, hd, -⟩ := hstmt _ _ _ (hg₁₂.ordered ho).right h₃
  have hg₁₃ := hg₁.trans (hg₂.lax.trans hg₃)
  rcases (eat_eq_ok (by simp)).mp h₄ with ⟨rfl, c, rest, hp, hc, rfl⟩ | ⟨rfl, hne, rfl⟩
  · rw [if_pos rfl] at h'
    obtain ⟨s', p₅, h₅, h⟩ := bind_eq_ok.mp h'
    rw [bind_of_ok (pure_apply _ p₅)] at h
    cases h
    -- an `else` follows, so the first branch does not take one
    have hd' : d = false := by
      rw [hp, Parser.headKind_cons] at hd
      cases d with
      | false => rfl
      | true => exact absurd hc (hd rfl)
    subst hd'
    have hg₄ : Got false p₃ [.sign .elseWord] [c] (p₃.read [c] rest) := .token hp ⟨c, rfl, hc⟩
    obtain ⟨hnew', vs, d', hg₅, hend₅, hf₅, hd', -⟩ :=
      hstmt _ _ _ ((hg₁₃.trans hg₄).ordered ho).right h₅
    have hg₄₅ := hg₄.trans hg₅
    have hgot := hg₁.trans (hg₂.lax.trans (hg₃.trans (hg₄.trans hg₅)))
    have hend' := (((hend₅.append [c]).append us).append ts).append [a]
    have hse : s ≠ e := hf.ne_of_size_le hnew
    have hs'e : s' ≠ e := hf.ne_of_size_le (Nat.le_trans hg₃.tree.size_le hnew')
    have hs's : s' ≠ s := hf₃.ne_of_size_le hnew'
    refine readsStmt_alloc (c := .ifStmt e s (some s')) hgot hend' ?_
      (fun k => if k = e then .expr l r else if k = s then .stmt false else .stmt d')
      (.ifElse (if_pos rfl) (by simp [hse]) (by simp [hs'e, hs's])) (fun k hk => ?_) hd' (by simp)
    · rw [← cover_singleton a]
      exact hgot.spanFrom ho (by simp) hend'
    · simp only [Construct.children, Option.toList_some, List.mem_cons, List.not_mem_nil,
        or_false] at hk
      rcases hk with rfl | rfl | rfl
      · simpa using (hg₃.trans hg₄₅).fits hf
      · simpa [hse] using hg₄₅.fits hf₃
      · simpa [hs'e, hs's] using hf₅
  · rw [if_neg (by simp), bind_of_ok (pure_apply _ p₄)] at h'
    cases h'
    have hend' := (hend₃.append ts).append [a]
    obtain ⟨ρ, hρa, hρb, hρ⟩ := exists_two_roles hf hnew (hg₃.fits hf) hf₃
    refine readsStmt_alloc (c := .ifStmt e s none) hg₁₃ hend' ?_ ρ (.ifThen hρa hρb) hρ
      (fun _ => hne) (by simp)
    rw [← cover_singleton a]
    exact hg₁₃.spanFrom ho (by simp) hend'

theorem statementWith_sound (hb : Builds stmt [] ([·])) (hstmt : SoundStmt stmt) :
    SoundStmt (statementWith stmt) := by
  intro p q id ho h
  rw [statementWith, bind_of_ok (peek_apply p), Parser.kind_peek] at h
  have hother : ∀ {p : Parser}, Ordered p.tokens → (do
      if ← isVarDecl then localDecl else exprStmt : Parse NodeId) p = (.ok id, q) →
      ReadsStmt p id q := by
    intro p ho h
    rw [bind_of_ok (isVarDecl_apply p)] at h
    split at h
    · exact localDecl_sound ho h
    · rename_i hdecl
      exact exprStmt_sound ho (by simpa using hdecl) h
  cases hk : headKind p.tokens <;> simp only [hk] at h
  case leftBrace =>
    obtain ⟨hnew, ts, hg, hend, hf, -, stmts, hc⟩ := blockWith_sound hb hstmt ho h
    refine ⟨hnew, ts, false, hg, hend, hf, by simp, fun e he => ?_⟩
    rw [hc] at he
    cases he
  case ifWord => exact ifWith_sound hstmt ho h
  case whileWord => exact whileWith_sound hstmt ho h
  case doWord => exact doWith_sound hstmt ho h
  case returnWord => exact returnStmt_sound ho h
  case yieldWord => exact yieldStmt_sound ho h
  case breakWord => exact jumpStmt_sound ho hk (by simp) rfl (fun _ => .breakStmt) h
  case continueWord => exact jumpStmt_sound ho hk (by simp) rfl (fun _ => .continueStmt) h
  case semicolon => exact emptyStmt_sound hk h
  all_goals exact hother ho h

end Nested

/-- **Every statement is read rightly.** -/
theorem statementTo_sound : ∀ depth : Nat, SoundStmt (statementTo depth)
  | 0 => fun p q id _ h => absurd h (exhausted_ne_ok p q id)
  | depth + 1 => statementWith_sound (builds_statementTo depth) (statementTo_sound depth)

theorem statement_sound : SoundStmt statement := by
  intro p q id ho h
  rw [statement_apply] at h
  exact statementTo_sound (p.tokens.length + 1) p q id ho h

/-! ## 4. Declarations -/

section Declarations

variable {p q : Parser} {id : NodeId}

/-- A new declaration was read. -/
def ReadsDecl (role : Role) (p : Parser) (id : NodeId) (q : Parser) : Prop :=
  ∃ ts, ts ≠ [] ∧ Got false p [.node id] ts q ∧ Fits q.tree role id

theorem readsDecl_alloc {role : Role} {c : Construct} {span : Span} {ts : List Token}
    (hg : Got false p c.pieces ts q) (hne : ts ≠ []) (hs : span = cover ts) (ρ : NodeId → Role)
    (ha : Admits q.tree ρ c role) (hk : ∀ k ∈ c.children, Fits q.tree (ρ k) k) :
    ReadsDecl role p q.tree.size { q with tree := (q.tree.alloc c span).2 } :=
  ⟨ts, hne, hg.alloc hs, .alloc span ρ ha hk⟩

theorem param_sound {a : Param} (ho : Ordered p.tokens) (h : param p = (.ok a, q)) :
    ∃ ts, Got true p a.pieces ts q ∧ True := by
  obtain ⟨w, p₁, h₁, h⟩ := bind_eq_ok.mp h
  obtain ⟨n, p₂, h₂, h⟩ := bind_eq_ok.mp h
  cases h
  obtain ⟨ts, hg₁, -, -, -⟩ := Got.type (b := true) h₁ ho
  obtain ⟨c, hg₂, -, -⟩ := Got.name (b := true) h₂
  exact ⟨ts ++ [c], hg₁.trans hg₂, trivial⟩

theorem function_sound (ho : Ordered p.tokens) (h : function p = (.ok id, q)) :
    ReadsDecl .item p id q ∧ ReadsDecl .member p id q := by
  obtain ⟨w, p₁, h₁, h⟩ := bind_eq_ok.mp h
  obtain ⟨n, p₂, h₂, h⟩ := bind_eq_ok.mp h
  obtain ⟨a, p₃, h₃, h⟩ := bind_eq_ok.mp h
  rw [bind_of_ok (check_apply _ p₃)] at h
  obtain ⟨ts, hg₁, hend₁, hspan, -⟩ := Got.type (b := false) h₁ ho
  obtain ⟨c, hg₂, -, -⟩ := Got.name (b := false) h₂
  obtain ⟨hg₃, -⟩ := Got.sign (b := false) h₃ (by simp)
  have hg₁₃ := hg₁.trans (hg₂.trans hg₃)
  have hbody : ∀ {params : List Param} {p₄ : Parser} {us : List Token},
      Got false p₃ (Piece.separated (params.map Param.pieces)) us p₄ → (do
        let _ ← expect .rightParen
        let body ← block
        alloc (.function w n params body) (← spanFrom w.span) : Parse NodeId) p₄ = (.ok id, q) →
      ReadsDecl .item p id q ∧ ReadsDecl .member p id q := by
    intro params p₄ us hg₄ h
    obtain ⟨b, p₅, h₅, h⟩ := bind_eq_ok.mp h
    obtain ⟨s, p₆, h₆, h⟩ := bind_eq_ok.mp h
    cases h
    obtain ⟨hg₅, -⟩ := Got.sign (b := false) h₅ (by simp)
    have hg₁₅ := hg₁₃.trans (hg₄.trans hg₅)
    obtain ⟨-, vs, hg₆, hend, -, hf, -⟩ :=
      blockWith_sound builds_statement statement_sound (hg₁₅.ordered ho).right h₆
    have hgot := hg₁.trans (hg₂.trans (hg₃.trans (hg₄.trans (hg₅.trans hg₆))))
    have hend' := ((((hend.append [b]).append us).append [a]).append [c]).append ts
    have hs : w.span.merge p₆.lastSpan = cover (ts ++ ([c] ++ ([a] ++ (us ++ ([b] ++ vs))))) := by
      rw [hspan]
      exact hgot.spanFrom ho hend₁.ne_nil hend'
    have hkids : ∀ k ∈ (Construct.function w n params s).children, Fits p₆.tree .body k := by
      intro k hk
      rw [List.mem_singleton.mp hk]
      exact hf
    exact ⟨readsDecl_alloc (c := .function w n params s) hgot hend'.ne_nil hs (fun _ => .body)
        (.function rfl) hkids,
      readsDecl_alloc (c := .function w n params s) hgot hend'.ne_nil hs (fun _ => .body)
        (.method rfl) hkids⟩
  split at h
  · rw [bind_of_ok (pure_apply _ p₃)] at h
    exact @hbody [] _ _ (.nil p₃) h
  · obtain ⟨params, p₄, h₄, h⟩ := bind_eq_ok.mp h
    rw [separated_apply] at h₄
    obtain ⟨-, us, hg₄, -⟩ := separatedTo_sound (n := 0) Param.pieces (fun _ _ => True)
      (fun _ h => h) (fun ho _ h => param_sound ho h) (hg₁₃.ordered ho).right (Nat.zero_le _) h₄
    exact hbody hg₄.lax h

theorem checkWord_apply (word : String) (p : Parser) :
    checkWord word p = (.ok (p.peek.kind = .identifier && p.peek.lexeme = word), p) := rfl

theorem accessorsTo_sound : ∀ {turns : Nat} {p q : Parser} {b : Bool},
    accessorsTo turns p = (.ok b, q) → ∃ ts, JustRead p ts q ∧ Accessors b ts
  | 0, p, q, b, h => absurd h (exhausted_ne_ok p q b)
  | turns + 1, p, q, b, h => by
    rw [accessorsTo, bind_of_ok (check_apply _ p)] at h
    split at h
    · cases h
      exact ⟨[], ⟨rfl, rfl⟩, .none⟩
    · rw [bind_of_ok (checkWord_apply _ p), bind_of_ok (checkWord_apply _ p)] at h
      split at h
      · rename_i hword
        simp only [Bool.or_eq_true, Bool.and_eq_true, decide_eq_true_eq, ← and_or_left] at hword
        obtain ⟨a, rest, hp⟩ := exists_of_headKind_ne (show headKind p.tokens ≠ .eof by
          rw [← Parser.kind_peek, hword.1]
          simp)
        rw [Parser.peek_of_eq_cons hp] at hword h
        rw [bind_of_ok (advance_of_eq_cons hp)] at h
        obtain ⟨c, p₁, h₁, h⟩ := bind_eq_ok.mp h
        obtain ⟨more, p₂, h₂, hmore⟩ := bind_eq_ok.mp h
        obtain ⟨rest', hp', hc, rfl⟩ := (expect_eq_ok (by simp)).mp h₁
        obtain ⟨ts, hread, hts⟩ := accessorsTo_sound h₂
        cases hmore
        refine ⟨a :: c :: ts, (JustRead.one hp).trans ((JustRead.one hp').trans hread), ?_⟩
        simpa [hword.1] using Accessors.one hword.1 hword.2 hc hts
      · rw [bind_of_ok (peek_apply p)] at h
        cases h

theorem accessors_sound {hasSetter b : Bool} (h : accessors p = (.ok hasSetter, q)) :
    ∃ ts, Got b p [.sign .leftBrace, .accessors hasSetter, .sign .rightBrace] ts q ∧
      q.EndsWith ts := by
  obtain ⟨a, p₁, h₁, h⟩ := bind_eq_ok.mp h
  rw [bind_of_ok (limit_apply p₁)] at h
  obtain ⟨flag, p₂, h₂, h⟩ := bind_eq_ok.mp h
  obtain ⟨c, p₃, h₃, h⟩ := bind_eq_ok.mp h
  cases h
  obtain ⟨hg₁, -⟩ := Got.sign (b := b) h₁ (by simp)
  obtain ⟨ts, ⟨hp, hq⟩, hts⟩ := accessorsTo_sound h₂
  obtain ⟨hg₃, hend⟩ := Got.sign (b := b) h₃ (by simp)
  have hspells : Spells p₁.tree (Placed p₁.tree) [.accessors hasSetter] ts := by
    rw [← List.append_nil ts]
    exact .leaf (p := .accessors hasSetter) hts .nil
  have hg₂ : Got b p₁ [.accessors hasSetter] ts p₂ := by
    rw [hq]
    exact .read hp hspells
  exact ⟨_, hg₁.trans (hg₂.trans hg₃), (hend.append ts).append [a]⟩

theorem classMember_sound (ho : Ordered p.tokens) (h : classMember p = (.ok id, q)) :
    ReadsDecl .member p id q := by
  rw [classMember, bind_of_ok (isFunctionDecl_apply p)] at h
  split at h
  · exact (function_sound ho h).2
  · obtain ⟨w, p₁, h₁, h⟩ := bind_eq_ok.mp h
    obtain ⟨n, p₂, h₂, h⟩ := bind_eq_ok.mp h
    rw [bind_of_ok (check_apply _ p₂)] at h
    obtain ⟨ts, hg₁, hend₁, hspan, -⟩ := Got.type (b := true) h₁ ho
    obtain ⟨c, hg₂, -, -⟩ := Got.name (b := true) h₂
    have hg₁₂ := hg₁.trans hg₂
    split at h
    · obtain ⟨hasSetter, p₃, h₃, h⟩ := bind_eq_ok.mp h
      cases h
      obtain ⟨us, hg₃, hend⟩ := accessors_sound (b := true) h₃
      have hgot := hg₁.trans (hg₂.trans hg₃)
      have hend' := (hend.append [c]).append ts
      refine readsDecl_alloc (c := .property w n hasSetter) hgot.lax hend'.ne_nil ?_
        (fun _ => .item) .property (by simp [Construct.children])
      rw [hspan]
      exact hgot.spanFrom ho hend₁.ne_nil hend'
    · obtain ⟨init, p₃, h₃, h⟩ := bind_eq_ok.mp h
      obtain ⟨a, p₄, h₄, h⟩ := bind_eq_ok.mp h
      cases h
      obtain ⟨us, hg₃, hall⟩ := initializer_sound (hg₁₂.ordered ho).right h₃ n hg₂
      obtain ⟨hg₄, hend⟩ := Got.sign (b := true) h₄ (by simp)
      have hgot := hg₁.trans (hg₃.trans hg₄)
      have hend' := (hend.append us).append ts
      have hinits : ∀ e ∈ init.toList, IsExpr p₄.tree e :=
        fun e he => (hall e (Option.mem_toList.mp he)).extends hg₄.tree
      obtain ⟨ρ, hρ⟩ := exists_exprRoles hinits
      refine readsDecl_alloc (c := .field w n init) hgot.lax hend'.ne_nil ?_ ρ
        (.field fun e he => (hρ e (Option.mem_toList.mpr he)).1) (fun k hk => (hρ k hk).2)
      rw [hspan]
      exact hgot.spanFrom ho hend₁.ne_nil hend'

theorem classDecl_sound (ho : Ordered p.tokens) (h : classDecl p = (.ok id, q)) :
    ReadsDecl .item p id q := by
  obtain ⟨a, p₁, h₁, h⟩ := bind_eq_ok.mp h
  obtain ⟨n, p₂, h₂, h⟩ := bind_eq_ok.mp h
  obtain ⟨b, p₃, h₃, h⟩ := bind_eq_ok.mp h
  obtain ⟨members, p₄, h₄, h⟩ := bind_eq_ok.mp h
  obtain ⟨d, p₅, h₅, h⟩ := bind_eq_ok.mp h
  cases h
  obtain ⟨hg₁, -⟩ := Got.sign (b := false) h₁ (by simp)
  obtain ⟨c, hg₂, -, -⟩ := Got.name (b := false) h₂
  obtain ⟨hg₃, -⟩ := Got.sign (b := false) h₃ (by simp)
  have hg₁₃ := hg₁.trans (hg₂.trans hg₃)
  obtain ⟨ts, hg₄, hall, -⟩ := itemsTo_sound (fun t id => Fits t .member id)
    (fun he h => h.extends he) builds_classMember (fun p q id ho h => classMember_sound ho h)
    (hg₁₃.ordered ho).right h₄
  obtain ⟨hg₅, hend⟩ := Got.sign (b := false) h₅ (by simp)
  have hgot := hg₁.trans (hg₂.trans (hg₃.trans (hg₄.trans hg₅)))
  have hend' := (((hend.append ts).append [b]).append [c]).append [a]
  refine readsDecl_alloc (c := .classDecl n members) hgot hend'.ne_nil ?_ (fun _ => .member)
    (.classDecl fun _ _ => rfl) fun k hk => hg₅.fits (hall k hk)
  rw [← cover_singleton a]
  exact hgot.spanFrom ho (by simp) hend'

/-! ## 5. Programs -/

/-- **Every item of a program is read rightly.** -/
theorem item_sound (ho : Ordered p.tokens) (h : item p = (.ok id, q)) : ReadsDecl .item p id q := by
  rw [item, bind_of_ok (check_apply _ p)] at h
  split at h
  · exact classDecl_sound ho h
  · rw [bind_of_ok (isFunctionDecl_apply p)] at h
    split at h
    · exact (function_sound ho h).1
    · rename_i hdecl
      obtain ⟨-, ts, d, hg, hend, hf, -, hx⟩ := statement_sound p q id ho h
      refine ⟨ts, hend.ne_nil, hg, ?_⟩
      cases hf with
      | @node _ _ c ρ hc ha hk =>
        refine .node ρ hc (.item ha fun e he => ?_) hk
        subst he
        -- an expression statement is read whole, so it is what was seen ahead
        obtain ⟨c', hc', hks, -⟩ := Spells.node_iff.mp hg.spells
        rw [hc] at hc'
        cases hc'
        obtain ⟨us, vs, rfl, hus, hvs⟩ := Spells.node_cons_iff.mp hks
        obtain ⟨a, ws, rfl, hsemi, hws⟩ := Spells.sign_iff.mp hvs
        rw [Spells.nil_iff.mp hws] at hx
        have hp := hx e hc
        rw [List.append_assoc, List.singleton_append] at hp
        have hdecl' : TypeScan.isFunctionDecl (us ++ a :: q.tokens) = false := by
          rw [← hp]
          simpa using hdecl
        have hfe : Fits q.tree (ρ e) e := hk e (List.mem_singleton_self e)
        cases ha with
        | exprStmt he _ =>
          rw [he] at hfe
          exact .intro TypeScan.isFunctionDecl_congr hus hsemi hdecl' hfe

end Declarations

end Parse

/-- The parser at the start of a text has its tokens, without those that are none. -/
theorem Parser.ofText_spec (text : String) :
    ∃ toks stop rest, Lexed .start text.toList toks stop rest ∧ Spent rest ∧
      (ofText text).tokens = toks.filter (fun t => t.kind ≠ .error) ∧
      ((ofText text).errors = [] ↔ ∀ t ∈ toks, t.kind ≠ .error) := by
  obtain ⟨toks, stop, rest, last, hlex, hs, htoks, hlast, herr⟩ := tokenize_spec text
  refine ⟨toks, stop, rest, hlex, hs, ?_, ?_⟩
  · have hlastf : [last].filter (fun t => t.kind ≠ .error ∧ t.kind ≠ .eof) = [] := by
      simp [hlast]
    simp only [ofText, ofLexed, htoks, List.filter_append, hlastf, List.append_nil]
    refine List.filter_congr fun t ht => ?_
    simp [hlex.kind_ne_eof ht]
  · simpa [ofText, ofLexed] using herr

/-- **The tree of a text spells a part of its tokens, in order, and all of them if there are no
errors.**  Every item fits. -/
theorem parseLenient_sound (text : String) :
    ∃ toks stop rest items ts, Lexed .start text.toList toks stop rest ∧ Spent rest ∧
      (parseLenient text).1.construct? (parseLenient text).1.root = some (.unit items) ∧
      Spells (parseLenient text).1 (Placed (parseLenient text).1) (items.map .node) ts ∧
      (∀ id ∈ items, Fits (parseLenient text).1 .item id) ∧ ts.Sublist toks ∧
      (∀ t ∈ ts, t.kind ≠ .error) ∧ ((parseLenient text).2 = [] → ts = toks) := by
  obtain ⟨toks, stop, rest, hlex, hs, htoks, herr⟩ := Parser.ofText_spec text
  obtain ⟨items, q, hi, he, ht⟩ := parseLenient_apply text
  have ho : Ordered (Parser.ofText text).tokens := by
    rw [htoks]
    exact hlex.ordered.sublist List.filter_sublist
  obtain ⟨ts, hg, hall, hend⟩ := Parse.itemsTo_sound (fun t id => Fits t .item id)
    (fun he h => h.extends he) Parse.builds_item (fun p q id ho h => Parse.item_sound ho h) ho hi
  have hq : q.tokens = [] := hend rfl (Nat.lt_succ_self _)
  have hsub := hg.tokens
  rw [hq, List.append_nil, htoks] at hsub
  rw [ht, he]
  have hext := SyntaxTree.Extends.alloc q.tree (.unit items) ⟨0, q.textSize, 1, 1⟩
  refine ⟨toks, stop, rest, items, ts, hlex, hs, ?_, ?_, fun id hid => ?_,
    hsub.trans List.filter_sublist, fun t ht => ?_, fun hnone => ?_⟩
  · exact (SyntaxTree.construct?_alloc _ _ _ _).trans (if_pos rfl)
  · refine (hg.spells.extends hext).mono (fun _ _ h => h) fun _ _ _ h => h
  · exact ((hall id hid).extends hext).mono fun _ _ h => h
  · have := (List.mem_filter.mp (hsub.subset ht)).2
    simpa using this
  · -- no error at all: the lexer recorded none either, so nothing was left out
    have hp : (Parser.ofText text).errors = [] := by
      have := hg.errors
      rw [hnone] at this
      exact List.prefix_nil.mp this
    have hwhole := (hg.whole (.inr (hnone.trans hp.symm))).1
    rw [htoks, hq, List.append_nil] at hwhole
    rw [← hwhole]
    exact List.filter_eq_self.mpr fun t ht => by simpa using (herr.mp hp) t ht

end Recast
