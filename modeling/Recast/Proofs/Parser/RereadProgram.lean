/-
# Reading statements and programs again

Tokens that spell statements, declarations or a whole program are read as trees of the same shapes,
as `Recast.Proofs.Parser.Reread` says it of expressions.

* `RereadsStmt`: what it is to be read again as a statement.  Only a dangling statement minds what
  follows: it must not be an `else`;
* `itemsTo_rebuilds`: a sequence of items is read again if each of them is, since no item starts
  with `else` or with a closing brace;
* `parseLenient_of_spells`: **a text whose tokens spell a program is read as it, without errors.**
-/
import Recast.Proofs.Parser.Reread
import Recast.Proofs.Parser.SoundProgram

namespace Recast

open Recast.Parser (headKind)
open SyntaxTree

/-! ## 1. How items start -/

/-- The kinds of the tokens that a statement can start with. -/
def TokenKind.startsStmt (k : TokenKind) : Bool :=
  k.startsExpr || match k with
    | leftBrace | ifWord | whileWord | doWord | returnWord | yieldWord | breakWord | continueWord
    | semicolon => true
    | _ => false

theorem Fits.startsStmt {t : SyntaxTree} {id : NodeId} {d : Bool} {ts : List Token}
    (h : Fits t (.stmt d) id) (hs : Spells t Anywhere [.node id] ts) :
    (headKind ts).startsStmt = true := by
  cases h with
  | @node _ _ c ρ hc ha hk =>
    have hsp := hs.pieces hc
    have hsign : ∀ {k : TokenKind} {ps : List Piece}, c.pieces = .sign k :: ps →
        k.startsStmt = true → (headKind ts).startsStmt = true := by
      intro k ps hp hk'
      rw [hp] at hsp
      obtain ⟨a, us, rfl, ha, -⟩ := Spells.sign_iff.mp hsp
      rwa [Parser.headKind_cons, ha]
    cases ha with
    | @exprStmt e l r he _ =>
      obtain ⟨us, vs, rfl, hus, -⟩ := Spells.node_cons_iff.mp hsp
      have hf : Fits t (.expr l r) e := he ▸ hk e (by simp [Construct.children])
      have hstart := hf.startsExpr rfl hus
      cases us with
      | nil => cases hstart
      | cons a us => exact Bool.or_eq_true_iff.mpr (.inl hstart)
    | localDecl _ _ =>
      obtain ⟨us, vs, rfl, hus, -⟩ := Spells.type_iff.mp hsp
      rw [hus.headKind_eq]
      rfl
    | @returnStmt value _ => cases value <;> exact hsign rfl rfl
    | yieldStmt _ | breakStmt | continueStmt | emptyStmt | block _ | ifThen _ _ | ifElse _ _ _
    | whileStmt _ _ | doStmt _ _ => exact hsign rfl rfl

/-- The kinds of the tokens that an item of a sequence can start with. -/
def TokenKind.startsItem (k : TokenKind) : Bool := k.startsStmt || k = .classWord

theorem TokenKind.startsItem_of_startsStmt {k : TokenKind} (h : k.startsStmt = true) :
    k.startsItem = true := by
  rw [startsItem, h]
  rfl

namespace Parse

variable {t : SyntaxTree} {id : NodeId} {ts rest : List Token} {p : Parser}

/-! ## 2. Sequences of items -/

/-- **A sequence of items is read item by item**, up to where it ends. -/
theorem itemsTo_rebuilds {b : Bool} {x : Parse NodeId} {n : Nat} :
    ∀ {ids : List NodeId} {turns : Nat} {p : Parser} {ts rest : List Token},
      (∀ id ∈ ids, ∀ us rest p, Spells t Anywhere [.node id] us → us.length ≤ n →
        p.tokens = us ++ rest → headKind rest ≠ .elseWord → Rebuilds t id x p us) →
      (∀ id ∈ ids, ∀ us, Spells t Anywhere [.node id] us → (headKind us).startsItem = true) →
      Spells t Anywhere (ids.map .node) ts → ts.length ≤ n → ts.length < turns →
      p.tokens = ts ++ rest → rest = [] ∨ b = true ∧ headKind rest = .rightBrace →
      ∃ ids' q, itemsTo b x turns p = (.ok ids', q) ∧ Consumed p ts q ∧
        SameShape t q.tree ids ids'
  | _, 0, _, _, _, _, _, _, _, ht, _, _ => absurd ht (Nat.not_lt_zero _)
  | [], turns + 1, p, ts, rest, _, _, hs, _, _, hp, hend => by
    obtain rfl := Spells.nil_iff.mp hs
    have hclosed : closed b p = true := by
      have hp' : p.tokens = rest := hp
      rcases hend with rfl | ⟨rfl, hr⟩
      · simp [closed, hp']
      · simp [closed, hp', hr]
    exact ⟨[], p, itemsTo_of_closed hclosed, .refl p, .nil⟩
  | id :: ids, turns + 1, p, ts, rest, hitem, hstart, hs, hn, ht, hp, hend => by
    obtain ⟨us, vs, rfl, hus, hvs⟩ := Spells.node_cons_iff.mp hs
    have hstartu := hstart id (by simp) us hus
    have hne : us ≠ [] := by
      rintro rfl
      cases hstartu
    have hpos := List.length_pos_iff.mpr hne
    rw [List.length_append] at hn ht
    rw [List.append_assoc] at hp
    -- neither the next item nor the end of the sequence is an `else`
    have helse : headKind (vs ++ rest) ≠ .elseWord := by
      intro he
      cases ids with
      | nil =>
        obtain rfl := Spells.nil_iff.mp hvs
        rcases hend with rfl | ⟨-, hr⟩
        · cases he
        · rw [List.nil_append, hr] at he
          cases he
      | cons id' ids =>
        obtain ⟨xs, ys, rfl, hxs, -⟩ := Spells.node_cons_iff.mp hvs
        have hx := hstart id' (by simp) xs hxs
        cases xs with
        | nil => cases hx
        | cons z xs =>
          rw [List.append_assoc, List.cons_append, Parser.headKind_cons] at he
          rw [Parser.headKind_cons, he] at hx
          cases hx
    have hopen : closed b p = false := by
      have hbrace : headKind us ≠ .rightBrace := by
        intro he
        rw [he] at hstartu
        cases hstartu
      simp [closed, hp, Parser.headKind_append hne, hbrace, hne]
    obtain ⟨id', q, hx, hcons, hshape⟩ := hitem id (by simp) us _ p hus (by omega) hp helse
    have hlt : vs.length < turns := by omega
    obtain ⟨ids', q', hx', hcons', hshape'⟩ := itemsTo_rebuilds
      (fun k hk => hitem k (List.mem_cons_of_mem _ hk))
      (fun k hk => hstart k (List.mem_cons_of_mem _ hk)) hvs (by omega) hlt
      (hcons.tokens_eq hp) hend
    exact ⟨id' :: ids', q', itemsTo_of_ok hopen hx hx', hcons.trans hcons',
      (hshape.mono (.refl _) hcons'.tree).append hshape'⟩

/-! ## 3. Simple statements -/

/-- What it is to be read again as a statement. -/
def RereadsStmt (t : SyntaxTree) (d : Bool) (id : NodeId) : Prop :=
  ∀ (ts rest : List Token) (depth : Nat) (p : Parser), Spells t Anywhere [.node id] ts →
    ts.length < depth → p.tokens = ts ++ rest → (d = true → headKind rest ≠ .elseWord) →
    Rebuilds t id (statementTo depth) p ts

/-- The first token decides what statement is read. -/
theorem statementWith_of_headKind (stmt : Parse NodeId) {k : TokenKind}
    (hk : headKind p.tokens = k) :
    statementWith stmt p = (match k with
      | .leftBrace => blockWith stmt
      | .ifWord => ifWith stmt
      | .whileWord => whileWith stmt
      | .doWord => doWith stmt
      | .returnWord => returnStmt
      | .yieldWord => yieldStmt
      | .breakWord => jumpStmt .breakStmt
      | .continueWord => jumpStmt .continueStmt
      | .semicolon => emptyStmt
      | _ => do if ← isVarDecl then localDecl else exprStmt) p := by
  rw [statementWith, bind_of_ok (peek_apply p), Parser.kind_peek]
  cases hk
  exact rfl

/-- Where an expression can start, there is a declaration or an expression statement. -/
theorem statementWith_of_startsExpr {stmt : Parse NodeId}
    (h : (headKind p.tokens).startsExpr = true) :
    statementWith stmt p = (if TypeScan.isVarDecl p.tokens then localDecl else exprStmt) p := by
  rw [statementWith_of_headKind stmt rfl]
  cases hk : headKind p.tokens <;> rw [hk] at h <;> first
    | exact bind_of_ok (isVarDecl_apply p)
    | cases h

/-- A statement is read again if the parser of its form reads it. -/
theorem rereadsStmt_of {d : Bool} (h : ∀ (ts rest : List Token) (depth : Nat) (p : Parser),
    Spells t Anywhere [.node id] ts → ts.length ≤ depth → p.tokens = ts ++ rest →
      (d = true → headKind rest ≠ .elseWord) →
      Rebuilds t id (statementWith (statementTo depth)) p ts) : RereadsStmt t d id := by
  intro ts rest depth p hs hd hp hr
  obtain ⟨depth, rfl⟩ := Nat.exists_eq_succ_of_ne_zero (Nat.ne_zero_of_lt hd)
  exact h ts rest depth p hs (Nat.le_of_lt_succ hd) hp hr

theorem rereads_exprStmt {e : NodeId} {l r : Nat} (hc : t.construct? id = some (.exprStmt e))
    (he : Fits t (.expr l r) e) (hund : Undeclared TypeScan.isVarDecl t e) :
    RereadsStmt t false id := by
  refine rereadsStmt_of fun ts rest depth p hs _ hp _ => ?_
  have hk := hs.pieces hc
  obtain ⟨us, vs, rfl, hus, hvs⟩ := Spells.node_cons_iff.mp hk
  obtain ⟨a, ws, rfl, ha, hws⟩ := Spells.sign_iff.mp hvs
  obtain rfl := Spells.nil_iff.mp hws
  rw [List.append_assoc, List.singleton_append] at hp
  have hstart := he.startsExpr rfl hus
  have hne : us ≠ [] := by
    rintro rfl
    cases hstart
  have hdecl : TypeScan.isVarDecl p.tokens = false := by
    rw [hp]
    exact hund.of_spells TypeScan.isVarDecl_congr he hus ha
  obtain ⟨e', p₁, hx₁, h₁, hshape⟩ := he.rebuilds_expr hus hp (by rw [Parser.headKind_cons, ha]; rfl)
  obtain ⟨p₂, hx₂, h₂, -⟩ := expect_consumed (h₁.tokens_eq hp) ha
  refine (h₁.trans h₂).rebuilds hc (d := .exprStmt e') rfl (hshape.mono (.refl _) h₂.tree)
    ⟨p.peek.span.merge p₂.lastSpan, ?_⟩
  rw [statementWith_of_startsExpr (by rwa [hp, Parser.headKind_append hne]), hdecl,
    if_neg (by simp), exprStmt, bind_of_ok (peek_apply p), bind_of_ok hx₁, bind_of_ok hx₂,
    bind_of_ok (spanFrom_apply _ _)]

/-- A name with an optional initializer: the name is the first token, and after it the initializer is
read again. -/
theorem initializer_consumed {n : Ident} {init : Option NodeId}
    (hall : ∀ e ∈ init, ∃ l r, Fits t (.expr l r) e)
    (hs : Spells t Anywhere (Declarator.pieces ⟨n, init⟩) ts)
    (hr : headKind rest = .comma ∨ headKind rest = .semicolon) :
    ∃ a us, ts = a :: us ∧ a.kind = .identifier ∧ a.lexeme = n.name ∧
      (headKind (us ++ rest) = .equal ∨ headKind (us ++ rest) = headKind rest) ∧
      ∀ p : Parser, p.tokens = us ++ rest → ∃ init' q, initializer p = (.ok init', q) ∧
        Consumed p us q ∧
        init.map (fun _ => (0 : NodeId)) = init'.map (fun _ => (0 : NodeId)) ∧
        SameShape t q.tree init.toList init'.toList := by
  cases init with
  | none =>
    obtain ⟨a, us, rfl, ⟨ha, hn⟩, hus⟩ := Spells.name_iff.mp hs
    obtain rfl := Spells.nil_iff.mp hus
    refine ⟨a, [], rfl, ha, hn, .inr rfl, fun p hp => ⟨none, p, ?_, .refl p, rfl, .nil⟩⟩
    have heat : eat .equal p = (.ok false, p) := by
      refine eat_of_ne ?_
      rw [hp, List.nil_append]
      rcases hr with hr | hr <;> simp [hr]
    rw [initializer, bind_of_ok heat]
    rfl
  | some e =>
    obtain ⟨l, r, he⟩ := hall e rfl
    obtain ⟨a, us, rfl, ⟨ha, hn⟩, hus⟩ := Spells.name_iff.mp hs
    obtain ⟨b, vs, rfl, hb, hvs⟩ := Spells.sign_iff.mp hus
    refine ⟨a, b :: vs, rfl, ha, hn, .inl hb, fun p hp => ?_⟩
    rw [List.cons_append] at hp
    obtain ⟨e', p₁, hx₁, h₁, hshape⟩ := he.rebuilds_expr (p := p.read [b] (vs ++ rest)) hvs rfl (by
      rcases hr with hr | hr <;> rw [hr] <;> rfl)
    refine ⟨some e', p₁, ?_, (Consumed.token hp).trans h₁, rfl, hshape⟩
    rw [initializer, bind_of_ok (eat_of_eq hp hb), if_pos rfl, bind_of_ok hx₁]
    rfl

/-- A declarator without places and with the node of its initializer wiped out. -/
def blank (var : Declarator) : Declarator := ⟨var.name.unplaced, var.init.map fun _ => 0⟩

theorem declarator_consumed {var : Declarator} (hall : ∀ e ∈ var.init, ∃ l r, Fits t (.expr l r) e)
    (hs : Spells t Anywhere var.pieces ts) (hp : p.tokens = ts ++ rest)
    (hr : headKind rest = .comma ∨ headKind rest = .semicolon) :
    ∃ var' q, declarator p = (.ok var', q) ∧ Consumed p ts q ∧ blank var = blank var' ∧
      SameShape t q.tree (Piece.nodes var.pieces) (Piece.nodes var'.pieces) := by
  obtain ⟨a, us, rfl, ha, hn, -, hread⟩ := initializer_consumed (n := var.name) hall hs hr
  obtain ⟨p₁, hx₁, h₁, hp₁⟩ := ident_consumed hp ha
  obtain ⟨init', p₂, hx₂, h₂, hmap, hshape⟩ := hread p₁ hp₁
  refine ⟨⟨⟨a.lexeme, a.span⟩, init'⟩, p₂, ?_, h₁.trans h₂, ?_, ?_⟩
  · rw [declarator, bind_of_ok hx₁, bind_of_ok hx₂]
    rfl
  · simp only [blank, Ident.unplaced, hn, hmap]
  · rw [Piece.nodes_declarator, Piece.nodes_declarator]
    exact hshape

/-- The variables of a declaration are read again. -/
theorem declarators_consumed {vars : List Declarator} (hne : vars ≠ [])
    (hall : ∀ e ∈ vars.filterMap Declarator.init, ∃ l r, Fits t (.expr l r) e)
    (hs : Spells t Anywhere (Piece.separated (vars.map Declarator.pieces)) ts)
    (hp : p.tokens = ts ++ rest) (hr : headKind rest = .semicolon) :
    ∃ vars' q, separated declarator p = (.ok vars', q) ∧ Consumed p ts q ∧
      vars.map blank = vars'.map blank ∧
      SameShape t q.tree (vars.filterMap Declarator.init) (vars'.filterMap Declarator.init) := by
  have hturns : ts.length < p.tokens.length + 1 := by
    rw [hp, List.length_append]
    omega
  obtain ⟨vars', q, hx, hcons, hg, hshape⟩ := separatedTo_rebuilds (n := ts.length) Declarator.pieces
    blank (by simp) hne (fun var hvar {us rest p} hus _ hp hr => declarator_consumed (fun e he =>
      hall e (List.mem_filterMap.mpr ⟨var, hvar, he⟩)) hus hp hr) hs (Nat.le_refl _) hturns hp hr
  rw [Piece.flatMap_nodes_declarator, Piece.flatMap_nodes_declarator] at hshape
  exact ⟨vars', q, (separated_apply _ p).trans hx, hcons, hg, hshape⟩

/-- What follows the name of the first variable of a declaration. -/
theorem exists_after_name {vars : List Declarator} (hne : vars ≠ [])
    (hall : ∀ e ∈ vars.filterMap Declarator.init, ∃ l r, Fits t (.expr l r) e)
    (hs : Spells t Anywhere (Piece.separated (vars.map Declarator.pieces)) ts)
    (hr : headKind rest = .semicolon) : ∃ name after us, ts ++ rest = name :: after :: us ∧
      name.kind = .identifier ∧
      (after.kind = .equal ∨ after.kind = .comma ∨ after.kind = .semicolon) := by
  have hfirst : ∀ {var : Declarator} {us vs : List Token}, var ∈ vars →
      Spells t Anywhere var.pieces us → headKind vs = .comma ∨ headKind vs = .semicolon →
      ∃ name after ws, us ++ vs = name :: after :: ws ∧ name.kind = .identifier ∧
        (after.kind = .equal ∨ after.kind = .comma ∨ after.kind = .semicolon) := by
    intro var us vs hvar hus hvs
    obtain ⟨a, ws, rfl, ha, -, hnext, -⟩ := initializer_consumed (n := var.name) (fun e he =>
      hall e (List.mem_filterMap.mpr ⟨var, hvar, he⟩)) hus hvs
    have hkind : headKind (ws ++ vs) = .equal ∨ headKind (ws ++ vs) = .comma ∨
        headKind (ws ++ vs) = .semicolon := by
      rcases hnext with h | h
      · exact .inl h
      · rw [h]
        exact .inr hvs
    obtain ⟨b, xs, hb⟩ := exists_of_headKind_ne (show headKind (ws ++ vs) ≠ .eof by
      rcases hkind with h | h | h <;> simp [h])
    rw [hb, Parser.headKind_cons] at hkind
    exact ⟨a, b, xs, by rw [List.cons_append, hb], ha, hkind⟩
  obtain ⟨var, vars, rfl⟩ := List.exists_cons_of_ne_nil hne
  cases vars with
  | nil => exact hfirst (by simp) hs (.inr hr)
  | cons var' vars =>
    obtain ⟨us, vs, rfl, hus, hvs⟩ := Spells.append_iff.mp hs
    obtain ⟨c, ws, rfl, hc, -⟩ := Spells.sign_iff.mp hvs
    rw [List.append_assoc]
    exact hfirst (by simp) hus (.inl hc)

theorem rereads_localDecl {w : WrittenType} {vars : List Declarator}
    (hc : t.construct? id = some (.localDecl w vars)) (hne : vars ≠ [])
    (hall : ∀ e ∈ vars.filterMap Declarator.init, ∃ l r, Fits t (.expr l r) e) :
    RereadsStmt t false id := by
  refine rereadsStmt_of fun ts rest depth p hs _ hp _ => ?_
  have hk := hs.pieces hc
  obtain ⟨us, vs, rfl, hus, hvs⟩ := Spells.type_iff.mp hk
  obtain ⟨xs, ys, rfl, hxs, hys⟩ := Spells.append_iff.mp hvs
  obtain ⟨a, ws, rfl, ha, hws⟩ := Spells.sign_iff.mp hys
  obtain rfl := Spells.nil_iff.mp hws
  simp only [List.append_assoc, List.singleton_append] at hp
  obtain ⟨name, after, zs, hzs, hname, hafter⟩ := exists_after_name hne hall hxs
    (show headKind (a :: rest) = .semicolon from ha)
  have hstart : headKind p.tokens = .identifier := by
    rw [hp]
    exact hus.headKind_eq _
  have hdecl : TypeScan.isVarDecl p.tokens = true := by
    rw [hp, hzs, TypeScan.isVarDecl_eq_sees, TypeScan.sees_of_spells hus hname]
    rcases hafter with h | h | h <;> simp [h]
  have hident : headKind (xs ++ a :: rest) = .identifier := by
    rw [hzs]
    exact hname
  obtain ⟨w', p₁, hx₁, h₁, hp₁, hw⟩ := type_consumed hus hp (by simp [hident]) (by simp [hident])
  obtain ⟨vars', p₂, hx₂, h₂, hg, hshape⟩ := declarators_consumed hne hall hxs hp₁ ha
  obtain ⟨p₃, hx₃, h₃, -⟩ := expect_consumed (h₂.tokens_eq hp₁) ha
  refine (h₁.trans (h₂.trans h₃)).rebuilds hc (d := .localDecl w' vars') ?_
    (hshape.mono (.refl _) h₃.tree) ⟨w'.span.merge p₃.lastSpan, ?_⟩
  · change Construct.localDecl w.unplaced (vars.map blank) = .localDecl w'.unplaced (vars'.map blank)
    rw [hw, hg]
  · rw [statementWith_of_startsExpr (by rw [hstart]; rfl), hdecl, if_pos rfl, localDecl,
      bind_of_ok hx₁, bind_of_ok hx₂, bind_of_ok hx₃, bind_of_ok (spanFrom_apply _ _)]

theorem rereads_returnStmt {value : Option NodeId} (hc : t.construct? id = some (.returnStmt value))
    (hall : ∀ e ∈ value, ∃ l r, Fits t (.expr l r) e) : RereadsStmt t false id := by
  refine rereadsStmt_of fun ts rest depth p hs _ hp _ => ?_
  have hk := hs.pieces hc
  cases value with
  | none =>
    obtain ⟨a, us, rfl, ha, hus⟩ := Spells.sign_iff.mp hk
    obtain ⟨b, vs, rfl, hb, hvs⟩ := Spells.sign_iff.mp hus
    obtain rfl := Spells.nil_iff.mp hvs
    simp only [List.cons_append, List.nil_append] at hp
    have hhead : headKind p.tokens = .returnWord := by rw [hp]; exact ha
    obtain ⟨p₁, hx₁, h₁, hp₁⟩ := expect_consumed hp ha
    obtain ⟨p₂, hx₂, h₂, -⟩ := expect_consumed hp₁ hb
    refine (h₁.trans h₂).rebuilds hc (d := .returnStmt none) rfl .nil
      ⟨a.span.merge p₂.lastSpan, ?_⟩
    have hcheck : headKind p₁.tokens = .semicolon := by rw [hp₁]; exact hb
    rw [statementWith_of_headKind _ hhead]
    change returnStmt p = _
    rw [returnStmt, bind_of_ok hx₁, bind_of_ok (check_apply _ p₁), if_pos (by simp [hcheck]),
      bind_of_ok (pure_apply _ _)]
    exact (bind_of_ok hx₂).trans (bind_of_ok (spanFrom_apply _ _))
  | some e =>
    obtain ⟨l, r, he⟩ := hall e rfl
    obtain ⟨a, us, rfl, ha, hus⟩ := Spells.sign_iff.mp hk
    obtain ⟨es, vs, rfl, hes, hvs⟩ := Spells.node_cons_iff.mp hus
    obtain ⟨b, ws, rfl, hb, hws⟩ := Spells.sign_iff.mp hvs
    obtain rfl := Spells.nil_iff.mp hws
    simp only [List.cons_append, List.append_assoc, List.nil_append] at hp
    have hhead : headKind p.tokens = .returnWord := by rw [hp]; exact ha
    obtain ⟨p₁, hx₁, h₁, hp₁⟩ := expect_consumed hp ha
    obtain ⟨e', p₂, hx₂, h₂, hshape⟩ := he.rebuilds_expr hes hp₁
      (by rw [Parser.headKind_cons, hb]; rfl)
    obtain ⟨p₃, hx₃, h₃, -⟩ := expect_consumed (h₂.tokens_eq hp₁) hb
    refine (h₁.trans (h₂.trans h₃)).rebuilds hc (d := .returnStmt (some e')) rfl
      (hshape.mono (.refl _) h₃.tree) ⟨a.span.merge p₃.lastSpan, ?_⟩
    have hcheck : headKind p₁.tokens ≠ .semicolon := by
      have hstart := he.startsExpr rfl hes
      intro hn
      rw [hp₁, Parser.headKind_append (by rintro rfl; cases hstart)] at hn
      rw [hn] at hstart
      cases hstart
    rw [statementWith_of_headKind _ hhead]
    change returnStmt p = _
    rw [returnStmt, bind_of_ok hx₁, bind_of_ok (check_apply _ p₁), if_neg (by simp [hcheck]),
      bind_of_ok hx₂, bind_of_ok (pure_apply _ _)]
    exact (bind_of_ok hx₃).trans (bind_of_ok (spanFrom_apply _ _))

theorem rereads_yieldStmt {e : NodeId} {l r : Nat} (hc : t.construct? id = some (.yieldStmt e))
    (he : Fits t (.expr l r) e) : RereadsStmt t false id := by
  refine rereadsStmt_of fun ts rest depth p hs _ hp _ => ?_
  have hk := hs.pieces hc
  obtain ⟨a, us, rfl, ha, hus⟩ := Spells.sign_iff.mp hk
  obtain ⟨b, vs, rfl, hb, hvs⟩ := Spells.sign_iff.mp hus
  obtain ⟨es, ws, rfl, hes, hws⟩ := Spells.node_cons_iff.mp hvs
  obtain ⟨d, xs, rfl, hd, hxs⟩ := Spells.sign_iff.mp hws
  obtain rfl := Spells.nil_iff.mp hxs
  simp only [List.cons_append, List.append_assoc, List.nil_append] at hp
  obtain ⟨p₁, hx₁, h₁, hp₁⟩ := expect_consumed hp ha
  obtain ⟨p₂, hx₂, h₂, hp₂⟩ := expect_consumed hp₁ hb
  have hhead : headKind p.tokens = .yieldWord := by rw [hp]; exact ha
  obtain ⟨e', p₃, hx₃, h₃, hshape⟩ := he.rebuilds_expr hes hp₂ (by rw [Parser.headKind_cons, hd]; rfl)
  obtain ⟨p₄, hx₄, h₄, -⟩ := expect_consumed (h₃.tokens_eq hp₂) hd
  refine (h₁.trans (h₂.trans (h₃.trans h₄))).rebuilds hc (d := .yieldStmt e') rfl
    (hshape.mono (.refl _) h₄.tree) ⟨a.span.merge p₄.lastSpan, ?_⟩
  rw [statementWith_of_headKind _ hhead]
  change yieldStmt p = _
  rw [yieldStmt, bind_of_ok hx₁, bind_of_ok hx₂, bind_of_ok hx₃, bind_of_ok hx₄,
    bind_of_ok (spanFrom_apply _ _)]

/-- A statement that is one word and a semicolon. -/
theorem jumpStmt_rebuilds {c : Construct} {k : TokenKind} (hc : t.construct? id = some c)
    (hpieces : c.pieces = [.sign k, .sign .semicolon]) (hs : Spells t Anywhere [.node id] ts)
    (hp : p.tokens = ts ++ rest) :
    Rebuilds t id (jumpStmt c) p ts ∧ headKind p.tokens = k := by
  have hk := hs.pieces hc
  have hnodes : c.children = [] := by
    rw [← c.nodes_pieces, hpieces]
    rfl
  rw [hpieces] at hk
  obtain ⟨a, us, rfl, ha, hus⟩ := Spells.sign_iff.mp hk
  obtain ⟨b, vs, rfl, hb, hvs⟩ := Spells.sign_iff.mp hus
  obtain rfl := Spells.nil_iff.mp hvs
  simp only [List.cons_append, List.nil_append] at hp
  obtain ⟨p₁, hx₁, h₁, hp₁⟩ := advance_consumed hp
  obtain ⟨p₂, hx₂, h₂, -⟩ := expect_consumed hp₁ hb
  refine ⟨(h₁.trans h₂).rebuilds hc (d := c) rfl (by rw [hnodes]; exact .nil)
    ⟨a.span.merge p₂.lastSpan, ?_⟩, by rw [hp]; exact ha⟩
  rw [jumpStmt, bind_of_ok hx₁, bind_of_ok hx₂, bind_of_ok (spanFrom_apply _ _)]

theorem rereads_breakStmt (hc : t.construct? id = some .breakStmt) : RereadsStmt t false id := by
  refine rereadsStmt_of fun ts rest depth p hs _ hp _ => ?_
  obtain ⟨h, hk⟩ := jumpStmt_rebuilds hc rfl hs hp
  exact h.congr (statementWith_of_headKind _ hk)

theorem rereads_continueStmt (hc : t.construct? id = some .continueStmt) :
    RereadsStmt t false id := by
  refine rereadsStmt_of fun ts rest depth p hs _ hp _ => ?_
  obtain ⟨h, hk⟩ := jumpStmt_rebuilds hc rfl hs hp
  exact h.congr (statementWith_of_headKind _ hk)

theorem rereads_emptyStmt (hc : t.construct? id = some .emptyStmt) : RereadsStmt t false id := by
  refine rereadsStmt_of fun ts rest depth p hs _ hp _ => ?_
  have hk := hs.pieces hc
  obtain ⟨a, us, rfl, ha, hus⟩ := Spells.sign_iff.mp hk
  obtain rfl := Spells.nil_iff.mp hus
  simp only [List.cons_append, List.nil_append] at hp
  have hhead : headKind p.tokens = .semicolon := by rw [hp]; exact ha
  refine (Consumed.token hp).rebuilds hc (d := .emptyStmt) rfl .nil ⟨a.span, ?_⟩
  rw [statementWith_of_headKind _ hhead]
  change emptyStmt p = _
  rw [emptyStmt, bind_of_ok (advance_of_eq_cons hp)]

/-! ## 4. Statements with statements in them -/

/-- A block is read again if its statements are. -/
theorem blockWith_rebuilds {x : Parse NodeId} {stmts : List NodeId}
    (hc : t.construct? id = some (.block stmts)) (hs : Spells t Anywhere [.node id] ts)
    (hp : p.tokens = ts ++ rest) (hstart : ∀ s ∈ stmts, ∃ d, Fits t (.stmt d) s)
    (hall : ∀ s ∈ stmts, ∀ us rest p, Spells t Anywhere [.node s] us → us.length < ts.length →
      p.tokens = us ++ rest → headKind rest ≠ .elseWord → Rebuilds t s x p us) :
    Rebuilds t id (blockWith x) p ts ∧ headKind p.tokens = .leftBrace := by
  have hk := hs.pieces hc
  obtain ⟨a, us, rfl, ha, hus⟩ := Spells.sign_iff.mp hk
  obtain ⟨vs, ws, rfl, hvs, hws⟩ := Spells.append_iff.mp hus
  obtain ⟨b, xs, rfl, hb, hxs⟩ := Spells.sign_iff.mp hws
  obtain rfl := Spells.nil_iff.mp hxs
  simp only [List.cons_append, List.append_assoc, List.nil_append] at hp
  obtain ⟨p₁, hx₁, h₁, hp₁⟩ := expect_consumed hp ha
  have hturns : vs.length < p₁.tokens.length + 1 := by
    rw [hp₁, List.length_append]
    omega
  obtain ⟨stmts', p₂, hx₂, h₂, hshape⟩ := itemsTo_rebuilds (n := vs.length) (x := x)
    (fun s hs us rest p hus hle => hall s hs us rest p hus (by simp; omega))
    (fun s hs us hus => by
      obtain ⟨d, hf⟩ := hstart s hs
      exact TokenKind.startsItem_of_startsStmt (hf.startsStmt hus))
    hvs (Nat.le_refl _) hturns hp₁ (.inr ⟨rfl, hb⟩)
  obtain ⟨p₃, hx₃, h₃, -⟩ := expect_consumed (h₂.tokens_eq hp₁) hb
  refine ⟨(h₁.trans (h₂.trans h₃)).rebuilds hc (d := .block stmts') ?_
    (hshape.mono (.refl _) h₃.tree) ⟨a.span.merge p₃.lastSpan, ?_⟩, by rw [hp]; exact ha⟩
  · simp only [Construct.outline, hshape.map_zero_eq]
  · have hitems : itemsUntilBrace x p₁ = (.ok stmts', p₂) :=
      (bind_of_ok (limit_apply p₁)).trans hx₂
    rw [blockWith, bind_of_ok hx₁, bind_of_ok hitems, bind_of_ok hx₃,
      bind_of_ok (spanFrom_apply _ _)]

theorem rereads_block {stmts : List NodeId} (hc : t.construct? id = some (.block stmts))
    (hall : ∀ s ∈ stmts, ∃ d, Fits t (.stmt d) s ∧ RereadsStmt t d s) : RereadsStmt t false id := by
  refine rereadsStmt_of fun ts rest depth p hs hd hp _ => ?_
  obtain ⟨h, hk⟩ := blockWith_rebuilds (x := statementTo depth) hc hs hp (fun s hs => by
      obtain ⟨d, hf, -⟩ := hall s hs
      exact ⟨d, hf⟩) (fun s hs us rest p hus hlt hp helse => by
    obtain ⟨d, -, hr⟩ := hall s hs
    exact hr us rest depth p hus (by omega) hp fun _ => helse)
  exact h.congr (statementWith_of_headKind _ hk)

/-- A condition between parentheses is read again. -/
theorem condition_rebuilds {e : NodeId} {l r : Nat} {a b : Token} (he : Fits t (.expr l r) e)
    (hs : Spells t Anywhere [.node e] ts) (ha : a.kind = .leftParen) (hb : b.kind = .rightParen)
    (hp : p.tokens = a :: (ts ++ b :: rest)) :
    Rebuilds t e condition p (a :: (ts ++ [b])) := by
  obtain ⟨p₁, hx₁, h₁, hp₁⟩ := expect_consumed hp ha
  obtain ⟨e', p₂, hx₂, h₂, hshape⟩ := he.rebuilds_expr hs hp₁ (by rw [Parser.headKind_cons, hb]; rfl)
  obtain ⟨p₃, hx₃, h₃, -⟩ := expect_consumed (h₂.tokens_eq hp₁) hb
  refine ⟨e', p₃, ?_, h₁.trans (h₂.trans h₃), hshape.mono (.refl _) h₃.tree⟩
  rw [condition, bind_of_ok hx₁, bind_of_ok hx₂]
  exact bind_of_ok hx₃

/-- A keyword and the condition after it are read again, up to the pieces that follow. -/
theorem condition_consumed {k : TokenKind} {e : NodeId} {l r : Nat} {ps : List Piece}
    (he : Fits t (.expr l r) e)
    (hs : Spells t Anywhere (.sign k :: .sign .leftParen :: .node e :: .sign .rightParen :: ps) ts)
    (hp : p.tokens = ts ++ rest) : headKind p.tokens = k ∧ ∃ front xs a e' p₁ p₂,
      ts = front ++ xs ∧ xs.length < ts.length ∧ Spells t Anywhere ps xs ∧
      expect k p = (.ok a, p₁) ∧ condition p₁ = (.ok e', p₂) ∧ Consumed p front p₂ ∧
      p₂.tokens = xs ++ rest ∧ SameShape t p₂.tree [e] [e'] := by
  obtain ⟨a, us, rfl, ha, hus⟩ := Spells.sign_iff.mp hs
  obtain ⟨opening, vs, rfl, hopen, hvs⟩ := Spells.sign_iff.mp hus
  obtain ⟨es, ws, rfl, hes, hws⟩ := Spells.node_cons_iff.mp hvs
  obtain ⟨closing, xs, rfl, hclose, hxs⟩ := Spells.sign_iff.mp hws
  simp only [List.cons_append, List.append_assoc] at hp
  obtain ⟨p₁, hx₁, h₁, hp₁⟩ := expect_consumed hp ha
  obtain ⟨e', p₂, hx₂, h₂, hshape⟩ := condition_rebuilds he hes hopen hclose hp₁
  refine ⟨by rw [hp]; exact ha, a :: opening :: (es ++ [closing]), xs, a, e', p₁, p₂, by simp, ?_, hxs,
    hx₁, hx₂, h₁.trans h₂, h₂.tokens_eq (by rw [hp₁]; simp), hshape⟩
  simp only [List.length_cons, List.length_append]
  omega

theorem rereads_whileStmt {e s : NodeId} {l r : Nat} {d : Bool}
    (hc : t.construct? id = some (.whileStmt e s)) (he : Fits t (.expr l r) e)
    (hstmt : RereadsStmt t d s) : RereadsStmt t d id := by
  refine rereadsStmt_of fun ts rest depth p hs hd hp helse => ?_
  obtain ⟨hhead, front, xs, a, e', p₁, p₂, rfl, hlen, hxs, hx₁, hx₂, h₂, hp₂, hshape⟩ :=
    condition_consumed he (hs.pieces hc) hp
  obtain ⟨s', p₃, hx₃, h₃, hshape'⟩ :=
    hstmt xs rest depth p₂ hxs (Nat.lt_of_lt_of_le hlen hd) hp₂ helse
  refine (h₂.trans h₃).rebuilds hc (d := .whileStmt e' s') rfl
    ((hshape.mono (.refl _) h₃.tree).append hshape') ⟨a.span.merge p₃.lastSpan, ?_⟩
  rw [statementWith_of_headKind _ hhead]
  change whileWith (statementTo depth) p = _
  rw [whileWith, bind_of_ok hx₁, bind_of_ok hx₂, bind_of_ok hx₃, bind_of_ok (spanFrom_apply _ _)]

theorem rereads_doStmt {e s : NodeId} {l r : Nat} {d : Bool}
    (hc : t.construct? id = some (.doStmt s e)) (hstmt : RereadsStmt t d s)
    (he : Fits t (.expr l r) e) : RereadsStmt t false id := by
  refine rereadsStmt_of fun ts rest depth p hs hd hp _ => ?_
  have hk := hs.pieces hc
  obtain ⟨a, us, rfl, ha, hus⟩ := Spells.sign_iff.mp hk
  obtain ⟨ss, vs, rfl, hss, hvs⟩ := Spells.node_cons_iff.mp hus
  obtain ⟨b, ws, rfl, hb, hws⟩ := Spells.sign_iff.mp hvs
  obtain ⟨opening, xs, rfl, hopen, hxs⟩ := Spells.sign_iff.mp hws
  obtain ⟨es, ys, rfl, hes, hys⟩ := Spells.node_cons_iff.mp hxs
  obtain ⟨closing, zs, rfl, hclose, hzs⟩ := Spells.sign_iff.mp hys
  obtain ⟨semi, ns, rfl, hsemi, hns⟩ := Spells.sign_iff.mp hzs
  obtain rfl := Spells.nil_iff.mp hns
  have hlt : ss.length < depth := by simp at hd; omega
  simp only [List.cons_append, List.append_assoc, List.nil_append] at hp
  have hhead : headKind p.tokens = .doWord := by rw [hp]; exact ha
  obtain ⟨p₁, hx₁, h₁, hp₁⟩ := expect_consumed hp ha
  obtain ⟨s', p₂, hx₂, h₂, hshape⟩ := hstmt ss _ depth p₁ hss hlt hp₁ fun _ => by simp [hb]
  obtain ⟨p₃, hx₃, h₃, hp₃⟩ := expect_consumed (h₂.tokens_eq hp₁) hb
  obtain ⟨e', p₄, hx₄, h₄, hshape'⟩ := condition_rebuilds he hes hopen hclose hp₃
  have hp₄ : p₄.tokens = semi :: rest := h₄.tokens_eq (by rw [hp₃]; simp)
  obtain ⟨p₅, hx₅, h₅, -⟩ := expect_consumed hp₄ hsemi
  have hcons := h₁.trans (h₂.trans (h₃.trans (h₄.trans h₅)))
  simp only [List.cons_append, List.append_assoc, List.nil_append] at hcons
  have hlater := h₃.trans (h₄.trans h₅)
  refine hcons.rebuilds hc (d := .doStmt s' e') rfl
    ((hshape.mono (.refl _) hlater.tree).append (hshape'.mono (.refl _) h₅.tree))
    ⟨a.span.merge p₅.lastSpan, ?_⟩
  rw [statementWith_of_headKind _ hhead]
  change doWith (statementTo depth) p = _
  rw [doWith, bind_of_ok hx₁, bind_of_ok hx₂, bind_of_ok hx₃, bind_of_ok hx₄, bind_of_ok hx₅,
    bind_of_ok (spanFrom_apply _ _)]

theorem rereads_ifThen {e s : NodeId} {l r : Nat} {d : Bool}
    (hc : t.construct? id = some (.ifStmt e s none)) (he : Fits t (.expr l r) e)
    (hstmt : RereadsStmt t d s) : RereadsStmt t true id := by
  refine rereadsStmt_of fun ts rest depth p hs hd hp helse => ?_
  obtain ⟨hhead, front, xs, a, e', p₁, p₂, rfl, hlen, hxs, hx₁, hx₂, h₂, hp₂, hshape⟩ :=
    condition_consumed he (hs.pieces hc) hp
  obtain ⟨s', p₃, hx₃, h₃, hshape'⟩ :=
    hstmt xs rest depth p₂ hxs (Nat.lt_of_lt_of_le hlen hd) hp₂ fun _ => helse rfl
  have heat : eat .elseWord p₃ = (.ok false, p₃) := by
    refine eat_of_ne ?_
    rw [h₃.tokens_eq hp₂]
    exact helse rfl
  refine (h₂.trans h₃).rebuilds hc (d := .ifStmt e' s' none) rfl
    ((hshape.mono (.refl _) h₃.tree).append hshape') ⟨a.span.merge p₃.lastSpan, ?_⟩
  rw [statementWith_of_headKind _ hhead]
  change ifWith (statementTo depth) p = _
  rw [ifWith, bind_of_ok hx₁, bind_of_ok hx₂, bind_of_ok hx₃, bind_of_ok heat, if_neg (by simp)]
  rfl

theorem rereads_ifElse {e s s' : NodeId} {l r : Nat} {d : Bool}
    (hc : t.construct? id = some (.ifStmt e s (some s'))) (he : Fits t (.expr l r) e)
    (hstmt : RereadsStmt t false s) (hstmt' : RereadsStmt t d s') : RereadsStmt t d id := by
  refine rereadsStmt_of fun ts rest depth p hs hd hp helse => ?_
  obtain ⟨hhead, front, xs, a, e', p₁, p₂, rfl, hlen, hxs, hx₁, hx₂, h₂, hp₂, hshape⟩ :=
    condition_consumed he (hs.pieces hc) hp
  obtain ⟨ys, zs, rfl, hys, hzs⟩ := Spells.node_cons_iff.mp hxs
  obtain ⟨b, ss, rfl, hb, hss⟩ := Spells.sign_iff.mp hzs
  have hlt : ys.length < depth ∧ ss.length < depth := by simp at hd hlen; omega
  rw [List.append_assoc, List.cons_append] at hp₂
  obtain ⟨i, p₃, hx₃, h₃, hshape₃⟩ := hstmt ys _ depth p₂ hys hlt.1 hp₂ (by simp)
  have hp₃ := h₃.tokens_eq hp₂
  have h₄ := Consumed.token hp₃
  obtain ⟨j, p₄, hx₄, h₅, hshape₅⟩ := hstmt' ss rest depth (p₃.read [b] (ss ++ rest)) hss hlt.2 rfl
    helse
  have hlater := h₄.trans h₅
  refine (h₂.trans (h₃.trans hlater)).rebuilds hc (d := .ifStmt e' i (some j)) rfl
    ((hshape.mono (.refl _) (h₃.trans hlater).tree).append
      ((hshape₃.mono (.refl _) hlater.tree).append hshape₅)) ⟨a.span.merge p₄.lastSpan, ?_⟩
  rw [statementWith_of_headKind _ hhead]
  change ifWith (statementTo depth) p = _
  rw [ifWith, bind_of_ok hx₁, bind_of_ok hx₂, bind_of_ok hx₃, bind_of_ok (eat_of_eq hp₃ hb),
    if_pos rfl, bind_of_ok hx₄]
  rfl

/-- **Every statement that fits its role is read again.** -/
theorem rereadsStmt_of_fits {role : Role} (h : Fits t role id) :
    ∀ {d : Bool}, role = .stmt d → RereadsStmt t d id := by
  induction h with
  | @node role id c ρ hc ha hk ih =>
    rintro d rfl
    have hexpr : ∀ {e : NodeId} {l r : Nat}, e ∈ c.children → ρ e = .expr l r →
        Fits t (.expr l r) e := fun he hρ => hρ ▸ hk _ he
    cases ha with
    | exprStmt he hund => exact rereads_exprStmt hc (hexpr (by simp [Construct.children]) he) hund
    | localDecl hne hall =>
      refine rereads_localDecl hc hne fun e he => ?_
      obtain ⟨l, r, hρ⟩ := hall e he
      exact ⟨l, r, hexpr he hρ⟩
    | returnStmt hall =>
      refine rereads_returnStmt hc fun e he => ?_
      obtain ⟨l, r, hρ⟩ := hall e he
      exact ⟨l, r, hexpr (Option.mem_toList.mpr he) hρ⟩
    | yieldStmt he => exact rereads_yieldStmt hc (hexpr (by simp [Construct.children]) he)
    | breakStmt => exact rereads_breakStmt hc
    | continueStmt => exact rereads_continueStmt hc
    | emptyStmt => exact rereads_emptyStmt hc
    | block hall =>
      refine rereads_block hc fun s hs => ?_
      obtain ⟨d, hρ⟩ := hall s hs
      exact ⟨d, hρ ▸ hk s hs, ih s hs hρ⟩
    | ifThen he hs =>
      exact rereads_ifThen hc (hexpr (by simp [Construct.children]) he)
        (ih _ (by simp [Construct.children]) hs)
    | ifElse he hs hs' =>
      exact rereads_ifElse hc (hexpr (by simp [Construct.children]) he)
        (ih _ (by simp [Construct.children]) hs) (ih _ (by simp [Construct.children]) hs')
    | whileStmt he hs =>
      exact rereads_whileStmt hc (hexpr (by simp [Construct.children]) he)
        (ih _ (by simp [Construct.children]) hs)
    | doStmt hs he =>
      exact rereads_doStmt hc (ih _ (by simp [Construct.children]) hs)
        (hexpr (by simp [Construct.children]) he)

/-- A statement is read again, before anything but an `else` if it could take one. -/
theorem statement_rebuilds {d : Bool} (h : Fits t (.stmt d) id)
    (hs : Spells t Anywhere [.node id] ts) (hp : p.tokens = ts ++ rest)
    (helse : d = true → headKind rest ≠ .elseWord) : Rebuilds t id statement p ts := by
  have hlt : ts.length < p.tokens.length + 1 := by
    rw [hp, List.length_append]
    omega
  exact (rereadsStmt_of_fits h rfl ts rest _ p hs hlt hp helse).congr (statement_apply p)

/-! ## 5. Declarations -/

/-- The block of a function is read again. -/
theorem block_rebuilds (h : Fits t .body id) (hs : Spells t Anywhere [.node id] ts)
    (hp : p.tokens = ts ++ rest) :
    Rebuilds t id block p ts ∧ headKind p.tokens = .leftBrace := by
  cases h with
  | @node _ _ c ρ hc ha hk =>
    cases ha with
    | body hall =>
      have hblock : block = blockWith statement := rfl
      rw [hblock]
      refine blockWith_rebuilds hc hs hp (fun s hs => ?_) fun s hs us rest p hus _ hp helse => ?_
      · obtain ⟨d, hρ⟩ := hall s hs
        exact ⟨d, hρ ▸ hk s hs⟩
      · obtain ⟨d, hρ⟩ := hall s hs
        exact statement_rebuilds (hρ ▸ hk s hs) hus hp fun _ => helse

theorem param_consumed {a : Param} (hs : Spells t Anywhere a.pieces ts)
    (hp : p.tokens = ts ++ rest) :
    ∃ a' q, param p = (.ok a', q) ∧ Consumed p ts q ∧ a.unplaced = a'.unplaced ∧
      SameShape t q.tree (Piece.nodes a.pieces) (Piece.nodes a'.pieces) := by
  obtain ⟨us, vs, rfl, hus, hvs⟩ := Spells.type_iff.mp hs
  obtain ⟨b, ws, rfl, ⟨hb, hn⟩, hws⟩ := Spells.name_iff.mp hvs
  obtain rfl := Spells.nil_iff.mp hws
  rw [List.append_assoc, List.singleton_append] at hp
  obtain ⟨w', p₁, hx₁, h₁, hp₁, hw⟩ := type_consumed hus hp (by simp [hb]) (by simp [hb])
  obtain ⟨p₂, hx₂, h₂, -⟩ := ident_consumed hp₁ hb
  refine ⟨⟨w', ⟨b.lexeme, b.span⟩⟩, p₂, ?_, h₁.trans h₂, ?_, .nil⟩
  · rw [param, bind_of_ok hx₁, bind_of_ok hx₂]
    rfl
  · simp only [Param.unplaced, hw, Ident.unplaced, hn]

/-- The parameters of a function, up to the closing parenthesis, are read again. -/
theorem params_consumed {params : List Param}
    (hs : Spells t Anywhere (Piece.separated (params.map Param.pieces)) ts)
    (hp : p.tokens = ts ++ rest) (hr : headKind rest = .rightParen) :
    ∃ params' q, ((headKind p.tokens = .rightParen ∧ params' = [] ∧ q = p) ∨
        (headKind p.tokens ≠ .rightParen ∧ separated param p = (.ok params', q))) ∧
      Consumed p ts q ∧ params.map Param.unplaced = params'.map Param.unplaced := by
  cases params with
  | nil =>
    obtain rfl := Spells.nil_iff.mp hs
    have hcheck : headKind p.tokens = .rightParen := by
      rw [hp]
      exact hr
    exact ⟨[], p, .inl ⟨hcheck, rfl, rfl⟩, .refl p, rfl⟩
  | cons a params =>
    have hturns : ts.length < p.tokens.length + 1 := by
      rw [hp, List.length_append]
      omega
    obtain ⟨params', q, hx, hcons, hg, -⟩ := separatedTo_rebuilds (n := ts.length) Param.pieces
      Param.unplaced (by simp) (List.cons_ne_nil a params)
      (fun _ _ {us rest p} hus _ hp _ => param_consumed hus hp) hs (Nat.le_refl _) hturns hp hr
    have hcheck : headKind p.tokens ≠ .rightParen := by
      rw [hp]
      cases params with
      | nil =>
        obtain ⟨us, vs, rfl, hus, -⟩ := Spells.type_iff.mp hs
        rw [List.append_assoc, hus.headKind_eq]
        simp
      | cons b params =>
        obtain ⟨us, vs, rfl, hus, -⟩ := Spells.type_iff.mp hs
        rw [List.append_assoc, hus.headKind_eq]
        simp
    exact ⟨params', q, .inr ⟨hcheck, (separated_apply _ p).trans hx⟩, hcons, hg⟩

/-- A function is read again, and what stands ahead looks like one. -/
theorem function_rebuilds {w : WrittenType} {n : Ident} {params : List Param} {s : NodeId}
    (hc : t.construct? id = some (.function w n params s)) (hbody : Fits t .body s)
    (hs : Spells t Anywhere [.node id] ts) (hp : p.tokens = ts ++ rest) :
    Rebuilds t id function p ts ∧ TypeScan.isFunctionDecl p.tokens = true := by
  have hk := hs.pieces hc
  obtain ⟨us, vs, rfl, hus, hvs⟩ := Spells.type_iff.mp hk
  obtain ⟨b, ws, rfl, ⟨hb, hn⟩, hws⟩ := Spells.name_iff.mp hvs
  obtain ⟨opening, xs, rfl, hopen, hxs⟩ := Spells.sign_iff.mp hws
  obtain ⟨ys, zs, rfl, hys, hzs⟩ := Spells.append_iff.mp hxs
  obtain ⟨closing, bs, rfl, hclose, hbs⟩ := Spells.sign_iff.mp hzs
  simp only [List.cons_append, List.append_assoc] at hp
  refine ⟨?_, by rw [hp, TypeScan.isFunctionDecl_eq_sees, TypeScan.sees_of_spells hus hb, hopen]; rfl⟩
  obtain ⟨w', p₁, hx₁, h₁, hp₁, hw⟩ := type_consumed hus hp (by simp [hb]) (by simp [hb])
  obtain ⟨p₂, hx₂, h₂, hp₂⟩ := ident_consumed hp₁ hb
  obtain ⟨p₃, hx₃, h₃, hp₃⟩ := expect_consumed hp₂ hopen
  obtain ⟨params', p₄, hx₄, h₄, hparams⟩ := params_consumed hys hp₃ hclose
  obtain ⟨p₅, hx₅, h₅, hp₅⟩ := expect_consumed (h₄.tokens_eq hp₃) hclose
  obtain ⟨⟨s', p₆, hx₆, h₆, hshape⟩, -⟩ := block_rebuilds hbody hbs hp₅
  refine (h₁.trans (h₂.trans (h₃.trans (h₄.trans (h₅.trans h₆))))).rebuilds hc
    (d := .function w' ⟨b.lexeme, b.span⟩ params' s') ?_ hshape
    ⟨w'.span.merge p₆.lastSpan, ?_⟩
  · simp only [Construct.outline, hw, Ident.unplaced, hn, hparams]
  · have hrest : (do
        let _ ← expect .rightParen
        let body ← block
        alloc (.function w' ⟨b.lexeme, b.span⟩ params' body) (← spanFrom w'.span) : Parse NodeId) p₄ =
        alloc (.function w' ⟨b.lexeme, b.span⟩ params' s') (w'.span.merge p₆.lastSpan) p₆ := by
      rw [bind_of_ok hx₅, bind_of_ok hx₆, bind_of_ok (spanFrom_apply _ _)]
    rw [function, bind_of_ok hx₁, bind_of_ok hx₂, bind_of_ok hx₃, bind_of_ok (check_apply _ p₃)]
    rcases hx₄ with ⟨hcheck, rfl, rfl⟩ | ⟨hcheck, hx₄⟩
    · rw [if_pos (by simp [hcheck])]
      exact hrest
    · rw [if_neg (by simp [hcheck]), bind_of_ok hx₄]
      exact hrest

/-- Accessors are read again, up to the closing brace. -/
theorem accessorsTo_of_spelled {b : Bool} (h : Accessors b ts) : ∀ {turns : Nat} {p : Parser},
    ts.length < turns → p.tokens = ts ++ rest → headKind rest = .rightBrace →
    accessorsTo turns p = (.ok b, p.read ts rest) := by
  induction h with
  | none =>
    intro turns p ht hp hr
    obtain ⟨turns, rfl⟩ := Nat.exists_eq_succ_of_ne_zero (Nat.ne_zero_of_lt ht)
    have hcheck : headKind p.tokens = .rightBrace := by
      rw [hp]
      exact hr
    rw [accessorsTo, bind_of_ok (check_apply _ p), if_pos (by simp [hcheck])]
    have hread : p.read [] rest = p := by
      rw [← Parser.read_nil p, hp]
      rfl
    rw [hread]
    rfl
  | @one name semicolon more us hk hn hsemi _ ih =>
    intro turns p ht hp hr
    obtain ⟨turns, rfl⟩ := Nat.exists_eq_succ_of_ne_zero (Nat.ne_zero_of_lt ht)
    simp only [List.length_cons] at ht
    simp only [List.cons_append] at hp
    have hcheck : headKind p.tokens ≠ .rightBrace := by simp [hp, hk]
    have hpeek : p.peek = name := Parser.peek_of_eq_cons hp
    have hlt : us.length < turns := by omega
    have hmore := ih hlt (p := (p.read [name] (semicolon :: (us ++ rest))).read [semicolon]
      (us ++ rest)) rfl hr
    rw [Parser.read_read, Parser.read_read] at hmore
    rw [accessorsTo, bind_of_ok (check_apply _ p), if_neg (by simp [hcheck]),
      bind_of_ok (checkWord_apply _ p), bind_of_ok (checkWord_apply _ p), hpeek, if_pos (by
        rcases hn with hn | hn <;> simp [hk, hn]), bind_of_ok (advance_of_eq_cons hp),
      bind_of_ok (expect_of_eq_cons rfl hsemi), Parser.read_read, bind_of_ok hmore]
    simp [hk]

/-- A property is read again. -/
theorem property_rebuilds {w : WrittenType} {n : Ident} {b : Bool}
    (hc : t.construct? id = some (.property w n b)) (hs : Spells t Anywhere [.node id] ts)
    (hp : p.tokens = ts ++ rest) : Rebuilds t id classMember p ts := by
  obtain ⟨us, vs, rfl, hus, hvs⟩ := Spells.type_iff.mp (hs.pieces hc)
  obtain ⟨name, ws, rfl, ⟨hname, hn⟩, hws⟩ := Spells.name_iff.mp hvs
  obtain ⟨opening, xs, rfl, hopen, hxs⟩ := Spells.sign_iff.mp hws
  obtain ⟨ys, zs, rfl, hys, hzs⟩ := Spells.accessors_iff.mp hxs
  obtain ⟨closing, ns, rfl, hclose, hns⟩ := Spells.sign_iff.mp hzs
  obtain rfl := Spells.nil_iff.mp hns
  simp only [List.cons_append, List.append_assoc, List.nil_append] at hp
  have hdecl : TypeScan.isFunctionDecl p.tokens = false := by
    rw [hp, TypeScan.isFunctionDecl_eq_sees, TypeScan.sees_of_spells hus hname, hopen]
    rfl
  obtain ⟨w', p₁, hx₁, h₁, hp₁, hw⟩ := type_consumed hus hp (by simp [hname]) (by simp [hname])
  obtain ⟨p₂, hx₂, h₂, hp₂⟩ := ident_consumed hp₁ hname
  obtain ⟨p₃, hx₃, h₃, hp₃⟩ := expect_consumed hp₂ hopen
  have hturns : ys.length < p₃.tokens.length + 1 := by
    rw [hp₃, List.length_append]
    omega
  have hx₄ := accessorsTo_of_spelled hys hturns hp₃ hclose
  have h₄ : Consumed p₃ ys (p₃.read ys (closing :: rest)) := .read hp₃
  obtain ⟨p₅, hx₅, h₅, -⟩ := expect_consumed (h₄.tokens_eq hp₃) hclose
  have hacc : accessors p₂ = (.ok b, p₅) := by
    rw [accessors, bind_of_ok hx₃, bind_of_ok (limit_apply p₃), bind_of_ok hx₄, bind_of_ok hx₅]
    rfl
  have hcheck : headKind p₂.tokens = .leftBrace := by rw [hp₂]; exact hopen
  refine (h₁.trans (h₂.trans (h₃.trans (h₄.trans h₅)))).rebuilds hc
    (d := .property w' ⟨name.lexeme, name.span⟩ b) ?_ .nil ⟨w'.span.merge p₅.lastSpan, ?_⟩
  · simp only [Construct.outline, hw, Ident.unplaced, hn]
  · rw [classMember, bind_of_ok (isFunctionDecl_apply p), hdecl, if_neg (by simp),
      bind_of_ok hx₁, bind_of_ok hx₂, bind_of_ok (check_apply _ p₂), if_pos (by simp [hcheck]),
      bind_of_ok hacc, bind_of_ok (spanFrom_apply _ _)]

/-- A field is read again. -/
theorem field_rebuilds {w : WrittenType} {n : Ident} {init : Option NodeId}
    (hc : t.construct? id = some (.field w n init)) (hinit : ∀ e ∈ init, ∃ l r, Fits t (.expr l r) e)
    (hs : Spells t Anywhere [.node id] ts) (hp : p.tokens = ts ++ rest) :
    Rebuilds t id classMember p ts := by
  obtain ⟨us, vs, rfl, hus, hvs⟩ := Spells.type_iff.mp (hs.pieces hc)
  obtain ⟨xs, ys, rfl, hxs, hys⟩ := Spells.append_iff.mp hvs
  obtain ⟨semi, ns, rfl, hsemi, hns⟩ := Spells.sign_iff.mp hys
  obtain rfl := Spells.nil_iff.mp hns
  obtain ⟨name, ws, rfl, hname, hn, hnext, hread⟩ := initializer_consumed hinit hxs
    (.inr (show headKind (semi :: rest) = .semicolon from hsemi))
  simp only [List.cons_append, List.append_assoc, List.nil_append] at hp
  obtain ⟨after, zs, hzs⟩ := exists_of_headKind_ne (show headKind (ws ++ semi :: rest) ≠ .eof by
    rcases hnext with h | h <;> simp [h, hsemi])
  have hafter : after.kind = .equal ∨ after.kind = .semicolon := by
    rw [hzs, Parser.headKind_cons, Parser.headKind_cons, hsemi] at hnext
    exact hnext
  have hdecl : TypeScan.isFunctionDecl p.tokens = false := by
    rw [hp, hzs, TypeScan.isFunctionDecl_eq_sees, TypeScan.sees_of_spells hus hname]
    rcases hafter with h | h <;> rw [h] <;> rfl
  obtain ⟨w', p₁, hx₁, h₁, hp₁, hw⟩ := type_consumed hus hp (by simp [hname]) (by simp [hname])
  obtain ⟨p₂, hx₂, h₂, hp₂⟩ := ident_consumed hp₁ hname
  obtain ⟨init', p₃, hx₃, h₃, hmap, hshape⟩ := hread p₂ hp₂
  obtain ⟨p₄, hx₄, h₄, -⟩ := expect_consumed (h₃.tokens_eq hp₂) hsemi
  have hcheck : headKind p₂.tokens ≠ .leftBrace := by
    rw [hp₂, hzs, Parser.headKind_cons]
    rcases hafter with h | h <;> simp [h]
  have hcons := h₁.trans (h₂.trans (h₃.trans h₄))
  refine hcons.rebuilds hc (d := .field w' ⟨name.lexeme, name.span⟩ init') ?_
    (hshape.mono (.refl _) h₄.tree) ⟨w'.span.merge p₄.lastSpan, ?_⟩
  · simp only [Construct.outline, hw, Ident.unplaced, hn, hmap]
  · rw [classMember, bind_of_ok (isFunctionDecl_apply p), hdecl, if_neg (by simp),
      bind_of_ok hx₁, bind_of_ok hx₂, bind_of_ok (check_apply _ p₂), if_neg (by simp [hcheck]),
      bind_of_ok hx₃, bind_of_ok hx₄, bind_of_ok (spanFrom_apply _ _)]

/-- **Every member of a class is read again.** -/
theorem classMember_rebuilds (h : Fits t .member id) (hs : Spells t Anywhere [.node id] ts)
    (hp : p.tokens = ts ++ rest) : Rebuilds t id classMember p ts := by
  cases h with
  | @node _ _ c ρ hc ha hk =>
    cases ha with
    | method hbody =>
      obtain ⟨hr, hdecl⟩ := function_rebuilds hc (hbody ▸ hk _ (by simp [Construct.children])) hs hp
      refine hr.congr ?_
      rw [classMember, bind_of_ok (isFunctionDecl_apply p), hdecl, if_pos rfl]
    | property => exact property_rebuilds hc hs hp
    | field hall =>
      refine field_rebuilds hc (fun e he => ?_) hs hp
      obtain ⟨l, r, hρ⟩ := hall e he
      exact ⟨l, r, hρ ▸ hk e (Option.mem_toList.mpr he)⟩

theorem startsItem_of_fits_member (h : Fits t .member id) (hs : Spells t Anywhere [.node id] ts) :
    (headKind ts).startsItem = true := by
  cases h with
  | @node _ _ c ρ hc ha hk =>
    have hsp := hs.pieces hc
    cases ha <;>
    · obtain ⟨us, vs, rfl, hus, -⟩ := Spells.type_iff.mp hsp
      rw [hus.headKind_eq]
      rfl

theorem classDecl_rebuilds {n : Ident} {members : List NodeId}
    (hc : t.construct? id = some (.classDecl n members)) (hall : ∀ m ∈ members, Fits t .member m)
    (hs : Spells t Anywhere [.node id] ts) (hp : p.tokens = ts ++ rest) :
    Rebuilds t id classDecl p ts ∧ headKind p.tokens = .classWord := by
  have hk := hs.pieces hc
  obtain ⟨a, us, rfl, ha, hus⟩ := Spells.sign_iff.mp hk
  obtain ⟨name, vs, rfl, ⟨hname, hn⟩, hvs⟩ := Spells.name_iff.mp hus
  obtain ⟨opening, ws, rfl, hopen, hws⟩ := Spells.sign_iff.mp hvs
  obtain ⟨xs, ys, rfl, hxs, hys⟩ := Spells.append_iff.mp hws
  obtain ⟨closing, ns, rfl, hclose, hns⟩ := Spells.sign_iff.mp hys
  obtain rfl := Spells.nil_iff.mp hns
  simp only [List.cons_append, List.append_assoc, List.nil_append] at hp
  obtain ⟨p₁, hx₁, h₁, hp₁⟩ := expect_consumed hp ha
  obtain ⟨p₂, hx₂, h₂, hp₂⟩ := ident_consumed hp₁ hname
  obtain ⟨p₃, hx₃, h₃, hp₃⟩ := expect_consumed hp₂ hopen
  have hturns : xs.length < p₃.tokens.length + 1 := by
    rw [hp₃, List.length_append]
    omega
  obtain ⟨members', p₄, hx₄, h₄, hshape⟩ := itemsTo_rebuilds (n := xs.length)
    (fun m hm us rest p hus _ hp _ => classMember_rebuilds (hall m hm) hus hp)
    (fun m hm us hus => startsItem_of_fits_member (hall m hm) hus) hxs (Nat.le_refl _) hturns hp₃
    (.inr ⟨rfl, hclose⟩)
  have hitems : itemsUntilBrace classMember p₃ = (.ok members', p₄) :=
    (bind_of_ok (limit_apply p₃)).trans hx₄
  obtain ⟨p₅, hx₅, h₅, -⟩ := expect_consumed (h₄.tokens_eq hp₃) hclose
  refine ⟨(h₁.trans (h₂.trans (h₃.trans (h₄.trans h₅)))).rebuilds hc
    (d := .classDecl ⟨name.lexeme, name.span⟩ members') ?_ (hshape.mono (.refl _) h₅.tree)
    ⟨a.span.merge p₅.lastSpan, ?_⟩, by rw [hp]; exact ha⟩
  · simp only [Construct.outline, Ident.unplaced, hn, hshape.map_zero_eq]
  · rw [classDecl, bind_of_ok hx₁, bind_of_ok hx₂, bind_of_ok hx₃, bind_of_ok hitems,
      bind_of_ok hx₅, bind_of_ok (spanFrom_apply _ _)]

/-! ## 6. Programs -/

/-- What a statement of a program looks like: not like a function. -/
theorem isFunctionDecl_of_fits {c : Construct} {ρ : NodeId → Role} {d : Bool}
    (hc : t.construct? id = some c) (ha : Admits t ρ c (.stmt d))
    (hk : ∀ k ∈ c.children, Fits t (ρ k) k)
    (hund : ∀ e, c = .exprStmt e → Undeclared TypeScan.isFunctionDecl t e)
    (hs : Spells t Anywhere [.node id] ts) (hp : p.tokens = ts ++ rest) :
    TypeScan.isFunctionDecl p.tokens = false := by
  have hsp := hs.pieces hc
  have hsign : ∀ {k : TokenKind} {ps : List Piece}, c.pieces = .sign k :: ps → k ≠ .identifier →
      TypeScan.isFunctionDecl p.tokens = false := by
    intro k ps hpieces hne
    rw [hpieces] at hsp
    obtain ⟨a, us, rfl, ha, -⟩ := Spells.sign_iff.mp hsp
    rw [hp, TypeScan.isFunctionDecl_eq_sees]
    refine TypeScan.sees_of_headKind_ne ?_
    rwa [List.cons_append, Parser.headKind_cons, ha]
  cases ha with
  | @exprStmt e l r he _ =>
    obtain ⟨us, vs, rfl, hus, hvs⟩ := Spells.node_cons_iff.mp hsp
    obtain ⟨a, ws, rfl, ha, hws⟩ := Spells.sign_iff.mp hvs
    rw [hp, List.append_assoc]
    exact (hund e rfl).of_spells TypeScan.isFunctionDecl_congr
      (he ▸ hk e (by simp [Construct.children])) hus ha
  | @localDecl w vars hne hall =>
    obtain ⟨us, vs, rfl, hus, hvs⟩ := Spells.type_iff.mp hsp
    obtain ⟨xs, ys, rfl, hxs, hys⟩ := Spells.append_iff.mp hvs
    obtain ⟨a, ws, rfl, ha, hws⟩ := Spells.sign_iff.mp hys
    have hexpr : ∀ e ∈ vars.filterMap Declarator.init, ∃ l r, Fits t (.expr l r) e := fun e he => by
      obtain ⟨l, r, hρ⟩ := hall e he
      exact ⟨l, r, hρ ▸ hk e he⟩
    obtain ⟨name, after, zs, hzs, hname, hafter⟩ := exists_after_name hne hexpr hxs
      (show headKind (a :: (ws ++ rest)) = .semicolon from ha)
    simp only [List.append_assoc, List.cons_append] at hp
    rw [hp, hzs, TypeScan.isFunctionDecl_eq_sees, TypeScan.sees_of_spells hus hname]
    rcases hafter with h | h | h <;> rw [h] <;> rfl
  | @returnStmt value _ => cases value <;> exact hsign rfl (by simp)
  | yieldStmt _ | breakStmt | continueStmt | emptyStmt | block _ | ifThen _ _ | ifElse _ _ _
  | whileStmt _ _ | doStmt _ _ => exact hsign rfl (by simp)

/-- A statement that could take an `else` starts like a condition or a loop. -/
theorem headKind_of_dangling {At : NodeId → List Token → Prop} {c : Construct} {ρ : NodeId → Role}
    (ha : Admits t ρ c (.stmt true)) (hs : Spells t At c.pieces ts) :
    headKind ts = .ifWord ∨ headKind ts = .whileWord := by
  cases ha with
  | ifThen _ _ | ifElse _ _ _ =>
    obtain ⟨a, us, rfl, ha, -⟩ := Spells.sign_iff.mp hs
    exact .inl ha
  | whileStmt _ _ =>
    obtain ⟨a, us, rfl, ha, -⟩ := Spells.sign_iff.mp hs
    exact .inr ha

/-- **Every item of a program is read again**, before anything but an `else` if it could take one. -/
theorem item_rebuilds (h : Fits t .item id) (hs : Spells t Anywhere [.node id] ts)
    (hp : p.tokens = ts ++ rest)
    (helse : headKind ts = .ifWord ∨ headKind ts = .whileWord → headKind rest ≠ .elseWord) :
    Rebuilds t id item p ts ∧ (headKind ts).startsItem = true := by
  cases h with
  | @node _ _ c ρ hc ha hk =>
    cases ha with
    | function hbody =>
      obtain ⟨hr, hdecl⟩ := function_rebuilds hc (hbody ▸ hk _ (by simp [Construct.children])) hs hp
      have hsp := hs.pieces hc
      obtain ⟨us, vs, rfl, hus, -⟩ := Spells.type_iff.mp hsp
      have hhead : ∀ ws, headKind (us ++ ws) = .identifier := hus.headKind_eq
      refine ⟨hr.congr ?_, by rw [hhead]; rfl⟩
      rw [item, bind_of_ok (check_apply _ p), if_neg (by rw [hp, List.append_assoc, hhead]; simp),
        bind_of_ok (isFunctionDecl_apply p), hdecl, if_pos rfl]
    | classDecl hall =>
      obtain ⟨hr, hhead⟩ := classDecl_rebuilds hc (fun m hm => hall m hm ▸ hk m hm) hs hp
      have hsp := hs.pieces hc
      obtain ⟨a, us, rfl, ha, -⟩ := Spells.sign_iff.mp hsp
      refine ⟨hr.congr ?_, by rw [Parser.headKind_cons, ha]; rfl⟩
      rw [item, bind_of_ok (check_apply _ p), if_pos (by simp [hhead])]
    | @item _ d ha hund =>
      have hf : Fits t (.stmt d) id := .node ρ hc ha hk
      have hdangling : d = true → headKind rest ≠ .elseWord := by
        rintro rfl
        have hsp := hs.pieces hc
        exact helse (headKind_of_dangling ha hsp)
      have hstart := hf.startsStmt hs
      have hne : ts ≠ [] := by
        rintro rfl
        cases hstart
      have hclass : headKind p.tokens ≠ .classWord := by
        rw [hp, Parser.headKind_append hne]
        intro hn
        rw [hn] at hstart
        cases hstart
      refine ⟨(statement_rebuilds hf hs hp hdangling).congr ?_,
        TokenKind.startsItem_of_startsStmt hstart⟩
      rw [item, bind_of_ok (check_apply _ p), if_neg (by simp [hclass]),
        bind_of_ok (isFunctionDecl_apply p), isFunctionDecl_of_fits hc ha hk hund hs hp,
        if_neg (by simp)]

end Parse

/-- **A text whose tokens spell a program is read as that program, without errors.** -/
theorem parseLenient_of_spells {t : SyntaxTree} {root : NodeId} {items : List NodeId} {text : String}
    {toks : List Token} {stop : Position} {rest : List Char}
    (hroot : t.construct? root = some (.unit items)) (hall : ∀ id ∈ items, Fits t .item id)
    (hlex : Lexed .start text.toList toks stop rest) (hspent : Spent rest)
    (herr : ∀ a ∈ toks, a.kind ≠ .error) (hs : Spells t Anywhere (items.map .node) toks) :
    (parseLenient text).2 = [] ∧
      SameShape t (parseLenient text).1 [root] [(parseLenient text).1.root] := by
  obtain ⟨toks', stop', rest', hlex', hspent', htoks, hnone⟩ := Parser.ofText_spec text
  obtain rfl := hlex.unique hlex' hspent hspent'
  have hp : (Parser.ofText text).tokens = toks ++ [] := by
    rw [htoks, List.append_nil]
    exact List.filter_eq_self.mpr fun a ha => by simpa using herr a ha
  have hturns : toks.length < (Parser.ofText text).tokens.length + 1 := by
    rw [hp, List.append_nil]
    exact Nat.lt_succ_self _
  obtain ⟨items', q, hx, hcons, hshape⟩ := Parse.itemsTo_rebuilds (b := false)
    (n := toks.length)
    (fun id hid us rest p hus _ hp helse => (Parse.item_rebuilds (hall id hid) hus hp
      fun _ => helse).1)
    (fun id hid us hus => (Parse.item_rebuilds (p := (Parser.ofText text).read [] us) (hall id hid) hus
      (List.append_nil us).symm fun _ => by simp).2) hs (Nat.le_refl _) hturns hp (.inl rfl)
  obtain ⟨items'', q', hx', he, htree⟩ := parseLenient_apply text
  have hsame : Parse.itemsUntilEnd Parse.item (Parser.ofText text) = (.ok items', q) :=
    (bind_of_ok (Parse.limit_apply _)).trans hx
  rw [hsame] at hx'
  cases hx'
  have hext : q.tree.Extends (parseLenient text).1 := by
    rw [htree]
    have h := Extends.alloc q.tree (.unit items') ⟨0, q.textSize, 1, 1⟩
    exact ⟨h.size_le, h.construct_eq, h.span_eq⟩
  have hunit : (parseLenient text).1.construct? (parseLenient text).1.root =
      some (.unit items') := by
    rw [htree]
    exact (construct?_alloc _ _ _ _).trans (if_pos rfl)
  have hclean : q.errors = [] := hcons.errors.trans (hnone.mpr herr)
  refine ⟨he.trans hclean, ?_⟩
  refine .node hroot hunit ?_ (hshape.mono (.refl _) hext)
  simp only [Construct.outline, hshape.map_zero_eq]

end Recast
