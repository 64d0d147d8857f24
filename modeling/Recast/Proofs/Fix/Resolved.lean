/-
# What a fix does to the types of a program

A fix puts a cast into the place of a value that has another type than its context expects.  In the
program with the fix the cast has the type that is expected, and every expression that was there
before has the types that it had.

* `Recasts.sameWalk`: the new statement binds and declares the names of the old one;
* `Requests.typeInfo_source`: the types of a request are those of the value in its context;
* `Converts.retypes`: a fix keeps the types of the program;
* `Converts.typeInfo_new`: **the conversion is resolved**: the new statement asks for a conversion from
  the destination type to itself;
* `fix_resolves_conversion`: both together, for every fix of the casting engine.
-/
import Recast.Proofs.Fix.Reparse
import Recast.Proofs.Semantics.Retype

namespace Recast

open SyntaxTree (Rewrites Kept Under)
open Analysis (ofTree)

/-! ## 1. Roles of parts -/

section Roles

variable {t : SyntaxTree} {ρ : NodeId → Role} {c : Construct} {role : Role}

/-- The expressions that a statement or a field has by itself stand for expressions. -/
theorem Admits.expr_of_exprs (h : Admits t ρ c role) {e : NodeId} (he : e ∈ c.exprs) :
    ∃ l r, ρ e = .expr l r := by
  induction h with
  | exprStmt hρ _ | yieldStmt hρ | ifThen hρ _ | ifElse hρ _ _ | whileStmt hρ _ | doStmt _ hρ =>
    rw [List.mem_singleton.mp he]
    exact ⟨_, _, hρ⟩
  | returnStmt hv | field hv => exact hv e (Option.mem_toList.mp he)
  | localDecl _ hv => exact hv e he
  | item _ _ ih => exact ih he
  | _ => cases he

/-- The parts of a function or a class stand for a body or for members. -/
theorem Admits.declares (h : Admits t ρ c role) (hc : c.isFunction = true ∨ c.isClass = true)
    {k : NodeId} (hk : k ∈ c.children) : ρ k = .body ∨ ρ k = .member := by
  cases h with
  | method hs | function hs =>
    rw [List.mem_singleton.mp hk]
    exact .inl hs
  | classDecl hm => exact .inr (hm k hk)
  | item ha _ =>
    rcases hc with hc | hc
    all_goals cases ha <;> cases hc
  | _ => rcases hc with hc | hc <;> cases hc

/-- An expression stands for an expression only. -/
theorem Admits.role_of_isExpression (h : Admits t ρ c role) (hc : c.isExpression = true) :
    ∃ l r, role = .expr l r := by
  cases h with
  | item ha _ => cases ha <;> cases hc
  | literal | ident | paren _ | cast _ | newObject _ | member _ _ | call _ _ _ | unary _ _
  | binary _ _ _ _ | assign _ _ _ _ _ => exact ⟨_, _, rfl⟩
  | _ => cases hc

end Roles

/-! ## 2. The old and the new statement -/

section Statements

variable {t u : SyntaxTree} {type : DataType} {c : Convertible} {s : NodeId}

/-- **Both statements bind the names of one expression and declare the same name, if any.** -/
theorem Recasts.sameWalk (hc : IsConvertible t c) (h : Recasts t u type c s) :
    SameWalk t u c.stmt s := by
  obtain ⟨c', hc', rfl, -⟩ := h.isConvertible
  refine ⟨hc.isStatement, hc'.isStatement, ?_⟩
  cases h with
  | @assignment stmt target value _ e g k hk hg he hs =>
    cases hc with
    | @assignment _ a _ _ hid ha =>
      refine ⟨a, e, SyntaxTree.children_of_construct? hid, SyntaxTree.children_of_construct? hs,
        .inl ⟨fun d b => ?_, fun d b => ?_⟩⟩
      · simp [Convertible.stmt, Binder.stmtTo, hid]
      · simp [Binder.stmtTo, hs]
  | @returned stmt value _ k hk hs =>
    cases hc with
    | returned hid =>
      refine ⟨value, k, SyntaxTree.children_of_construct? hid, SyntaxTree.children_of_construct? hs,
        .inl ⟨fun d b => ?_, fun d b => ?_⟩⟩
      · simp [Convertible.stmt, Binder.stmtTo, hid, Binder.expr?]
      · simp [Binder.stmtTo, hs, Binder.expr?]
  | @yielded stmt value _ k hk hs =>
    cases hc with
    | yielded hid =>
      refine ⟨value, k, SyntaxTree.children_of_construct? hid, SyntaxTree.children_of_construct? hs,
        .inl ⟨fun d b => ?_, fun d b => ?_⟩⟩
      · simp [Convertible.stmt, Binder.stmtTo, hid]
      · simp [Binder.stmtTo, hs]
  | @declaration stmt init _ k w name hk hid hs =>
    refine ⟨init, k, SyntaxTree.children_of_construct? hid, SyntaxTree.children_of_construct? hs,
      .inr ⟨name, .synthetic name.name, rfl, fun d b => ?_, fun d b => ?_⟩⟩
    · simp [Convertible.stmt, Binder.stmtTo, hid, Binder.declarators, Binder.expr?]
    · simp [Binder.stmtTo, hs, Binder.declarators, Binder.expr?]

end Statements

/-! ## 3. What a context expects -/

theorem except_map_some_eq_ok {ε α : Type} {x : Except ε α} {o : Option α} :
    some <$> x = .ok o ↔ ∃ a, x = .ok a ∧ o = some a := by
  cases x with
  | error e =>
    constructor
    · intro h
      cases h
    · rintro ⟨a, h, -⟩
      cases h
  | ok a =>
    constructor
    · intro h
      cases h
      exact ⟨a, rfl, rfl⟩
    · rintro ⟨a', h, rfl⟩
      cases h
      rfl

namespace Analysis

variable {t : SyntaxTree} (ht : t.WellFormed) {p k : NodeId} {expected : Option DataType}
include ht

/-- A node in a slot has the node with the slot as its parent. -/
theorem parent?_of_slot {c : Construct} (hp : t.construct? p = some c) (hk : k ∈ c.children) :
    (ofTree t).tree.parent? k = some p := by
  refine (ht.links k p).mpr ?_
  rwa [SyntaxTree.children_of_construct? hp]

theorem expectedType?_of_localDecl {w : WrittenType} {name : Ident}
    (hp : t.construct? p = some (.localDecl w [⟨name, some k⟩])) :
    (ofTree t).expectedType? k = .ok expected ↔ (w.isVar = true ∧ expected = none) ∨
      (w.isVar = false ∧ ∃ T, (ofTree t).resolveType w = .ok T ∧ expected = some T) := by
  have hc : (ofTree t).tree.construct? p = some (.localDecl w [⟨name, some k⟩]) := hp
  simp only [expectedType?, parent?_of_slot ht hp (List.mem_singleton_self k), hc]
  cases w.isVar with
  | true => simp [eq_comm]
  | false => simp [except_map_some_eq_ok]

theorem expectedType?_of_returnStmt (hp : t.construct? p = some (.returnStmt (some k))) :
    (ofTree t).expectedType? k = .ok expected ↔
      ∃ T, (ofTree t).enclosingReturnType p = .ok T ∧ expected = some T := by
  have hc : (ofTree t).tree.construct? p = some (.returnStmt (some k)) := hp
  simp only [expectedType?, parent?_of_slot ht hp (List.mem_singleton_self k), hc]
  exact except_map_some_eq_ok

/-- A value that is yielded is expected to be an element of what the function returns. -/
theorem expectedType?_of_yieldStmt (hp : t.construct? p = some (.yieldStmt k)) :
    (ofTree t).expectedType? k = .ok expected ↔
      ∃ T E, (ofTree t).enclosingReturnType p = .ok T ∧ T.element? = some E ∧ expected = some E := by
  have hc : (ofTree t).tree.construct? p = some (.yieldStmt k) := hp
  simp only [expectedType?, parent?_of_slot ht hp (List.mem_singleton_self k), hc]
  rw [except_bind_eq_ok]
  refine exists_congr fun T => ?_
  cases T.element? with
  | none => simp
  | some element => simp [pure, Except.pure, eq_comm]

/-- The value of an assignment is expected to have the type of the target. -/
theorem expectedType?_of_assign {op : AssignOp} {target value : NodeId}
    (hp : t.construct? p = some (.assign op target value)) :
    (ofTree t).expectedType? value = some <$> (ofTree t).typeOf target ∧
      (ofTree t).expectedType? target = .ok none := by
  have hc : (ofTree t).tree.construct? p = some (.assign op target value) := hp
  have hne : value ≠ target := by
    have hnodup := ht.nodup p
    rw [SyntaxTree.children_of_construct? hp] at hnodup
    rintro rfl
    exact (List.nodup_cons.mp hnodup).1 (List.mem_singleton_self _)
  constructor
  · simp [expectedType?, parent?_of_slot ht hp (k := value) (by simp [Construct.children]), hc]
  · simp [expectedType?, parent?_of_slot ht hp (k := target) (by simp [Construct.children]), hc, hne]

end Analysis

/-- **The types of a request are the type of the value and the type that its context expects**, also
where the destination type was taken from the target of an assignment. -/
theorem Requests.typeInfo_source {t : SyntaxTree} {c : Convertible} {r : MappingRequest}
    (h : Requests (ofTree t).model c r) (hc : IsConvertible t c) (ht : t.WellFormed) :
    (ofTree t).typeInfo c.source = .ok ⟨r.sourceType, r.destinationType⟩ := by
  have htypes := h.types
  cases hc with
  | @assignment stmt e target value _ he =>
    obtain ⟨s, d, hs, hd, hsource, hdest⟩ := htypes
    have hvalue : (ofTree t).typeOf value = .ok s.type := (Analysis.typeInfo_eq_ok.mp hs).1
    have htarget : (ofTree t).typeOf target = .ok d.type := (Analysis.typeInfo_eq_ok.mp hd).1
    -- the context of the value is the assignment, which expects the type of the target
    have hexpected : (ofTree t).expectedType? value = .ok (some d.type) :=
      (Analysis.expectedType?_of_assign ht he).1.trans (except_some_eq_ok.mpr htarget)
    rw [hsource, hdest]
    exact Analysis.typeInfo_eq_ok.mpr ⟨hvalue, some d.type, hexpected, rfl⟩
  | returned _ | yielded _ | declaration _ =>
    obtain ⟨info, hinfo, hsource, hdest⟩ := htypes
    rw [hsource, hdest]
    exact hinfo

/-! ## 4. Types that are kept -/

namespace Converts

variable {d : Document} {model : SemanticModel} {c : Convertible} {f : Fix} {n s : NodeId}

section

variable (h : Converts d model c f n s)
include h

theorem rooted : d.tree.Rooted := h.tree_eq ▸ parseLenient_rooted d.text

theorem fits_of_inTree {i : NodeId} (hi : d.tree.InTree i) (hr : i ≠ d.tree.root) :
    ∃ role, Fits d.tree role i := by
  have htree := h.tree_eq
  rw [htree] at hi hr ⊢
  exact parseLenient_fits d.text hi hr

/-- The old statement is not a part of an expression. -/
theorem not_under_expr {e : NodeId} {l r : Nat} (he : Fits d.tree (.expr l r) e) :
    ¬ Under d.tree [e] c.stmt := by
  intro hu
  have hexpr := he.isExpression_of_under hu
  rw [h.not_isExpression] at hexpr
  cases hexpr

theorem exists_unit : ∃ items, d.tree.construct? d.tree.root = some (.unit items) := by
  obtain ⟨toks, stop, rest, items, ts, -, -, hroot, -⟩ := parseLenient_sound d.text
  exact ⟨items, h.tree_eq ▸ hroot⟩

theorem moves : Moves d.tree f.document.tree c.stmt n s := by
  obtain ⟨items, hunit⟩ := h.exists_unit
  have hadmits : ∀ {q cc}, d.tree.InTree q → d.tree.construct? q = some cc →
      (∃ items, cc = .unit items) ∨ ∃ ρ role, Admits d.tree ρ cc role ∧
        ∀ k ∈ cc.children, Fits d.tree (ρ k) k := by
    intro q cc hq hcc
    by_cases hr : q = d.tree.root
    · rw [hr, hunit] at hcc
      cases hcc
      exact .inl ⟨_, rfl⟩
    · obtain ⟨role, hf⟩ := h.fits_of_inTree hq hr
      cases hf with
      | node ρ hd ha hk =>
        rw [hcc] at hd
        cases hd
        exact .inr ⟨ρ, role, ha, hk⟩
  refine ⟨h.rewrites, ?_, ?_, fun {q cc e} hq hcc he => ?_, fun {q cc} hq hcc hdecl ho => ?_, ?_,
    h.recasts.sameWalk h.convertible⟩
  · rw [SyntaxTree.isBlock, hunit]
    rfl
  · rw [h.tree_eq]
    exact (parseLenient_slotted d.text).lt
  · rcases hadmits hq hcc with ⟨items, rfl⟩ | ⟨ρ, role, ha, hk⟩
    · cases he
    · obtain ⟨l, r, hρ⟩ := ha.expr_of_exprs he
      exact h.not_under_expr (hρ ▸ hk e (Construct.exprs_subset he))
  · rcases hadmits hq hcc with ⟨items, rfl⟩ | ⟨ρ, role, ha, hk⟩
    · rcases hdecl with hdecl | hdecl <;> cases hdecl
    · have hrole := (h.convertible.fits_stmt (hk _ ho)).2
      rcases ha.declares hdecl ho with hρ | hρ <;> rw [hρ] at hrole <;> simp at hrole
  · obtain ⟨p, hp, ⟨hblock, -, hn⟩ | ⟨hblock, -, hn⟩⟩ := h.placed
    · exact ⟨p, hp, .inl ⟨hblock, hn⟩⟩
    · exact ⟨p, hp, .inr ⟨hblock, hn⟩⟩

theorem fits_stmt : Fits d.tree (.stmt false) c.stmt := by
  obtain ⟨role, hf⟩ := h.fits_of_inTree h.rewrites.inTree h.rewrites.not_root
  exact (h.convertible.fits_stmt hf).1

/-- Everything in the new node is a statement or an expression. -/
theorem fresh_isStatement (hw : (WrittenType.ofDataType f.request.destinationType).Writable)
    {j : NodeId} (hj : Under f.document.tree [n] j) :
    f.document.tree.isStatement j = true ∨ f.document.tree.isExpression j = true := by
  have hs : ∀ {j}, Under f.document.tree [s] j →
      f.document.tree.isStatement j = true ∨ f.document.tree.isExpression j = true := by
    intro j hj
    obtain ⟨c', hc', rfl, -⟩ := h.recasts.isConvertible
    have hf := h.recasts.fits h.rewrites.before h.rewrites.after h.convertible hw h.fits_stmt
    rcases hc'.isExpression_of_under hf hj with rfl | he
    · exact .inl hc'.isStatement
    · exact .inr he
  obtain ⟨p, -, ⟨-, -, rfl⟩ | ⟨-, -, hn⟩⟩ := h.placed
  · exact hs hj
  · rcases Under.cases_root hj with rfl | hj
    · left
      simp [SyntaxTree.isStatement, hn, Construct.isStatement]
    · rw [SyntaxTree.children_of_construct? hn] at hj
      exact hs hj

end

section

variable (h : Converts d (ofTree d.tree).model c f n s)
include h

/-- The destination type is what the context of the value expects, or its own type. -/
theorem typeInfo_source : (ofTree d.tree).typeOf c.source = .ok f.request.sourceType ∧
    ∃ expected, (ofTree d.tree).expectedType? c.source = .ok expected ∧
      f.request.destinationType = expected.getD f.request.sourceType :=
  Analysis.typeInfo_eq_ok.mp (h.requested.typeInfo_source h.convertible h.rewrites.before)

/-- The type of the variable that is declared is the destination type. -/
theorem declared_type {w : WrittenType} {vars : List Declarator}
    (hc : d.tree.construct? c.stmt = some (.localDecl w vars)) :
    ∃ name init, vars = [⟨name, some init⟩] ∧ c = .declaration c.stmt init ∧
      (if w.isVar then (ofTree d.tree).typeOf init else (ofTree d.tree).resolveType w) =
        .ok f.request.destinationType := by
  cases h.convertible with
  | assignment hid _ | returned hid | yielded hid =>
    rw [Convertible.stmt, hid] at hc
    cases hc
  | @declaration stmt init w' name hid =>
    rw [Convertible.stmt, hid] at hc
    cases hc
    refine ⟨name, init, rfl, rfl, ?_⟩
    obtain ⟨hT, expected, hexpected, hdest⟩ := h.typeInfo_source
    rw [hdest]
    rcases (Analysis.expectedType?_of_localDecl h.rewrites.before hid).mp hexpected with
      ⟨hvar, rfl⟩ | ⟨hvar, E, hE, rfl⟩
    · rw [hvar]
      exact hT
    · rw [hvar]
      exact hE

variable (hnull : f.request.destinationType ≠ .null)
include hnull

/-- **A fix keeps the types of the program.** -/
theorem retypes : Retypes d.tree f.document.tree c.stmt n s f.request.destinationType := by
  have hname := h.nameable hnull
  refine ⟨h.moves, h.rooted, fun {e cc} he hcc hexpr => ?_, fun {i} hi => ?_, fun {j} hj => ?_,
    hname.resolveType, fun {w vars} hc => ?_⟩
  · have hr : e ≠ d.tree.root := by
      rintro rfl
      obtain ⟨items, hunit⟩ := h.exists_unit
      rw [hcc] at hunit
      cases hunit
      cases hexpr
    obtain ⟨role, hf⟩ := h.fits_of_inTree he hr
    cases hf with
    | node ρ hd ha hk =>
      rw [hcc] at hd
      cases hd
      obtain ⟨l, r, rfl⟩ := ha.role_of_isExpression hexpr
      exact h.not_under_expr (.node ρ hcc ha hk)
  · exact h.convertible.isExpression_of_under h.fits_stmt hi
  · exact h.fresh_isStatement hname.writable hj
  · obtain ⟨name, init, hvars, hcc, htype⟩ := h.declared_type hc
    have hrecasts := h.recasts
    rw [hcc] at hrecasts
    cases hrecasts with
    | declaration hk hid hs =>
      obtain ⟨v, -, hcast⟩ := hk
      exact ⟨name, init, _, _, v, hvars, htype, hs, hcast⟩

/-! ## 5. The conversion is resolved -/

theorem typeOf_cast {k v : NodeId}
    (hk : f.document.tree.construct? k = some (.cast (.ofDataType f.request.destinationType) v)) :
    (ofTree f.document.tree).typeOf k = .ok f.request.destinationType := by
  have hpos : 0 < f.document.tree.size := Nat.zero_lt_of_lt (SyntaxTree.lt_size_of_construct? hk)
  obtain ⟨m, hm⟩ := Nat.exists_eq_add_one_of_ne_zero (Nat.ne_of_gt hpos)
  have hsize : (ofTree f.document.tree).tree.size = m + 1 := hm
  rw [Analysis.typeOf, hsize, Analysis.typeOfTo]
  exact (h.retypes hnull).typeOfWith_cast hk

/-- A cast has the destination type, also where nothing is expected of it. -/
theorem typeInfo_cast {k v : NodeId} {expected : Option DataType}
    (hk : f.document.tree.construct? k = some (.cast (.ofDataType f.request.destinationType) v))
    (he : (ofTree f.document.tree).expectedType? k = .ok expected)
    (hE : expected = none ∨ expected = some f.request.destinationType) :
    (ofTree f.document.tree).typeInfo k =
      .ok ⟨f.request.destinationType, f.request.destinationType⟩ := by
  rw [Analysis.typeInfo, h.typeOf_cast hnull hk, except_ok_bind, he, except_ok_bind]
  rcases hE with rfl | rfl <;> rfl

/-- What the function around the old statement returns, the one around the new statement returns. -/
theorem enclosingReturnType_new {T : DataType}
    (hT : (ofTree d.tree).enclosingReturnType c.stmt = .ok T) :
    (ofTree f.document.tree).enclosingReturnType s = .ok T := by
  have hr := h.retypes hnull
  have hold : Under d.tree [c.stmt] c.stmt := .root (List.mem_singleton_self _)
  refine (hr.enclosingReturnType_eq h.rewrites.inTree ?_).1 T hT
  exact hr.enclosing_moved (P := Construct.isFunction) (fun c f => by cases c <;> rfl)
    (fun c hc => by cases c <;> first | exact ⟨rfl, rfl⟩ | cases hc) hold h.moves.under_new

/-- The copy of the target has the type that the target had. -/
theorem typeOf_target_new {target g e k : NodeId} (ht : c.target? = some target)
    (hg : Copies d.tree f.document.tree [target] [g])
    (he : f.document.tree.construct? e = some (.assign .set g k))
    (hs : f.document.tree.construct? s = some (.exprStmt e)) :
    (ofTree f.document.tree).typeOf g = .ok f.request.destinationType := by
  have htypes := h.requested.types
  rw [ht] at htypes
  obtain ⟨-, info, -, hinfo, -, hdest⟩ := htypes
  have hT := (Analysis.typeInfo_eq_ok.mp hinfo).1
  have hold : Under d.tree [c.stmt] target := by
    cases h.convertible with
    | assignment hid ha =>
      cases ht
      exact (Under.slot (.root (List.mem_singleton_self _)) hid (List.mem_singleton_self _)).slot ha
        (by simp [Construct.children])
    | returned _ | yielded _ | declaration _ => cases ht
  have hnew : Under f.document.tree [n] g :=
    (h.moves.under_new.slot hs (List.mem_singleton_self _)).slot he (by simp [Construct.children])
  rw [hdest]
  exact (h.retypes hnull).typeOf_copy hg hold hnew hT

/-- **The cast has the destination type, and so has what its context expects**: the new statement is
convertible with the same shape, and there is nothing left to convert. -/
theorem typeInfo_new : ∃ c' : Convertible, IsConvertible f.document.tree c' ∧ c'.stmt = s ∧
    c'.shape = c.shape ∧
    (ofTree f.document.tree).typeInfo c'.source =
      .ok ⟨f.request.destinationType, f.request.destinationType⟩ ∧
    ∀ target, c'.target? = some target → (ofTree f.document.tree).typeInfo target =
      .ok ⟨f.request.destinationType, f.request.destinationType⟩ := by
  have hu := h.rewrites.after
  have hrecasts := h.recasts
  cases hrecasts with
  | @assignment stmt target value _ e g k hk hg he hs =>
    obtain ⟨v, hv, hkc⟩ := hk
    have hgT := h.typeOf_target_new hnull rfl hg he hs
    obtain ⟨hvalue, hplain⟩ := Analysis.expectedType?_of_assign hu he
    refine ⟨.assignment s g k, .assignment hs he, rfl, rfl, ?_, fun target' ht' => ?_⟩
    · exact h.typeInfo_cast hnull hkc (hvalue.trans (except_some_eq_ok.mpr hgT)) (.inr rfl)
    · cases ht'
      rw [Analysis.typeInfo, hgT, except_ok_bind, hplain]
      rfl
  | @returned stmt value _ k hk hs =>
    obtain ⟨v, hv, hkc⟩ := hk
    refine ⟨.returned s k, .returned hs, rfl, rfl, ?_, fun _ ht' => by cases ht'⟩
    obtain ⟨-, expected, hexpected, hdest⟩ := h.typeInfo_source
    cases h.convertible with
    | returned hid =>
      obtain ⟨R, hR, rfl⟩ :=
        (Analysis.expectedType?_of_returnStmt h.rewrites.before hid).mp hexpected
      refine h.typeInfo_cast hnull hkc ((Analysis.expectedType?_of_returnStmt hu hs).mpr
        ⟨R, h.enclosingReturnType_new hnull hR, rfl⟩) (.inr ?_)
      rw [hdest, Option.getD_some]
  | @yielded stmt value _ k hk hs =>
    obtain ⟨v, hv, hkc⟩ := hk
    refine ⟨.yielded s k, .yielded hs, rfl, rfl, ?_, fun _ ht' => by cases ht'⟩
    obtain ⟨-, expected, hexpected, hdest⟩ := h.typeInfo_source
    cases h.convertible with
    | yielded hid =>
      obtain ⟨R, E, hR, hE, rfl⟩ :=
        (Analysis.expectedType?_of_yieldStmt h.rewrites.before hid).mp hexpected
      refine h.typeInfo_cast hnull hkc ((Analysis.expectedType?_of_yieldStmt hu hs).mpr
        ⟨R, E, h.enclosingReturnType_new hnull hR, hE, rfl⟩) (.inr ?_)
      rw [hdest, Option.getD_some]
  | @declaration stmt init _ k w name hk hid hs =>
    obtain ⟨v, hv, hkc⟩ := hk
    refine ⟨.declaration s k, .declaration hs, rfl, rfl, ?_, fun _ ht' => by cases ht'⟩
    have hr := h.retypes hnull
    cases hvar : (WrittenType.ofDataType f.request.destinationType).isVar with
    | true =>
      exact h.typeInfo_cast hnull hkc
        ((Analysis.expectedType?_of_localDecl hu hs).mpr (.inl ⟨hvar, rfl⟩)) (.inl rfl)
    | false =>
      exact h.typeInfo_cast hnull hkc ((Analysis.expectedType?_of_localDecl hu hs).mpr
        (.inr ⟨hvar, _, (hr.resolveType _).trans hr.named, rfl⟩)) (.inr rfl)

end

end Converts

/-! ## 6. Fixes -/

theorem FixM.typeInfo_never {model : SemanticModel} {id : NodeId} {info : TypeInfo}
    (h : model.typeInfo id = .ok info) (a : Activity) :
    FixM.typeInfo model .never id a = (.ok info, { a with queries := a.queries + 1 }) := by
  rw [FixM.typeInfo, bind_of_ok (FixM.check_never a), bind_of_ok (FixM.ask_eq_ok.mpr ⟨rfl, rfl⟩), h]
  rfl

/-- A request can be gathered where the value and the target have types. -/
theorem gather_of_typeInfo {t : SyntaxTree} {model : SemanticModel} {c : Convertible} {T : DataType}
    (hs : model.typeInfo c.source = .ok ⟨T, T⟩)
    (ht : ∀ target, c.target? = some target → model.typeInfo target = .ok ⟨T, T⟩) (a : Activity) :
    ∃ r a', MappingRequest.gather t model .never c a = (.ok r, a') ∧ r.sourceType = T ∧
      r.destinationType = T := by
  cases c with
  | assignment stmt target value =>
    have hvalue : model.typeInfo value = .ok ⟨T, T⟩ := hs
    unfold MappingRequest.gather
    simp only
    rw [bind_of_ok (FixM.typeInfo_never hvalue a), bind_of_ok (FixM.typeInfo_never (ht target rfl) _),
      bind_of_ok (FixM.check_never _)]
    split
    · rw [bind_of_ok (FixM.ask_eq_ok.mpr ⟨rfl, rfl⟩)]
      exact ⟨_, _, rfl, rfl, rfl⟩
    · exact ⟨_, _, rfl, rfl, rfl⟩
  | returned stmt value | yielded stmt value | declaration stmt value =>
    have hvalue : model.typeInfo value = .ok ⟨T, T⟩ := hs
    unfold MappingRequest.gather
    simp only
    rw [bind_of_ok (FixM.typeInfo_never hvalue a)]
    exact ⟨_, _, rfl, rfl, rfl⟩

/-- The fix put the statement `s` into the place of the replaced one: by itself in a list of
statements, and elsewhere as the only statement of a block. -/
def Fix.Puts (t : SyntaxTree) (f : Fix) (s : NodeId) : Prop :=
  ∃ p before n after, t.children p = before ++ f.replaced :: after ∧
    f.document.tree.children p = before ++ n :: after ∧
    ((f.placement = .spliced p 1 ∧ n = s) ∨
      (f.placement = .wrapped n ∧ f.document.tree.construct? n = some (.block [s])))

theorem Converts.puts {d : Document} {model : SemanticModel} {c : Convertible} {f : Fix}
    {n s : NodeId} (h : Converts d model c f n s) : f.Puts d.tree s := by
  have hstmt : f.replaced = c.stmt := h.requested.stmt
  obtain ⟨p, hp, hplaced⟩ := h.placed
  obtain ⟨before, after, hkids⟩ := List.append_of_mem ((h.rewrites.before.links _ _).mp hp)
  have hnodup := h.rewrites.before.nodup p
  rw [hkids] at hnodup
  refine ⟨p, before, n, after, hstmt ▸ hkids, ?_, ?_⟩
  · rw [h.rewrites.children_eq (h.rewrites.kept_above hp), hkids, map_substNode_append hnodup]
  · rcases hplaced with ⟨-, hpl, hn⟩ | ⟨-, hpl, hn⟩
    · exact .inl ⟨hpl, hn⟩
    · exact .inr ⟨hpl, hn⟩

/-- **A fix resolves the conversion and disturbs no other type.**  The new statement is convertible with
the shape of the old one, and a request for it converts from the destination type to itself; every
expression that is part of the program before and after the fix has the types that it had, or the same
error, and stands for the same kind of symbol. -/
theorem fix_resolves_conversion {d : Document} (hd : d.Reachable) {diagnostic : Diagnostic}
    {point : CancelPoint} {a a' : Activity} {f : Fix}
    (h : FixProvider.casting.fix d diagnostic point a = (.ok (some f), a'))
    (hnull : f.request.destinationType ≠ .null) :
    (∃ s c c', f.Puts d.tree s ∧ d.tree.convertible? f.replaced = some c ∧
      f.document.tree.convertible? s = some c' ∧ c'.shape = c.shape ∧
      ∀ b, ∃ r b', MappingRequest.gather f.document.tree (ofTree f.document.tree).model .never c' b =
        (.ok r, b') ∧ r.sourceType = f.request.destinationType ∧
        r.destinationType = f.request.destinationType) ∧
    ∀ e, d.tree.isAttached e = true → f.document.tree.isAttached e = true →
      d.tree.isExpression e = true →
      (ofTree f.document.tree).typeInfo e = (ofTree d.tree).typeInfo e ∧
      (ofTree f.document.tree).symbolKind e = (ofTree d.tree).symbolKind e := by
  obtain ⟨c, produced, working, hfound⟩ := fix_eq_ok h
  obtain ⟨n, s, hc⟩ := hfound.converts hd
  have hr := hc.retypes hnull
  constructor
  · obtain ⟨c', hc', rfl, hshape, hsource, htarget⟩ := hc.typeInfo_new hnull
    refine ⟨c'.stmt, c, c', hc.puts, ?_, hc'.convertible?, hshape, fun b => ?_⟩
    · rw [show f.replaced = c.stmt from hfound.requested.stmt]
      exact hc.convertible.convertible?
    · exact gather_of_typeInfo hsource htarget b
  · intro e he he' hexpr
    have hin := hc.rewrites.before.isAttached_iff.mp he
    have hkept : Kept d.tree c.stmt e := by
      rcases (hc.rewrites.inTree_iff e).mp (hc.rewrites.after.isAttached_iff.mp he') with hk | hnew
      · exact hk
      · exact absurd (hc.rooted.lt_size hin) (Nat.not_lt.mpr (hc.rewrites.fresh e hnew).1)
    obtain ⟨cc, hcc⟩ := hc.rewrites.exists_construct hkept
    rw [SyntaxTree.isExpression, hcc, Option.any_some] at hexpr
    have hapart := hr.apart_of_isExpression hkept hcc hexpr
    exact ⟨hr.typeInfo_kept hapart, hr.symbolKind_kept hapart⟩

/-- A variable is declared again with a cast, and the name that is used after it keeps its types. -/
theorem fix_resolves_conversion_of_declaration :
    ∃ (d : Document) (f : Fix) (s : NodeId) (c' : Convertible),
      Document.parse "p" "int x = 1; double y = x; y = x;" = .ok d ∧
      (FixProvider.casting.fix d (.invalidConversion ⟨22, 1, 1, 23⟩ "int" "double") .never .start).1 =
        .ok (some f) ∧ f.Puts d.tree s ∧ f.document.tree.convertible? s = some c' ∧
      (ofTree f.document.tree).typeInfo 4 = (ofTree d.tree).typeInfo 4 := by
  obtain ⟨d, hd⟩ : ∃ d, Document.parse "p" "int x = 1; double y = x; y = x;" = .ok d :=
    ⟨_, Document.parse_eq_ok_iff.mpr ⟨by decide +kernel, rfl⟩⟩
  obtain ⟨-, he⟩ := Document.parse_eq_ok_iff.mp hd
  have hfound : (FixProvider.casting.fix d (.invalidConversion ⟨22, 1, 1, 23⟩ "int" "double") .never
      .start).1.toOption.join.any
        (fun f => f.request.destinationType.name = "double" && f.document.tree.isAttached 4) =
          true := by
    rw [he]
    decide +kernel
  have hused : d.tree.isAttached 4 = true ∧ d.tree.isExpression 4 = true := by
    rw [he]
    decide +kernel
  obtain ⟨f, a', h⟩ := exists_fix_of_isSome (Option.isSome_of_any hfound)
  rw [h] at hfound
  have hboth : (f.request.destinationType.name = "double" && f.document.tree.isAttached 4) = true :=
    hfound
  obtain ⟨hname, hattached⟩ : f.request.destinationType.name = "double" ∧
      f.document.tree.isAttached 4 = true := by
    simpa using hboth
  have hnull : f.request.destinationType ≠ .null := by
    intro hn
    rw [hn] at hname
    exact absurd hname (by decide)
  obtain ⟨⟨s, c, c', hputs, -, hc', -⟩, hkept⟩ := fix_resolves_conversion (.parse hd) h hnull
  exact ⟨d, f, s, c', hd, congrArg Prod.fst h, hputs, hc', (hkept 4 hused.1 hattached hused.2).1⟩

end Recast
