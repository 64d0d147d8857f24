/-
# Questions about types come to an end

The search for a type ends, and so do the questions that rest on it: what a context expects of an
expression, and what a name stands for.  The search follows a name to the initializer of its
variable, and this initializer lies before the name in the text too.

* `Analysis.typeInfoWith`, `Analysis.symbolKindWith`: the questions, given the types of expressions;
* `SyntaxTree.Nested.stop_le_offset`: what comes earlier in the table stands earlier in the text;
* `Binding.Names`: the binding leads to a variable or a parameter of a name;
* `parseLenient_queriesEnd`: **the questions about types end, and every binding names what it is
  bound to.**
-/
import Recast.Proofs.Fix.Locate
import Recast.Proofs.Semantics.Lexical

namespace Recast

open Relation (TransGen)
open SyntaxTree (Under Grown)

namespace Analysis

/-! ## 1. The other questions -/

/-- The type of the parameter that an argument is passed to, given the types of expressions. -/
def argumentTypeWith? (a : Analysis) (typeOf : NodeId → Except SemanticError DataType)
    (callee : NodeId) (args : List NodeId) (id : NodeId) : Except SemanticError (Option DataType) :=
  match args.findIdx? (· = id) with
  | none => .ok none
  | some index => do
    let function ← a.calleeWith typeOf callee
    match a.tree.construct? function with
    | some (.function _ _ params _) =>
      match params[index]? with
      | some p => some <$> a.resolveType p.type
      | none => .ok none
    | _ => .ok none

/-- The type that the context of an expression expects, given the types of expressions. -/
def expectedTypeWith? (a : Analysis) (typeOf : NodeId → Except SemanticError DataType)
    (id : NodeId) : Except SemanticError (Option DataType) :=
  match a.tree.parent? id with
  | none => .ok none
  | some parent =>
    match a.tree.construct? parent with
    | some (.localDecl type _) => if type.isVar then .ok none else some <$> a.resolveType type
    | some (.field type _ _) => some <$> a.resolveType type
    | some (.returnStmt _) => some <$> a.enclosingReturnType parent
    | some (.yieldStmt _) => do
      let type ← a.enclosingReturnType parent
      match type.element? with
      | some element => pure (some element)
      | none => .error (.notASequence type.text (a.tree.spanOf parent))
    | some (.assign _ target value) =>
      if value = id then some <$> typeOf target else .ok none
    | some (.call callee args) => a.argumentTypeWith? typeOf callee args id
    | _ => .ok none

/-- The type of an expression with the type that its context expects, given the types of
expressions. -/
def typeInfoWith (a : Analysis) (typeOf : NodeId → Except SemanticError DataType) (id : NodeId) :
    Except SemanticError TypeInfo := do
  let type ← typeOf id
  let expected ← a.expectedTypeWith? typeOf id
  pure ⟨type, expected.getD type⟩

/-- What a name or a member stands for, given the types of expressions. -/
def symbolKindWith (a : Analysis) (typeOf : NodeId → Except SemanticError DataType) (id : NodeId) :
    Option SymbolKind :=
  match a.tree.construct? id with
  | some (.ident name) =>
    match a.binding? id with
    | some (.declared ..) => some .localVar
    | some (.parameter ..) => some .parameter
    | none =>
      match a.enclosingMember? id name.name with
      | some m => some m.kind
      | none =>
        if (a.declarations.function? name.name).isSome then some .function
        else if a.declarations.hasClass name.name then some .classType
        else none
  | some (.member object name) =>
    match typeOf object with
    | .error _ => none
    | .ok type =>
      match a.classMember? type name.name with
      | some m => some m.kind
      | none => if hasLengthProperty type name.name then some .property else none
  | _ => none

theorem typeInfoWith_typeOf (a : Analysis) : a.typeInfoWith a.typeOf = a.typeInfo := rfl

theorem symbolKindWith_typeOf (a : Analysis) : a.symbolKindWith a.typeOf = a.symbolKind := rfl

end Analysis

/-- The walk up from a node ends before it has met as many nodes as there are. -/
theorem SyntaxTree.WellFormed.climb_eq_ancestors {t : SyntaxTree} (h : t.WellFormed) {n : Nat}
    (hn : t.size ≤ n) (i : NodeId) : t.climb n i = t.ancestors i := by
  rcases Nat.lt_or_ge i t.size with hi | hi
  · exact climb_eq_of_length_lt t (h.length_climb_lt hi t.size) hn
  · have hnil : ∀ limit, t.climb limit i = [] := by
      intro limit
      cases limit with
      | zero => rfl
      | succ limit => rw [climb, parent?_of_size_le hi]
    rw [ancestors, hnil, hnil]

/-! ## 2. Earlier in the table, earlier in the text -/

namespace SyntaxTree.Nested

variable {t : SyntaxTree} (h : t.Nested)
include h

/-- What is below a node lies inside its span. -/
theorem inside_of_under {k m : NodeId} (hk : t.InTree k) (hm : Under t [k] m) :
    (t.spanOf k).offset ≤ (t.spanOf m).offset ∧ (t.spanOf m).stop ≤ (t.spanOf k).stop := by
  induction hm with
  | root hi =>
    rw [List.mem_singleton.mp hi]
    exact ⟨Nat.le_refl _, Nat.le_refl _⟩
  | @child p m hp hi ih =>
    have hin : t.InTree p := hp.mono fun j hj => by
      rw [List.mem_singleton.mp hj]
      exact hk
    obtain ⟨hoff, hstop⟩ := h.inside hin hi
    exact ⟨Nat.le_trans ih.1 hoff, Nat.le_trans hstop ih.2⟩

/-- **Of two nodes neither of which is below the other, the one that comes earlier in the table ends
before the other begins.** -/
theorem stop_le_offset {lo hi : Nat} {ids : List NodeId} (hg : Grown t lo hi ids)
    (hids : ∀ k ∈ ids, t.InTree k)
    (hapart : ids.Pairwise fun a b => (t.spanOf a).stop ≤ (t.spanOf b).offset) {i u : Nat}
    (hi : Under t ids i) (hu : Under t ids u) (hlt : i < u) (hno : ¬ Under t [u] i) :
    (t.spanOf i).stop ≤ (t.spanOf u).offset := by
  -- along the forest: both lie in its first tree, or one of them does, or none
  induction hg with
  | nil _ =>
    obtain ⟨r, hr, -⟩ := hi.exists_root
    cases hr
  | @cons lo hi' id ids c hc _ hk htail ihk ih =>
    have hid := hids id (List.mem_cons_self ..)
    obtain ⟨hfirst, hrest⟩ := List.pairwise_cons.mp hapart
    have hcases : ∀ {j : Nat}, Under t (id :: ids) j → Under t [id] j ∨ Under t ids j := by
      intro j hj
      obtain ⟨r, hr, hrj⟩ := hj.exists_root
      rcases List.mem_cons.mp hr with rfl | hr
      · exact .inl hrj
      · exact .inr (hrj.mono fun k hk => .root (by rwa [List.mem_singleton.mp hk]))
    have hkids := children_of_construct? hc
    have hfirst_le : ∀ {j : Nat}, Under t [id] j → j ≤ id := by
      intro j hj
      rcases Under.cases_root hj with rfl | hj
      · exact Nat.le_refl _
      · rw [hkids] at hj
        exact Nat.le_of_lt (hk.under_mem hj).2
    rcases hcases hi, hcases hu with ⟨hi | hi, hu | hu⟩
    · rcases Under.cases_root hu with rfl | hu'
      · exact absurd hi hno
      rcases Under.cases_root hi with rfl | hi'
      · exact absurd (hfirst_le hu) (Nat.not_le.mpr hlt)
      rw [hkids] at hi' hu'
      refine ihk (fun k hmem => hid.slot hc hmem) ?_ hi' hu'
      rw [← hkids]
      exact h.apart hid
    · obtain ⟨r, hr, hu⟩ := hu.exists_root
      calc (t.spanOf i).stop ≤ (t.spanOf id).stop := (h.inside_of_under hid hi).2
        _ ≤ (t.spanOf r).offset := hfirst r hr
        _ ≤ (t.spanOf u).offset :=
          (h.inside_of_under (hids r (List.mem_cons_of_mem _ hr)) hu).1
    · have hle := (htail.under_mem hi).1
      have hule := hfirst_le hu
      omega
    · exact ih (fun k hk => hids k (List.mem_cons_of_mem _ hk)) hrest hi hu

end SyntaxTree.Nested

/-! ## 3. What a binding names -/

/-- The binding leads to a variable or a parameter of this name. -/
def Binding.Names (t : SyntaxTree) (name : String) : Binding → Prop
  | declared decl index => ∃ type vars var,
      t.construct? decl = some (.localDecl type vars) ∧ vars[index]? = some var ∧
        var.name.name = name
  | parameter function index => ∃ type called params body p,
      t.construct? function = some (.function type called params body) ∧
        params[index]? = some p ∧ p.name.name = name

namespace SyntaxTree

variable {t : SyntaxTree}

/-- Each name is paired with a binding that names it. -/
def Named (t : SyntaxTree) (scope : List (String × Binding)) : Prop := ∀ p ∈ scope, p.2.Names t p.1

theorem named_nil : t.Named [] := fun _ hp => nomatch hp

theorem named_variablesOf {decl : NodeId} {type : WrittenType} {vars all : List Declarator}
    (hc : t.construct? decl = some (.localDecl type all)) (hvars : vars <+: all) :
    t.Named (variablesOf decl vars) := by
  intro p hp
  obtain ⟨index, hindex, rfl⟩ := List.mem_mapIdx.mp hp
  obtain ⟨rest, rfl⟩ := hvars
  refine ⟨type, _, vars[index], hc, ?_, rfl⟩
  rw [List.getElem?_append_left hindex, List.getElem?_eq_getElem hindex]

theorem named_parametersOf {function body : NodeId} {type : WrittenType} {name : Ident}
    {params : List Param} (hc : t.construct? function = some (.function type name params body)) :
    t.Named (parametersOf function params) := by
  intro p hp
  obtain ⟨index, hindex, rfl⟩ := List.mem_mapIdx.mp hp
  exact ⟨type, name, params, body, params[index], hc, List.getElem?_eq_getElem hindex, rfl⟩

theorem named_declaredBy (stmts : List NodeId) : t.Named (stmts.flatMap t.declaredBy) := by
  intro p hp
  obtain ⟨stmt, -, hp⟩ := List.mem_flatMap.mp hp
  unfold declaredBy at hp
  split at hp
  · rename_i hc
    exact named_variablesOf hc (List.prefix_refl _) p hp
  · cases hp

/-- The scopes on a way up hold names with bindings that name them. -/
theorem named_scopesAlong : ∀ {above : List NodeId} {own : List (String × Binding)} {node : NodeId},
    t.Named own → ∀ scope ∈ t.scopesAlong own node above, t.Named scope
  | [], _, _, _, scope, hs => by cases hs
  | parent :: above, own, node, hown, scope, hs => by
    have hup : ∀ scope ∈ t.scopesAlong [] parent above, t.Named scope := named_scopesAlong named_nil
    have hcons : ∀ {first}, t.Named first → scope ∈ first :: t.scopesAlong [] parent above →
        t.Named scope := by
      intro first hfirst hs
      rcases List.mem_cons.mp hs with rfl | hs
      · exact hfirst
      · exact hup scope hs
    have hstmts : ∀ {stmts : List NodeId}, t.Named (stmts.flatMap t.declaredBy ++ own) := by
      intro stmts p hp
      rcases List.mem_append.mp hp with hp | hp
      · exact named_declaredBy stmts p hp
      · exact hown p hp
    have hbody : ∀ {condition : NodeId}, (scope ∈ if node = condition then
        t.scopesAlong [] parent above else own :: t.scopesAlong [] parent above) → t.Named scope := by
      intro condition hs
      split at hs
      · exact hup scope hs
      · exact hcons hown hs
    unfold scopesAlong at hs
    split at hs <;> rename_i hc
    · exact hcons hstmts hs
    · exact hcons hstmts hs
    · exact named_scopesAlong (named_variablesOf hc (List.takeWhile_prefix _)) scope hs
    · exact hbody hs
    · exact hbody hs
    · exact hbody hs
    · rw [List.mem_singleton.mp hs]
      exact named_parametersOf hc
    · cases hs
    · exact hup scope hs

/-- **What a name resolves to has this name.** -/
theorem names_of_resolve {u : NodeId} {name : String} {binding : Binding}
    (h : t.resolve u name = some binding) : binding.Names t name := by
  obtain ⟨scope, hscope, hlookup⟩ := List.exists_of_findSome?_eq_some h
  obtain ⟨l₁, l₂, rfl, -⟩ := List.lookup_eq_some_iff.mp hlookup
  exact named_scopesAlong named_nil _ hscope (name, binding) (by simp)

end SyntaxTree

namespace Analysis

variable {a : Analysis} {f : NodeId → Except SemanticError DataType}

theorem resolveType_ne_notAnExpression {type : WrittenType} {span : Span} :
    a.resolveType type ≠ .error (.notAnExpression span) := by
  unfold resolveType
  split <;> simp

/-- The type of a binding that names something is no expression only if its initializer is none. -/
theorem exists_of_bindingTypeWith_eq_error {binding : Binding} {name : String} {span : Span}
    (hn : binding.Names a.tree name) (h : a.bindingTypeWith f binding = .error (.notAnExpression span)) :
    ∃ init, a.inferredFrom? binding = some init ∧ f init = .error (.notAnExpression span) := by
  cases binding with
  | parameter function index =>
    obtain ⟨type, called, params, body, p, hc, hp, -⟩ := hn
    simp only [bindingTypeWith, hc, hp] at h
    exact absurd h resolveType_ne_notAnExpression
  | declared decl index =>
    obtain ⟨type, vars, var, hc, -⟩ := hn
    simp only [bindingTypeWith, hc] at h
    split at h
    · exact absurd h resolveType_ne_notAnExpression
    · rename_i hvar
      split at h
      · rename_i init hinit
        refine ⟨init, ?_, h⟩
        simp only [inferredFrom?, hc]
        rw [if_pos (by simpa using hvar), hinit]
      · cases h

/-! ## 4. All questions -/

/-- Every question about types comes to an end, and every binding names what it is bound to. -/
structure QueriesEnd (a : Analysis) : Prop where
  /-- The type of a node is made from the types that it asks for, and from no others. -/
  asked : ∀ i f g, (∀ j ∈ a.asks i, f j = g j) → a.typeOfWith f i = a.typeOfWith g i
  /-- Following what is asked for, from a name to the initializer of its variable too, never comes
  back. -/
  noReturn : ∀ u, ¬ TransGen (fun i j => j ∈ a.asks i) u u
  /-- The types are those that the search gives without a bound. -/
  unbounded : ∀ i, a.typeOf i = a.typeOfWith a.typeOf i
  /-- No answer depends on what the search says after as many steps as there are nodes. -/
  typeOf_ends : ∀ n, a.tree.size ≤ n → ∀ f i, (a.typeOfWith^[n] f) i = a.typeOf i
  typeInfo_ends : ∀ n, a.tree.size ≤ n → ∀ f i, a.typeInfoWith (a.typeOfWith^[n] f) i = a.typeInfo i
  symbolKind_ends : ∀ n, a.tree.size ≤ n → ∀ f i,
    a.symbolKindWith (a.typeOfWith^[n] f) i = a.symbolKind i
  /-- The walks up, to the class and to the function around a node, end as well. -/
  ancestors_end : ∀ n, a.tree.size ≤ n → ∀ i, a.tree.climb n i = a.tree.ancestors i
  /-- The initializer that the type of a name is taken from lies before the name in the text. -/
  before : ∀ u binding init, a.binding? u = some binding → a.inferredFrom? binding = some init →
    (a.tree.spanOf init).stop ≤ (a.tree.spanOf u).offset
  /-- A binding leads to a variable or a parameter of the same name. -/
  names : ∀ u binding, a.binding? u = some binding →
    ∃ name, a.tree.construct? u = some (.ident name) ∧ binding.Names a.tree name.name
  /-- The type of a binding is no expression only if its initializer is none. -/
  noFallback : ∀ u binding f span, a.binding? u = some binding →
    a.bindingTypeWith f binding = .error (.notAnExpression span) →
    ∃ init, a.inferredFrom? binding = some init ∧ f init = .error (.notAnExpression span)

section Program

variable {t : SyntaxTree} (ht : t.Rooted)
  (hres : ∀ {u binding}, (ofTree t).binding? u = some binding →
    t.InTree u ∧ ∃ name, t.construct? u = some (.ident name) ∧ t.resolve u name.name = some binding)
include ht hres

/-- An initializer that the type of a name is taken from lies before the name. -/
theorem initializer_before (hnest : t.Nested) {u init : NodeId} {binding : Binding}
    (hb : (ofTree t).binding? u = some binding)
    (hinit : (ofTree t).inferredFrom? binding = some init) :
    (t.spanOf init).stop ≤ (t.spanOf u).offset := by
  obtain ⟨hu, name, hc, -⟩ := hres hb
  obtain ⟨hlt, hin⟩ := lt_of_inferredFrom? ht hb hinit
  refine hnest.stop_le_offset ht.grown (fun k hk => ?_) (List.pairwise_singleton _ _) hin hu hlt
    fun hunder => ?_
  · rw [List.mem_singleton.mp hk]
    exact SyntaxTree.inTree_root _
  · -- a name has nothing below it
    rcases Under.cases_root hunder with he | hbelow
    · exact Nat.ne_of_lt hlt he
    · rw [SyntaxTree.children_of_construct? hc] at hbelow
      obtain ⟨r, hr, -⟩ := hbelow.exists_root
      cases hr

/-- **Where names are bound to what they resolve to, questions about types come to an end.** -/
theorem queriesEnd_ofTree (hwf : t.WellFormed) (hlt : ∀ p k : Nat, k ∈ t.children p → k < p)
    (hnest : t.Nested) : (ofTree t).QueriesEnd := by
  have hnames : ∀ {u binding}, (ofTree t).binding? u = some binding →
      ∃ name, t.construct? u = some (.ident name) ∧ binding.Names t name.name := by
    intro u binding hb
    obtain ⟨-, name, hc, hres⟩ := hres hb
    exact ⟨name, hc, SyntaxTree.names_of_resolve hres⟩
  have htypes : ∀ {n : Nat}, t.size ≤ n → ∀ f, (ofTree t).typeOfWith^[n] f = (ofTree t).typeOf :=
    fun hn f => iterate_typeOfWith ht hlt hn
  exact {
    asked := fun i f g h => typeOfWith_of_asks h
    noReturn := fun u hu => Nat.lt_irrefl u (lt_of_transGen_asks ht hlt hu)
    unbounded := typeOf_eq_typeOfWith ht hlt
    typeOf_ends := fun n hn f i => by rw [htypes hn]
    typeInfo_ends := fun n hn f i => by rw [htypes hn, typeInfoWith_typeOf]
    symbolKind_ends := fun n hn f i => by rw [htypes hn, symbolKindWith_typeOf]
    ancestors_end := fun n hn i => hwf.climb_eq_ancestors hn i
    before := fun u binding init => initializer_before ht hres hnest
    names := fun u binding => hnames
    noFallback := fun u binding f span hb => by
      obtain ⟨name, -, hn⟩ := hnames hb
      exact exists_of_bindingTypeWith_eq_error hn }

end Program

end Analysis

/-- **Questions about types come to an end, whatever the text is**, and every binding names what it is
bound to. -/
theorem parseLenient_queriesEnd (text : String) :
    (Analysis.ofTree (parseLenient text).1).QueriesEnd := by
  have hlt := (parseLenient_slotted text).lt
  exact Analysis.queriesEnd_ofTree (parseLenient_rooted text) (parseLenient_resolves text)
    (parseLenient_wellFormed text) hlt (parseLenient_nested text)

end Recast
