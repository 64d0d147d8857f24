/-
# Types around a new statement

A statement of a program gives its place to another one that declares the same names with the same
types (`Retypes`).  Then every expression that is kept has the type that it had, or fails to have one
for the same reason, and its context expects what it expected.

* `Moves.declarations_eq`, `Moves.enclosing_kept`: classes, functions and what is around a node stay;
* `Retypes.typeOfTo_kept`, `Retypes.expectedType?_kept`: **what is kept has its types**;
* `Retypes.typeOfTo_copy`: a copy has the type of the original.
-/
import Recast.Proofs.Semantics.Rebind
import Recast.Proofs.Semantics.TypeSearch
import Recast.Proofs.Semantics.Types

namespace Recast

open SyntaxTree (Rewrites Kept Under)

/-! ## 1. What is around a node -/

namespace SyntaxTree

variable {t : SyntaxTree} {i p : NodeId}

/-- More steps do not lead further up once the way has ended. -/
theorem climb_eq_of_length_lt (t : SyntaxTree) : ∀ {limit limit' : Nat} {i : NodeId},
    (t.climb limit i).length < limit → limit ≤ limit' → t.climb limit' i = t.climb limit i
  | 0, _, _, h, _ => absurd h (Nat.not_lt_zero _)
  | limit + 1, 0, _, _, h => absurd h (Nat.not_succ_le_zero _)
  | limit + 1, limit' + 1, i, h, hle => by
    unfold climb at h ⊢
    split
    · rfl
    · rename_i q hq
      rw [hq] at h
      rw [climb_eq_of_length_lt t (Nat.lt_of_succ_lt_succ h) (Nat.le_of_succ_le_succ hle)]

theorem WellFormed.ancestors_of_parent (h : t.WellFormed) (hp : t.parent? i = some p) :
    t.ancestors i = p :: t.ancestors p := by
  have hi : i < t.size := lt_size_of_up hp
  obtain ⟨m, hm⟩ := Nat.exists_eq_add_one_of_ne_zero (Nat.ne_zero_of_lt hi)
  have hlen := h.length_climb_lt hi (m + 1)
  have hstep : t.climb (m + 1) i = p :: t.climb m p := by
    rw [climb, hp]
  rw [hstep, hm] at hlen
  rw [ancestors, ancestors, hm, hstep,
    climb_eq_of_length_lt t (Nat.lt_of_succ_lt_succ hlen) (Nat.le_succ m)]

/-- The innermost node of a kind around a node. -/
def enclosing? (t : SyntaxTree) (P : Construct → Bool) (id : NodeId) : Option NodeId :=
  (t.ancestors id).find? fun a => (t.construct? a).any P

/-- A node that is not of the kind is passed on the way up. -/
theorem WellFormed.enclosing?_of_parent (h : t.WellFormed) {P : Construct → Bool}
    (hp : t.parent? i = some p) :
    t.enclosing? P i = if (t.construct? p).any P then some p else t.enclosing? P p := by
  rw [enclosing?, h.ancestors_of_parent hp, List.find?_cons, enclosing?]
  split <;> simp_all

/-- All nodes below one that has no node of the kind below it have the same around them. -/
theorem WellFormed.enclosing?_of_under (h : t.WellFormed) {P : Construct → Bool} {a : NodeId}
    (hnot : ∀ j, Under t [a] j → (t.construct? j).any P = false) (hi : Under t [a] i) :
    t.enclosing? P i = t.enclosing? P a := by
  induction hi with
  | root hi => rw [List.mem_singleton.mp hi]
  | @child q i hq hi ih =>
    rw [h.enclosing?_of_parent ((h.links i q).mpr hi), hnot q hq]
    exact ih

end SyntaxTree

namespace Moves

variable {t u : SyntaxTree} {o n s : NodeId} {P : Construct → Bool}

/-- **What is around a node that is kept stays.** -/
theorem enclosing_kept (h : Moves t u o n s) (hP : ∀ c f, P (Construct.mapNodes f c) = P c)
    {i : NodeId} (hi : Kept t o i) : u.enclosing? P i = t.enclosing? P i := by
  obtain ⟨hin, hno⟩ := hi
  induction hin with
  | root hr =>
    have htop := h.rewrites.before.top
    have htop' := h.rewrites.after.top
    rw [List.mem_singleton.mp hr]
    rw [h.rewrites.root_eq] at htop'
    have hnil : ∀ {t : SyntaxTree} {r : NodeId}, t.parent? r = none → t.enclosing? P r = none := by
      intro t r hr
      cases hs : t.size with
      | zero => simp [SyntaxTree.enclosing?, SyntaxTree.ancestors, hs, SyntaxTree.climb]
      | succ m => simp [SyntaxTree.enclosing?, SyntaxTree.ancestors, hs, SyntaxTree.climb, hr]
    rw [hnil htop, hnil htop']
  | @child q i hq hi ih =>
    have hlink := (h.rewrites.before.links i q).mpr hi
    have hkept := h.rewrites.kept_parent ⟨.child hq hi, hno⟩ hlink
    have hlink' : u.parent? i = some q :=
      (h.rewrites.parent_kept ⟨.child hq hi, hno⟩).trans hlink
    obtain ⟨c, hc⟩ := h.rewrites.exists_construct hkept
    rw [h.rewrites.before.enclosing?_of_parent hlink, h.rewrites.after.enclosing?_of_parent hlink',
      ih hkept.2, hc, h.rewrites.construct_eq q c hkept hc, Option.any_some, Option.any_some, hP]

/-- **What is around the new statement is what was around the old one.** -/
theorem enclosing_moved (h : Moves t u o n s) (hP : ∀ c f, P (Construct.mapNodes f c) = P c)
    (hold : ∀ i, Under t [o] i → (t.construct? i).any P = false)
    (hnew : ∀ j, Under u [n] j → (u.construct? j).any P = false) {i j : NodeId}
    (hi : Under t [o] i) (hj : Under u [n] j) : u.enclosing? P j = t.enclosing? P i := by
  obtain ⟨p, hp, -⟩ := h.placed
  have hkept := h.rewrites.kept_above hp
  obtain ⟨c, hc⟩ := h.rewrites.exists_construct hkept
  rw [h.rewrites.before.enclosing?_of_under hold hi, h.rewrites.after.enclosing?_of_under hnew hj,
    h.rewrites.before.enclosing?_of_parent hp,
    h.rewrites.after.enclosing?_of_parent (h.rewrites.parent_new hp), h.enclosing_kept hP hkept, hc,
    h.rewrites.construct_eq p c hkept hc, Option.any_some, Option.any_some, hP]

end Moves

/-! ## 2. Declarations -/

theorem Declarations.add_of_isStatement {t : SyntaxTree} {d : Declarations} {id : NodeId}
    (h : t.isStatement id = true) : Declarations.add t d id = d := by
  unfold Declarations.add
  split
  · rename_i hc
    simp [SyntaxTree.isStatement, hc, Construct.isStatement] at h
  · rename_i hc
    simp [SyntaxTree.isStatement, hc, Construct.isStatement] at h
  · rfl

namespace Moves

variable {t u : SyntaxTree} {o n s : NodeId} (h : Moves t u o n s)
include h

theorem isStatement_new : u.isStatement n = true := by
  obtain ⟨p, -, ⟨-, rfl⟩ | ⟨-, hn⟩⟩ := h.placed
  · exact h.walks.new
  · simp [SyntaxTree.isStatement, hn, Construct.isStatement]

theorem memberOf?_eq {id : NodeId} (hid : Kept t o id) :
    Declarations.memberOf? u id = Declarations.memberOf? t id := by
  obtain ⟨c, hc⟩ := h.rewrites.exists_construct hid
  unfold Declarations.memberOf?
  rw [hc, h.rewrites.construct_eq id c hid hc]
  cases c <;> rfl

theorem add_eq {id : NodeId} (hid : Kept t o id) (d : Declarations) :
    Declarations.add u d id = Declarations.add t d id := by
  obtain ⟨c, hc⟩ := h.rewrites.exists_construct hid
  unfold Declarations.add
  rw [hc, h.rewrites.construct_eq id c hid hc]
  cases c with
  | classDecl name members =>
    have hno : o ∉ members := h.undeclared hid.1 hc (.inr rfl)
    have hmap : members.map (Declarations.memberOf? u) = members.map (Declarations.memberOf? t) := by
      refine List.map_congr_left fun k hk => h.memberOf?_eq (h.rewrites.kept_child hid ?_ ?_)
      · rwa [SyntaxTree.children_of_construct? hc]
      · exact fun he => hno (he ▸ hk)
    have hmembers : members.filterMap (Declarations.memberOf? u) =
        members.filterMap (Declarations.memberOf? t) := by
      have hsome := congrArg (List.filterMap fun m => m) hmap
      rw [List.filterMap_map, List.filterMap_map] at hsome
      exact hsome
    simp only [Construct.mapNodes, map_substNode_of_not_mem hno, hmembers]
  | _ => rfl

/-- **The declarations of the program stay.** -/
theorem declarations_eq : Declarations.ofTree u = Declarations.ofTree t := by
  have hroot := h.rewrites.kept_root
  have hstep : ∀ k ∈ t.children t.root, ∀ d,
      Declarations.add u d (substNode o n k) = Declarations.add t d k := by
    intro k hk d
    by_cases hko : k = o
    · rw [hko, substNode_self, Declarations.add_of_isStatement h.isStatement_new,
        Declarations.add_of_isStatement h.walks.old]
    · rw [substNode_of_ne hko]
      exact h.add_eq (h.rewrites.kept_child hroot hk hko) d
  have hall : ∀ {ids : List NodeId} {d : Declarations}, (∀ k ∈ ids, ∀ d,
      Declarations.add u d (substNode o n k) = Declarations.add t d k) →
      (ids.map (substNode o n)).foldl (Declarations.add u) d = ids.foldl (Declarations.add t) d := by
    intro ids
    induction ids with
    | nil => exact fun _ => rfl
    | cons k ids ih =>
      intro d hids
      rw [List.map_cons, List.foldl_cons, List.foldl_cons, hids k (List.mem_cons_self ..) d]
      exact ih fun j hj => hids j (List.mem_cons_of_mem _ hj)
  unfold Declarations.ofTree
  rw [h.rewrites.root_eq, h.rewrites.children_eq hroot]
  exact hall hstep

end Moves

namespace Analysis

variable {a a' : Analysis}

mutual

/-- Whether a written type is known depends on the declarations only. -/
theorem unknown?_congr (h : a'.declarations = a.declarations) :
    ∀ w : WrittenType, a'.unknown? w = a.unknown? w
  | ⟨name, args, rank, span⟩ => by
    rw [unknown?, unknown?, isKnown, isKnown, h, unknownAmong?_congr h args]

theorem unknownAmong?_congr (h : a'.declarations = a.declarations) :
    ∀ ws : List WrittenType, a'.unknownAmong? ws = a.unknownAmong? ws
  | [] => rfl
  | w :: ws => by
    rw [unknownAmong?, unknownAmong?, unknown?_congr h w, unknownAmong?_congr h ws]

end

variable (h : a'.declarations = a.declarations)
include h

theorem resolveType_congr (w : WrittenType) : a'.resolveType w = a.resolveType w := by
  rw [resolveType, resolveType, unknown?_congr h]

theorem classMember?_congr (type : DataType) (name : String) :
    a'.classMember? type name = a.classMember? type name := by
  rw [classMember?, classMember?, h]

end Analysis

/-! ## 3. Types that are kept -/

/-- The statement `s` does what `o` did, and a variable that it declares has the type that the one of
`o` had. -/
structure Retypes (t u : SyntaxTree) (o n s : NodeId) (type : DataType) : Prop where
  moves : Moves t u o n s
  rooted : t.Rooted
  exprs : ∀ {e c}, t.InTree e → t.construct? e = some c → c.isExpression = true → ¬ Under t [e] o
  inside : ∀ {i}, Under t [o] i → i = o ∨ t.isExpression i = true
  fresh : ∀ {j}, Under u [n] j → u.isStatement j = true ∨ u.isExpression j = true
  named : (Analysis.ofTree t).resolveType (.ofDataType type) = .ok type
  declares : ∀ {w vars}, t.construct? o = some (.localDecl w vars) → ∃ name init name' k v,
    vars = [⟨name, some init⟩] ∧
    (if w.isVar then (Analysis.ofTree t).typeOf init else (Analysis.ofTree t).resolveType w) =
      .ok type ∧
    u.construct? s = some (.localDecl (.ofDataType type) [⟨name', some k⟩]) ∧
    u.construct? k = some (.cast (.ofDataType type) v)

/-- A node that is kept, and does not have the old one below it. -/
def Apart (t : SyntaxTree) (o i : NodeId) : Prop := Kept t o i ∧ ¬ Under t [i] o

/-- Answers `f` and `g` to what the types of nodes are in two programs: before the node `k` they agree
on what is apart from the statement and the first are those of the program, and the cast to the type
has the type. -/
structure Answers (t u : SyntaxTree) (o : NodeId) (type : DataType) (k : Nat)
    (f g : NodeId → Except SemanticError DataType) : Prop where
  apart : ∀ j : Nat, j < k → Apart t o j → g j = f j
  typed : ∀ j : Nat, j < k → t.InTree j → f j = (Analysis.ofTree t).typeOf j
  cast : 0 < k → ∀ j v, u.construct? j = some (.cast (.ofDataType type) v) → g j = .ok type

/-- What a function returns. -/
def Analysis.returnTypeOf (a : Analysis) (unknown : SemanticError) (function : NodeId) :
    Except SemanticError DataType :=
  match a.tree.construct? function with
  | some (.function returnType _ _ _) => a.resolveType returnType
  | _ => .error unknown

/-- If there is a type that a function returns, it does not matter what is said where there is none. -/
theorem Analysis.returnTypeOf_eq_ok {a : Analysis} {unknown unknown' : SemanticError}
    {function : NodeId} {T : DataType} (h : a.returnTypeOf unknown function = .ok T) :
    a.returnTypeOf unknown' function = .ok T := by
  unfold returnTypeOf at h ⊢
  split at h
  · exact h
  · cases h

namespace Retypes

open Analysis (ofTree)
open Declarations (Declared)

variable {t u : SyntaxTree} {o n s : NodeId} {type : DataType} (h : Retypes t u o n s type)
include h

theorem apart_child {i k : NodeId} (hi : Apart t o i) (hk : k ∈ t.children i) : Apart t o k := by
  have hno : ¬ Under t [k] o := fun hu => hi.2 (hu.mono fun j hj => by
    rw [List.mem_singleton.mp hj]
    exact .child (.root (List.mem_singleton_self _)) hk)
  refine ⟨h.moves.rewrites.kept_child hi.1 hk ?_, hno⟩
  rintro rfl
  exact hno (.root (List.mem_singleton_self _))

theorem construct_apart {i : NodeId} (hi : Apart t o i) : u.construct? i = t.construct? i :=
  h.moves.rewrites.construct?_below hi.1 hi.2 (.root (List.mem_singleton_self _))

theorem span_kept {i : NodeId} (hi : Kept t o i) : u.spanOf i = t.spanOf i :=
  h.moves.rewrites.span_eq i (h.moves.rewrites.lt_size_of_kept hi)

/-- What is below the old statement is in the program. -/
theorem inTree_of_under {i : NodeId} (hi : Under t [o] i) : t.InTree i :=
  hi.mono fun k hk => by
    rw [List.mem_singleton.mp hk]
    exact h.moves.rewrites.inTree

/-- An expression is apart from the statement. -/
theorem apart_of_isExpression {i : NodeId} {c : Construct} (hi : Kept t o i)
    (hc : t.construct? i = some c) (he : c.isExpression = true) : Apart t o i :=
  ⟨hi, h.exprs hi.1 hc he⟩

/-- A declaration is kept. -/
theorem kept_of_declared {i : NodeId} (hi : Declared t i) : Kept t o i := by
  refine ⟨hi.1, fun hu => ?_⟩
  rcases h.inside hu with rfl | he
  · exact absurd (hi.2.1.symm.trans h.moves.walks.old) (by simp)
  · exact absurd (hi.2.2.symm.trans he) (by simp)

theorem construct_declared {i : NodeId} (hi : Declared t i) :
    u.construct? i = (t.construct? i).map (Construct.mapNodes (substNode o n)) := by
  obtain ⟨c, hc⟩ := h.moves.rewrites.exists_construct (h.kept_of_declared hi)
  rw [hc, h.moves.rewrites.construct_eq i c (h.kept_of_declared hi) hc]
  rfl

theorem declarations : (ofTree u).declarations = (ofTree t).declarations := h.moves.declarations_eq

theorem resolveType (w : WrittenType) : (ofTree u).resolveType w = (ofTree t).resolveType w :=
  Analysis.resolveType_congr h.declarations w

theorem memberValueType {m : ClassMember} (hm : Declared t m.node) (span : Span) :
    (ofTree u).memberValueType m span = (ofTree t).memberValueType m span := by
  unfold Analysis.memberValueType
  rw [show (ofTree u).tree.construct? m.node = _ from h.construct_declared hm]
  have htree : (ofTree t).tree.construct? m.node = t.construct? m.node := rfl
  rw [htree]
  cases t.construct? m.node with
  | none => rfl
  | some c =>
    cases c with
    | field w _ _ | property w _ _ => exact h.resolveType w
    | _ => rfl

theorem memberType (T : DataType) (name : Ident) :
    (ofTree u).memberType T name = (ofTree t).memberType T name := by
  unfold Analysis.memberType
  rw [Analysis.classMember?_congr h.declarations]
  split
  · rename_i hm
    exact h.memberValueType (TypesIn.declared_of_classMember? hm) _
  · rfl

/-- The declaration that is found from equal surroundings. -/
theorem enclosing_construct {P : Construct → Bool}
    (hP : ∀ c, P c = true → c.isStatement = false ∧ c.isExpression = false) {i j : NodeId}
    (hin : t.InTree i) (he : u.enclosing? P j = t.enclosing? P i) :
    (u.enclosing? P j).bind u.construct? =
      ((t.enclosing? P i).bind t.construct?).map (Construct.mapNodes (substNode o n)) := by
  rw [he]
  cases hq : t.enclosing? P i with
  | none => rfl
  | some q =>
    have hqin : t.InTree q := h.rooted.inTree_of_mem_climb hin (List.mem_of_find?_eq_some hq)
    have hqc := List.find?_some hq
    obtain ⟨c, hc, hcc⟩ := Option.any_eq_true .. |>.mp hqc
    exact h.construct_declared (.of_construct hqin hc (hP c hcc).1 (hP c hcc).2)

/-- The member of a class that is found from equal surroundings. -/
theorem enclosingMember?_eq {i j : NodeId} (hin : t.InTree i)
    (he : u.enclosingClass? j = t.enclosingClass? i) (name : String) :
    (ofTree u).enclosingMember? j name = (ofTree t).enclosingMember? i name := by
  have hclass : ((ofTree u).tree.enclosingClass? j).bind (ofTree u).tree.construct? =
      ((t.enclosingClass? i).bind t.construct?).map (Construct.mapNodes (substNode o n)) :=
    h.enclosing_construct (fun c hc => by cases c <;> first | exact ⟨rfl, rfl⟩ | cases hc) hin he
  have htree : ((ofTree t).tree.enclosingClass? i).bind (ofTree t).tree.construct? =
      (t.enclosingClass? i).bind t.construct? := rfl
  unfold Analysis.enclosingMember?
  rw [hclass, htree, h.declarations]
  cases (t.enclosingClass? i).bind t.construct? with
  | none => rfl
  | some c => cases c <;> rfl

theorem enclosingMember?_kept {i : NodeId} (hi : Kept t o i) (name : String) :
    (ofTree u).enclosingMember? i name = (ofTree t).enclosingMember? i name :=
  h.enclosingMember?_eq hi.1 (h.moves.enclosing_kept (fun c f => by cases c <;> rfl) hi) name

/-- A cast to the type has the type. -/
theorem typeOfWith_cast {g : NodeId → Except SemanticError DataType} {k v : NodeId}
    (hk : u.construct? k = some (.cast (.ofDataType type) v)) :
    (ofTree u).typeOfWith g k = .ok type := by
  unfold Analysis.typeOfWith
  rw [show (ofTree u).tree.construct? k = _ from hk]
  exact (h.resolveType _).trans h.named

/-- Whether there is a value does not depend on where it is asked for. -/
theorem memberValueType_eq_ok {m : ClassMember} (hm : Declared t m.node) {span span' : Span}
    {T : DataType} (hT : (ofTree t).memberValueType m span = .ok T) :
    (ofTree u).memberValueType m span' = .ok T := by
  rw [h.memberValueType hm]
  unfold Analysis.memberValueType at hT ⊢
  cases hc : (ofTree t).tree.construct? m.node with
  | none =>
    rw [hc] at hT
    cases hT
  | some c =>
    rw [hc] at hT
    cases c with
    | field _ _ _ | property _ _ _ => exact hT
    | _ => cases hT

theorem returnTypeOf {function : NodeId} (hd : Declared t function) (unknown : SemanticError) :
    (ofTree u).returnTypeOf unknown function = (ofTree t).returnTypeOf unknown function := by
  unfold Analysis.returnTypeOf
  rw [show (ofTree u).tree.construct? function = _ from h.construct_declared hd,
    show (ofTree t).tree.construct? function = t.construct? function from rfl]
  cases t.construct? function with
  | none => rfl
  | some c =>
    cases c with
    | function w _ _ _ => exact h.resolveType w
    | _ => rfl

/-! What a name is bound to has the type that it had, where the types of other nodes are answered by
`f` and `g`. -/

section Binding

variable {f g : NodeId → Except SemanticError DataType} {k : Nat}

theorem bindingTypeWith_parameter {function : NodeId} {index : Nat}
    (hb : (Binding.parameter function index).Declares t k) :
    (ofTree u).bindingTypeWith g (.parameter function index) =
      (ofTree t).bindingTypeWith f (.parameter function index) := by
  obtain ⟨hin, w, name, params, body, p, hc, hp⟩ := hb
  have hdecl : Declared t function := .of_construct hin hc rfl rfl
  have hc' := h.construct_declared hdecl
  rw [hc] at hc'
  have htree : (ofTree t).tree.construct? function = some (.function w name params body) := hc
  have htree' : (ofTree u).tree.construct? function =
      some (.function w name params (substNode o n body)) := hc'
  simp only [Analysis.bindingTypeWith, htree, htree', hp]
  exact h.resolveType _

variable (hfg : Answers t u o type k f g)
include hfg

/-- The variable that the old statement declares, and the one of the new statement. -/
theorem bindingTypeWith_old {index : Nat} (hb : (Binding.declared o index).Declares t k) :
    (ofTree u).bindingTypeWith g (.declared s index) =
      (ofTree t).bindingTypeWith f (.declared o index) := by
  obtain ⟨hin, w, vars, var, hc, hvar, hinit⟩ := hb
  obtain ⟨name, init, name', c, v, rfl, htype, hs, hk⟩ := h.declares hc
  obtain rfl : index = 0 := by
    cases index with
    | zero => rfl
    | succ m => cases hvar
  cases hvar
  have htree : (ofTree t).tree.construct? o = some (.localDecl w [⟨name, some init⟩]) := hc
  have htree' : (ofTree u).tree.construct? s =
      some (.localDecl (.ofDataType type) [⟨name', some c⟩]) := hs
  have hlt := hinit init rfl
  have hleft : (ofTree u).bindingTypeWith g (.declared s 0) = .ok type := by
    simp only [Analysis.bindingTypeWith, htree', List.getElem?_cons_zero, Option.bind_some]
    split
    · exact (h.resolveType _).trans h.named
    · exact hfg.cast (Nat.lt_of_le_of_lt (Nat.zero_le _) hlt) c v hk
  have hright : (ofTree t).bindingTypeWith f (.declared o 0) = .ok type := by
    simp only [Analysis.bindingTypeWith, htree, List.getElem?_cons_zero, Option.bind_some]
    rw [← htype]
    cases hw : w.isVar with
    | true =>
      simp only [Bool.not_true, Bool.false_eq_true, if_false, if_true]
      exact hfg.typed init hlt (hin.slot hc (List.mem_singleton_self _))
    | false => simp only [Bool.not_false, if_true, Bool.false_eq_true, if_false]
  rw [hleft, hright]

/-- The variables of other statements. -/
theorem bindingTypeWith_other {decl : NodeId} {index : Nat} (hne : decl ≠ o)
    (hb : (Binding.declared decl index).Declares t k) :
    (ofTree u).bindingTypeWith g (.declared decl index) =
      (ofTree t).bindingTypeWith f (.declared decl index) := by
  obtain ⟨hin, w, vars, var, hc, hvar, hinit⟩ := hb
  have hkept : Kept t o decl := by
    refine ⟨hin, fun hu => ?_⟩
    rcases h.inside hu with he | he
    · exact hne he
    · simp [SyntaxTree.isExpression, hc, Construct.isExpression] at he
  have hsame : (Construct.localDecl w vars).mapNodes (substNode o n) = .localDecl w vars :=
    Construct.mapNodes_eq_self fun k hk => (h.moves.mirrors_exprs hkept hc hk).1
  have hc' := h.moves.rewrites.construct_eq decl _ hkept hc
  rw [hsame] at hc'
  have htree : (ofTree t).tree.construct? decl = some (.localDecl w vars) := hc
  have htree' : (ofTree u).tree.construct? decl = some (.localDecl w vars) := hc'
  simp only [Analysis.bindingTypeWith, htree, htree', hvar, Option.bind_some]
  split
  · exact h.resolveType _
  · split
    · rename_i init hi
      have hmem : init ∈ (Construct.localDecl w vars).exprs :=
        List.mem_filterMap.mpr ⟨var, List.mem_of_getElem? hvar, hi⟩
      have hno := h.moves.apart hin hc hmem
      refine hfg.apart init (hinit init hi) ⟨h.moves.rewrites.kept_child hkept ?_ ?_, hno⟩
      · rw [SyntaxTree.children_of_construct? hc]
        exact Construct.exprs_subset hmem
      · rintro rfl
        exact hno (.root (List.mem_singleton_self _))
    · rfl

/-- **What a name is bound to has the type that it had.** -/
theorem bindingTypeWith {binding : Binding} (hb : binding.Declares t k) :
    (ofTree u).bindingTypeWith g (binding.move o s) = (ofTree t).bindingTypeWith f binding := by
  cases binding with
  | parameter function index => exact h.bindingTypeWith_parameter hb
  | declared decl index =>
    by_cases hdo : decl = o
    · subst hdo
      rw [Binding.move, substNode_self]
      exact h.bindingTypeWith_old hfg hb
    · rw [Binding.move, substNode_of_ne hdo]
      exact h.bindingTypeWith_other hfg hdo hb

/-- **A name that means the same has the type that it had**, or fails to have one for the same reason
if it stands where it stood. -/
theorem identTypeWith {i j : Nat} (name : String) (hi : i ≤ k)
    (hb : (ofTree u).binding? j = ((ofTree t).binding? i).map (.move o s))
    (hm : (ofTree u).enclosingMember? j name = (ofTree t).enclosingMember? i name) :
    (∀ T, (ofTree t).identTypeWith f i name = .ok T → (ofTree u).identTypeWith g j name = .ok T) ∧
      (u.spanOf j = t.spanOf i →
        (ofTree u).identTypeWith g j name = (ofTree t).identTypeWith f i name) := by
  unfold Analysis.identTypeWith
  dsimp only
  rw [hb, hm, h.declarations]
  cases hbt : (ofTree t).binding? i with
  | some binding =>
    have hsame := h.bindingTypeWith hfg ((Binder.ofTree_declares h.rooted hbt).mono hi)
    exact ⟨fun T hT => hsame.trans hT, fun _ => hsame⟩
  | none =>
    simp only [Option.map_none]
    cases hmt : (ofTree t).enclosingMember? i name with
    | some m =>
      have hd := TypesIn.declared_of_enclosingMember? hmt
      refine ⟨fun T hT => h.memberValueType_eq_ok hd hT, fun hs => ?_⟩
      rw [show (ofTree u).tree.spanOf j = (ofTree t).tree.spanOf i from hs]
      exact h.memberValueType hd _
    | none =>
      refine ⟨fun T hT => ?_, fun hs => ?_⟩
      · dsimp only at hT ⊢
        split
        · rename_i hfun
          rw [if_pos hfun] at hT
          cases hT
        · rename_i hfun
          rw [if_neg hfun] at hT
          split
          · rename_i hclass
            rwa [if_pos hclass] at hT
          · rename_i hclass
            rw [if_neg hclass] at hT
            cases hT
      · rw [show (ofTree u).tree.spanOf j = (ofTree t).tree.spanOf i from hs]

end Binding

theorem calleeWith_kept {f g : NodeId → Except SemanticError DataType} {callee : NodeId}
    (hcallee : Apart t o callee)
    (hfg : ∀ object name, t.construct? callee = some (.member object name) → g object = f object) :
    (ofTree u).calleeWith g callee = (ofTree t).calleeWith f callee := by
  unfold Analysis.calleeWith
  rw [show (ofTree u).tree.construct? callee = t.construct? callee from h.construct_apart hcallee]
  rw [show (ofTree t).tree.construct? callee = t.construct? callee from rfl]
  rw [show (ofTree u).tree.spanOf callee = (ofTree t).tree.spanOf callee from h.span_kept hcallee.1]
  split
  · rw [h.enclosingMember?_kept hcallee.1, h.declarations]
  · rename_i object name hc
    rw [hfg object name hc]
    simp only [Analysis.classMember?_congr h.declarations]
  · rfl

/-- **An expression that is kept has the type that it had**, where this is so for what comes before. -/
theorem typeOfWith_kept {f g : NodeId → Except SemanticError DataType} {i : Nat} (hi : Apart t o i)
    (hfg : Answers t u o type i f g) : (ofTree u).typeOfWith g i = (ofTree t).typeOfWith f i := by
  have hchild : ∀ {c : Construct} {k : Nat}, t.construct? i = some c → k ∈ c.children →
      k < i ∧ Apart t o k := by
    intro c k hc hk
    rw [← SyntaxTree.children_of_construct? hc] at hk
    exact ⟨h.moves.descends i k hk, h.apart_child hi hk⟩
  have hslot : ∀ {c : Construct} {k : Nat}, t.construct? i = some c → k ∈ c.children → g k = f k :=
    fun hc hk => hfg.apart _ (hchild hc hk).1 (hchild hc hk).2
  unfold Analysis.typeOfWith
  dsimp only
  rw [show (ofTree u).tree.construct? i = t.construct? i from h.construct_apart hi]
  rw [show (ofTree t).tree.construct? i = t.construct? i from rfl]
  rw [show (ofTree u).tree.spanOf i = (ofTree t).tree.spanOf i from h.span_kept hi.1]
  split
  · rfl
  · exact (h.identTypeWith hfg _ (Nat.le_refl _) (h.moves.agrees_ofTree.kept hi.1)
      (h.enclosingMember?_kept hi.1 _)).2 (h.span_kept hi.1)
  · rename_i hc
    rw [hslot hc (by simp [Construct.children])]
    simp only [h.memberType]
  · rename_i callee args hc
    obtain ⟨hlt, hcallee⟩ := @hchild _ callee hc (by simp [Construct.children])
    have hobject : ∀ object name, t.construct? callee = some (.member object name) →
        g object = f object := by
      intro object name hm
      have hmem : object ∈ t.children callee := by
        rw [SyntaxTree.children_of_construct? hm]
        exact List.mem_singleton_self _
      exact hfg.apart object (Nat.lt_trans (h.moves.descends callee object hmem) hlt)
        (h.apart_child hcallee hmem)
    rw [h.calleeWith_kept hcallee hobject]
    exact except_bind_congr fun function hf => h.returnTypeOf (TypesIn.declared_of_calleeWith hf) _
  · exact h.resolveType _
  · exact h.resolveType _
  · rename_i hc
    exact hslot hc (by simp [Construct.children])
  · rename_i op lhs rhs hc
    rw [@hslot _ lhs hc (by simp [Construct.children]), @hslot _ rhs hc (by simp [Construct.children])]
  · rfl
  · rename_i hc
    exact hslot hc (by simp [Construct.children])
  · rename_i hc
    exact hslot hc (by simp [Construct.children])
  · rfl

/-- The search for a type answers as it does, if it agrees on what is kept. -/
theorem answers_typeOfTo {steps steps' k : Nat} (hk : k ≤ steps) (hk' : k ≤ steps')
    (hkept : ∀ j : Nat, j < k → Apart t o j →
      (ofTree u).typeOfTo steps' j = (ofTree t).typeOfTo steps j) :
    Answers t u o type k ((ofTree t).typeOfTo steps) ((ofTree u).typeOfTo steps') where
  apart := hkept
  typed j hj hin :=
    Analysis.typeOfTo_eq h.rooted h.moves.descends (Nat.lt_of_lt_of_le hj hk) (h.rooted.lt_size hin)
  cast hpos j v hj := by
    obtain ⟨m, rfl⟩ : ∃ m, steps' = m + 1 := ⟨steps' - 1, by omega⟩
    exact h.typeOfWith_cast hj

/-- **What is kept has the type that it had**, or fails to have one for the same reason. -/
theorem typeOfTo_kept : ∀ {steps steps' i : Nat}, Apart t o i → i < steps → i < steps' →
    (ofTree u).typeOfTo steps' i = (ofTree t).typeOfTo steps i
  | 0, _, _, _, hlt, _ => absurd hlt (Nat.not_lt_zero _)
  | _, 0, _, _, _, hlt => absurd hlt (Nat.not_lt_zero _)
  | steps + 1, steps' + 1, i, hi, hlt, hlt' => by
    rw [Analysis.typeOfTo, Analysis.typeOfTo]
    refine h.typeOfWith_kept hi (h.answers_typeOfTo (by omega) (by omega) fun j hj ha => ?_)
    exact typeOfTo_kept ha (by omega) (by omega)

theorem typeOf_kept {i : NodeId} (hi : Apart t o i) : (ofTree u).typeOf i = (ofTree t).typeOf i := by
  have hlt := h.moves.rewrites.lt_size_of_kept hi.1
  exact h.typeOfTo_kept hi hlt (Nat.lt_of_lt_of_le hlt h.moves.rewrites.size_le)

/-! ## 4. Types that are copied -/

/-- A declaration around the old statement is around everything in the new one. -/
theorem enclosing_moved {P : Construct → Bool} (hmap : ∀ c f, P (Construct.mapNodes f c) = P c)
    (hP : ∀ c, P c = true → c.isStatement = false ∧ c.isExpression = false) {i j : NodeId}
    (hi : Under t [o] i) (hj : Under u [n] j) : u.enclosing? P j = t.enclosing? P i := by
  have hnot : ∀ {v : SyntaxTree} {k : NodeId}, v.isStatement k = true ∨ v.isExpression k = true →
      (v.construct? k).any P = false := by
    intro v k hk
    cases hc : v.construct? k with
    | none => rfl
    | some c =>
      rw [SyntaxTree.isStatement, SyntaxTree.isExpression, hc, Option.any_some, Option.any_some] at hk
      rw [Option.any_some, Bool.eq_false_iff]
      intro hp
      rw [(hP c hp).1, (hP c hp).2] at hk
      simp at hk
  refine h.moves.enclosing_moved hmap (fun k hk => hnot ?_) (fun k hk => hnot (h.fresh hk)) hi hj
  rcases h.inside hk with rfl | he
  · exact .inl h.moves.walks.old
  · exact .inr he

theorem enclosingMember?_moved {i j : NodeId} (hi : Under t [o] i) (hj : Under u [n] j)
    (name : String) : (ofTree u).enclosingMember? j name = (ofTree t).enclosingMember? i name := by
  refine h.enclosingMember?_eq (h.inTree_of_under hi) ?_ name
  exact h.enclosing_moved (P := Construct.isClass) (fun c f => by cases c <;> rfl)
    (fun c hc => by cases c <;> first | exact ⟨rfl, rfl⟩ | cases hc) hi hj

section Copy

variable {f g : NodeId → Except SemanticError DataType}

/-- What is called by a copy is what is called by the original. -/
theorem calleeWith_copy {x y : NodeId} (hcopy : Copies t u [x] [y]) (hx : Under t [o] x)
    (hy : Under u [n] y) (hobject : ∀ k k', k ∈ t.children x → k' ∈ u.children y →
      Copies t u [k] [k'] → ∀ T, f k = .ok T → g k' = .ok T) {function : NodeId}
    (hf : (ofTree t).calleeWith f x = .ok function) : (ofTree u).calleeWith g y = .ok function := by
  obtain ⟨c, ks, hc, hk, hd⟩ := Copies.node_iff.mp hcopy
  have htree : (ofTree t).tree.construct? x = some c := hc
  have htree' : (ofTree u).tree.construct? y = some (c.withChildren ks) := hd
  unfold Analysis.calleeWith at hf ⊢
  rw [htree] at hf
  rw [htree']
  cases c with
  | ident name =>
    simp only [Construct.withChildren] at hf ⊢
    rw [h.enclosingMember?_moved hx hy, h.declarations]
    exact hf
  | member object name =>
    obtain ⟨object', rfl, hob⟩ := hk.exists_singleton
    obtain ⟨T, hT, hf⟩ := except_bind_eq_ok.mp hf
    have hT' := hobject object object'
      (by rw [SyntaxTree.children_of_construct? hc]; exact List.mem_singleton_self _)
      (by rw [SyntaxTree.children_of_construct? hd]; exact List.mem_singleton_self _) hob T hT
    refine except_bind_eq_ok.mpr ⟨T, hT', ?_⟩
    rwa [Analysis.classMember?_congr h.declarations]
  | _ => cases hf

/-- **A copy has the type of the original**, where this is so for what is below. -/
theorem typeOfWith_copy {a b : Nat} (hcopy : Copies t u [a] [b]) (ha : Under t [o] a)
    (hb : Under u [n] b)
    (hbelow : ∀ x y : Nat, x < a → y < b → Copies t u [x] [y] → Under t [o] x → Under u [n] y →
      ∀ T, f x = .ok T → g y = .ok T)
    (hfg : Answers t u o type a f g) {T : DataType} (hT : (ofTree t).typeOfWith f a = .ok T) :
    (ofTree u).typeOfWith g b = .ok T := by
  obtain ⟨c, ks, hc, hk, hd⟩ := Copies.node_iff.mp hcopy
  have htree : (ofTree t).tree.construct? a = some c := hc
  have htree' : (ofTree u).tree.construct? b = some (c.withChildren ks) := hd
  have hkids : u.children b = ks := by
    rw [SyntaxTree.children_of_construct? hd, Construct.children_withChildren hk.length_eq]
  -- the copies of the children, and their types
  have hchild : ∀ {x y : NodeId}, x ∈ c.children → y ∈ ks →
      x < a ∧ y < b ∧ Under t [o] x ∧ Under u [n] y := by
    intro x y hx hy
    rw [← SyntaxTree.children_of_construct? hc] at hx
    rw [← hkids] at hy
    exact ⟨h.moves.descends a x hx, (h.moves.rewrites.fresh b hb).2 y hy, .child ha hx, .child hb hy⟩
  have hslot : ∀ {x y : NodeId} {T : DataType}, Copies t u [x] [y] → x ∈ c.children → y ∈ ks →
      f x = .ok T → g y = .ok T := by
    intro x y T hxy hx hy
    obtain ⟨hlt, hlt', hux, huy⟩ := hchild hx hy
    exact hbelow x y hlt hlt' hxy hux huy T
  unfold Analysis.typeOfWith at hT ⊢
  dsimp only at hT ⊢
  rw [htree] at hT
  rw [htree']
  cases c with
  | literal value => exact hT
  | ident name =>
    exact (h.identTypeWith hfg name.name (Nat.le_refl _) (h.moves.agrees_ofTree.moved ha hc hb hd rfl)
      (h.enclosingMember?_moved ha hb _)).1 T hT
  | member object name =>
    obtain ⟨object', rfl, hob⟩ := hk.exists_singleton
    obtain ⟨S, hS, hT⟩ := except_bind_eq_ok.mp hT
    refine except_bind_eq_ok.mpr ⟨S, hslot hob ?_ ?_ hS, (h.memberType S name).trans hT⟩
    · exact List.mem_singleton_self _
    · exact List.mem_singleton_self _
  | call callee args =>
    obtain ⟨callee', args', rfl, hcallee, -⟩ := hk.exists_cons
    obtain ⟨hlt, hlt', hx, hy⟩ := hchild (x := callee) (y := callee') (List.mem_cons_self ..)
      (List.mem_cons_self ..)
    obtain ⟨function, hf, hT⟩ := except_bind_eq_ok.mp hT
    refine except_bind_eq_ok.mpr ⟨function, h.calleeWith_copy hcallee hx hy ?_ hf, ?_⟩
    · intro k k' hk hk' hkk
      exact hbelow k k' (Nat.lt_trans (h.moves.descends callee k hk) hlt)
        (Nat.lt_trans ((h.moves.rewrites.fresh callee' hy).2 k' hk') hlt') hkk (.child hx hk)
        (.child hy hk')
    · have hsame := h.returnTypeOf (TypesIn.declared_of_calleeWith hf)
      exact Analysis.returnTypeOf_eq_ok ((hsame _).trans hT)
  | newObject w args => exact (h.resolveType w).trans hT
  | cast w e =>
    obtain ⟨e', rfl, -⟩ := hk.exists_singleton
    exact (h.resolveType w).trans hT
  | assign op target value =>
    obtain ⟨target', rest, rfl, htarget, hrest⟩ := hk.exists_cons
    obtain ⟨value', rfl, -⟩ := hrest.exists_singleton
    exact hslot htarget (List.mem_cons_self ..) (List.mem_cons_self ..) hT
  | binary op lhs rhs =>
    obtain ⟨lhs', rest, rfl, hlhs, hrest⟩ := hk.exists_cons
    obtain ⟨rhs', rfl, hrhs⟩ := hrest.exists_singleton
    obtain ⟨L, hL, hT⟩ := except_bind_eq_ok.mp hT
    obtain ⟨R, hR, hT⟩ := except_bind_eq_ok.mp hT
    refine except_bind_eq_ok.mpr ⟨L, hslot hlhs (List.mem_cons_self ..) (List.mem_cons_self ..) hL,
      except_bind_eq_ok.mpr ⟨R, hslot hrhs ?_ ?_ hR, hT⟩⟩
    · exact List.mem_cons_of_mem _ (List.mem_singleton_self _)
    · exact List.mem_cons_of_mem _ (List.mem_singleton_self _)
  | unary op operand =>
    obtain ⟨operand', rfl, hop⟩ := hk.exists_singleton
    cases op with
    | not => exact hT
    | neg => exact hslot hop (List.mem_singleton_self _) (List.mem_singleton_self _) hT
  | paren inner =>
    obtain ⟨inner', rfl, hin⟩ := hk.exists_singleton
    exact hslot hin (List.mem_singleton_self _) (List.mem_singleton_self _) hT
  | _ => cases hT

end Copy

/-- **A copy in the new statement has the type of the original.** -/
theorem typeOfTo_copy : ∀ {steps steps' a b : Nat} {T : DataType}, Copies t u [a] [b] →
    Under t [o] a → Under u [n] b → a < steps → b < steps' → (ofTree t).typeOfTo steps a = .ok T →
    (ofTree u).typeOfTo steps' b = .ok T
  | 0, _, _, _, _, _, _, _, hlt, _, _ => absurd hlt (Nat.not_lt_zero _)
  | _, 0, _, _, _, _, _, _, _, hlt, _ => absurd hlt (Nat.not_lt_zero _)
  | steps + 1, steps' + 1, a, b, T, hcopy, ha, hb, hlt, hlt', hT => by
    rw [Analysis.typeOfTo] at hT ⊢
    have hab : a < b := Nat.lt_of_lt_of_le (h.rooted.lt_size (h.inTree_of_under ha))
      (h.moves.rewrites.fresh b hb).1
    refine h.typeOfWith_copy hcopy ha hb (fun x y hx hy hxy hux huy S hS => ?_)
      (h.answers_typeOfTo (by omega) (by omega) fun j hj hk => ?_) hT
    · exact typeOfTo_copy hxy hux huy (by omega) (by omega) hS
    · exact h.typeOfTo_kept hk (by omega) (by omega)

theorem typeOf_copy {a b : NodeId} {T : DataType} (hcopy : Copies t u [a] [b]) (ha : Under t [o] a)
    (hb : Under u [n] b) (hT : (ofTree t).typeOf a = .ok T) : (ofTree u).typeOf b = .ok T := by
  obtain ⟨c, ks, -, -, hd⟩ := Copies.node_iff.mp hcopy
  exact h.typeOfTo_copy hcopy ha hb (h.rooted.lt_size (h.inTree_of_under ha))
    (SyntaxTree.lt_size_of_construct? hd) hT

/-! ## 5. What is expected -/

/-- What the function around a node returns, if it is the same function. -/
theorem enclosingReturnType_eq {i j : NodeId} (hin : t.InTree i)
    (he : u.enclosingFunction? j = t.enclosingFunction? i) :
    (∀ T, (ofTree t).enclosingReturnType i = .ok T → (ofTree u).enclosingReturnType j = .ok T) ∧
      (u.spanOf j = t.spanOf i →
        (ofTree u).enclosingReturnType j = (ofTree t).enclosingReturnType i) := by
  have hfun : ((ofTree u).tree.enclosingFunction? j).bind (ofTree u).tree.construct? =
      ((t.enclosingFunction? i).bind t.construct?).map (Construct.mapNodes (substNode o n)) :=
    h.enclosing_construct (fun c hc => by cases c <;> first | exact ⟨rfl, rfl⟩ | cases hc) hin he
  have htree : ((ofTree t).tree.enclosingFunction? i).bind (ofTree t).tree.construct? =
      (t.enclosingFunction? i).bind t.construct? := rfl
  have hspan : u.spanOf j = t.spanOf i →
      (.error (.noEnclosingFunction ((ofTree u).tree.spanOf j)) : Except SemanticError DataType) =
        .error (.noEnclosingFunction ((ofTree t).tree.spanOf i)) := fun hs =>
    congrArg (fun span => Except.error (SemanticError.noEnclosingFunction span)) hs
  unfold Analysis.enclosingReturnType
  rw [hfun, htree]
  cases (t.enclosingFunction? i).bind t.construct? with
  | none =>
    exact ⟨fun T hT => (by cases hT), hspan⟩
  | some c =>
    cases c with
    | function w _ _ _ =>
      refine ⟨fun T hT => ?_, fun _ => h.resolveType w⟩
      exact (h.resolveType w).trans hT
    | _ =>
      exact ⟨fun T hT => (by cases hT), hspan⟩

theorem enclosingReturnType_kept {i : NodeId} (hi : Kept t o i) :
    (ofTree u).enclosingReturnType i = (ofTree t).enclosingReturnType i :=
  (h.enclosingReturnType_eq hi.1 (h.moves.enclosing_kept (fun c f => by cases c <;> rfl) hi)).2
    (h.span_kept hi)

theorem argumentType?_kept {callee : NodeId} (hcallee : Apart t o callee) (args : List NodeId)
    (id : NodeId) : (ofTree u).argumentType? callee args id = (ofTree t).argumentType? callee args id := by
  unfold Analysis.argumentType?
  split
  · rfl
  · rw [h.calleeWith_kept hcallee fun object name hm => h.typeOf_kept (h.apart_child hcallee (by
      rw [SyntaxTree.children_of_construct? hm]
      exact List.mem_singleton_self _))]
    refine except_bind_congr fun function hf => ?_
    rw [show (ofTree u).tree.construct? function = _ from
        h.construct_declared (TypesIn.declared_of_calleeWith hf),
      show (ofTree t).tree.construct? function = t.construct? function from rfl]
    cases t.construct? function with
    | none => rfl
    | some c =>
      cases c with
      | function w _ params _ =>
        simp only [Option.map_some, Construct.mapNodes]
        split
        · rw [h.resolveType]
        · rfl
      | _ => rfl

/-- **What the context of a kept expression expects stays.** -/
theorem expectedType?_kept {i : NodeId} (hi : Apart t o i) :
    (ofTree u).expectedType? i = (ofTree t).expectedType? i := by
  unfold Analysis.expectedType?
  rw [show (ofTree u).tree.parent? i = t.parent? i from h.moves.rewrites.parent_kept hi.1,
    show (ofTree t).tree.parent? i = t.parent? i from rfl]
  cases hq : t.parent? i with
  | none => rfl
  | some q =>
    have hkept := h.moves.rewrites.kept_parent hi.1 hq
    obtain ⟨c, hc⟩ := h.moves.rewrites.exists_construct hkept
    have hc' := h.moves.rewrites.construct_eq q c hkept hc
    have htree : (ofTree t).tree.construct? q = some c := hc
    have hspan : (ofTree u).tree.spanOf q = (ofTree t).tree.spanOf q := h.span_kept hkept
    have hexpr : c.isExpression = true → Apart t o q := h.apart_of_isExpression hkept hc
    simp only []
    rw [show (ofTree u).tree.construct? q = _ from hc', htree]
    cases c with
    | localDecl w vars =>
      simp only [Construct.mapNodes]
      rw [h.resolveType]
    | field w _ _ =>
      simp only [Construct.mapNodes]
      rw [h.resolveType]
    | returnStmt _ =>
      simp only [Construct.mapNodes]
      rw [h.enclosingReturnType_kept hkept]
    | yieldStmt _ =>
      simp only [Construct.mapNodes]
      rw [h.enclosingReturnType_kept hkept, hspan]
    | assign op target value =>
      have hself := (h.construct_apart (hexpr rfl)).symm.trans hc'
      rw [hc] at hself
      rw [← Option.some.inj hself]
      simp only []
      rw [h.typeOf_kept (h.apart_child (hexpr rfl) (by
        rw [SyntaxTree.children_of_construct? hc]
        simp [Construct.children]))]
    | call callee args =>
      have hself := (h.construct_apart (hexpr rfl)).symm.trans hc'
      rw [hc] at hself
      rw [← Option.some.inj hself]
      simp only []
      exact h.argumentType?_kept (h.apart_child (hexpr rfl) (by
        rw [SyntaxTree.children_of_construct? hc]
        simp [Construct.children])) args i
    | _ => rfl

theorem typeInfo_kept {i : NodeId} (hi : Apart t o i) :
    (ofTree u).typeInfo i = (ofTree t).typeInfo i := by
  unfold Analysis.typeInfo
  rw [h.typeOf_kept hi, h.expectedType?_kept hi]

theorem symbolKind_kept {i : NodeId} (hi : Apart t o i) :
    (ofTree u).symbolKind i = (ofTree t).symbolKind i := by
  unfold Analysis.symbolKind
  rw [show (ofTree u).tree.construct? i = t.construct? i from h.construct_apart hi,
    show (ofTree t).tree.construct? i = t.construct? i from rfl]
  split
  · have hbind : (ofTree u).binding? i = ((ofTree t).binding? i).map (.move o s) :=
      h.moves.agrees_ofTree.kept hi.1
    rw [hbind, h.enclosingMember?_kept hi.1, h.declarations]
    cases (ofTree t).binding? i with
    | none => rfl
    | some binding => cases binding <;> rfl
  · rename_i object name hc
    have hobject := h.apart_child hi (k := object) (by
      rw [SyntaxTree.children_of_construct? hc]
      exact List.mem_singleton_self _)
    rw [h.typeOf_kept hobject]
    simp only [Analysis.classMember?_congr h.declarations]
  · rfl

end Retypes

end Recast
