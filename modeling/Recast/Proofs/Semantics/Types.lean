/-
# The types that an analysis finds

Every type that the analysis of a program finds is built in, written in the program, the name of one of
its classes, or the type of the elements of such a type; only the type of `null` is none of these.  So
what holds of these types holds of every type of an expression.

* `Declarations.Sound`: the declarations of a program are nodes of the program;
* `TypesIn t P`: the types that the program `t` can name are of the kind `P`; `TypesAmong t S P`: so are
  those that the nodes in `S` can name, which may be more than the program;
* `TypesAmong.typeOfTo`, `TypesAmong.expectedType?`: **then so are all types that are found, `null`
  apart.**
-/
import Recast.Proofs.Grammar.Concrete
import Recast.Proofs.Semantics.Bound
import Recast.Semantics.Analysis

namespace Recast

/-- **A sequence of two steps succeeds exactly when both do.** -/
theorem except_bind_eq_ok {ε α β : Type} {x : Except ε α} {f : α → Except ε β} {b : β} :
    (x >>= f) = .ok b ↔ ∃ a, x = .ok a ∧ f a = .ok b := by
  constructor
  · intro h
    cases x with
    | error e => cases h
    | ok a => exact ⟨a, rfl, h⟩
  · rintro ⟨a, rfl, h⟩
    exact h

theorem except_ok_bind {ε α β : Type} {f : α → Except ε β} {a : α} : (Except.ok a >>= f) = f a := rfl

/-- What is done with a value matters only for the value that there is. -/
theorem except_bind_congr {ε α β : Type} {x : Except ε α} {f g : α → Except ε β}
    (h : ∀ a, x = .ok a → f a = g a) : x >>= f = x >>= g := by
  cases x with
  | error e => rfl
  | ok a => exact h a rfl

theorem except_some_eq_ok {ε α : Type} {x : Except ε α} {a : α} :
    some <$> x = .ok (some a) ↔ x = .ok a := by
  constructor
  · intro h
    cases x with
    | error e => cases h
    | ok b =>
      cases h
      rfl
  · rintro rfl
    rfl

/-- An expression has a type, and what its context expects, if anything, can be found. -/
theorem Analysis.typeInfo_eq_ok {a : Analysis} {id : NodeId} {info : TypeInfo} :
    a.typeInfo id = .ok info ↔ a.typeOf id = .ok info.type ∧
      ∃ expected, a.expectedType? id = .ok expected ∧ info.converted = expected.getD info.type := by
  constructor
  · intro h
    obtain ⟨type, htype, h⟩ := except_bind_eq_ok.mp h
    obtain ⟨expected, hexpected, h⟩ := except_bind_eq_ok.mp h
    cases h
    exact ⟨htype, expected, hexpected, rfl⟩
  · rintro ⟨htype, expected, hexpected, hconverted⟩
    rw [typeInfo, htype, except_ok_bind, hexpected, except_ok_bind, ← hconverted]
    rfl

/-- What the function around a statement returns was written with it. -/
theorem Analysis.enclosingReturnType_eq_ok {t : SyntaxTree} {stmt : NodeId} {T : DataType} :
    (ofTree t).enclosingReturnType stmt = .ok T ↔ ∃ function returnType name params body,
      t.enclosingFunction? stmt = some function ∧
      t.construct? function = some (.function returnType name params body) ∧
      (ofTree t).resolveType returnType = .ok T := by
  have htree : (ofTree t).tree = t := rfl
  rw [Analysis.enclosingReturnType, htree]
  constructor
  · intro h
    split at h
    · rename_i returnType name params body hf
      obtain ⟨function, hfunction, hc⟩ := Option.bind_eq_some_iff.mp hf
      exact ⟨function, returnType, name, params, body, hfunction, hc, h⟩
    · cases h
  · rintro ⟨function, returnType, name, params, body, hfunction, hc, h⟩
    rw [hfunction, Option.bind_some, hc]
    exact h

/-! ## 1. Declarations -/

namespace Declarations

variable {t : SyntaxTree} {d : Declarations}

/-- The node is a declaration of the program, neither a statement nor an expression. -/
def Declared (t : SyntaxTree) (i : NodeId) : Prop :=
  t.InTree i ∧ t.isStatement i = false ∧ t.isExpression i = false

theorem Declared.of_construct {i : NodeId} {c : Construct} (hi : t.InTree i)
    (hc : t.construct? i = some c) (hs : c.isStatement = false) (he : c.isExpression = false) :
    Declared t i := by
  refine ⟨hi, ?_, ?_⟩
  · rw [SyntaxTree.isStatement, hc]
    exact hs
  · rw [SyntaxTree.isExpression, hc]
    exact he

/-- The classes, members and functions are declarations of the program. -/
structure Sound (t : SyntaxTree) (d : Declarations) : Prop where
  classes : ∀ p ∈ d.classes, (∃ i name members, t.InTree i ∧
    t.construct? i = some (.classDecl name members) ∧ name.name = p.1) ∧ ∀ m ∈ p.2, Declared t m.2.node
  functions : ∀ p ∈ d.functions, Declared t p.2

theorem declared_of_memberOf? {id : NodeId} {m : String × ClassMember} (hid : t.InTree id)
    (h : memberOf? t id = some m) : Declared t m.2.node := by
  unfold memberOf? at h
  split at h
  · rename_i hc
    cases h
    exact .of_construct hid hc rfl rfl
  · rename_i hc
    cases h
    exact .of_construct hid hc rfl rfl
  · rename_i hc
    cases h
    exact .of_construct hid hc rfl rfl
  · cases h

theorem Sound.add (h : Sound t d) {id : NodeId} (hid : t.InTree id) : Sound t (d.add t id) := by
  unfold Declarations.add
  split
  · rename_i name members hc
    refine ⟨fun p hp => ?_, h.functions⟩
    rcases List.mem_cons.mp hp with rfl | hp
    · refine ⟨⟨id, name, members, hid, hc, rfl⟩, fun m hm => ?_⟩
      obtain ⟨k, hk, hm⟩ := List.mem_filterMap.mp (List.mem_reverse.mp hm)
      exact declared_of_memberOf? (hid.slot hc hk) hm
    · exact h.classes p hp
  · rename_i hc
    refine ⟨h.classes, fun p hp => ?_⟩
    rcases List.mem_cons.mp hp with rfl | hp
    · exact .of_construct hid hc rfl rfl
    · exact h.functions p hp
  · exact h

theorem sound_ofTree (t : SyntaxTree) : Sound t (ofTree t) := by
  have hall : ∀ {ids : List NodeId} {d : Declarations}, (∀ k ∈ ids, t.InTree k) → Sound t d →
      Sound t (ids.foldl (add t) d) := by
    intro ids
    induction ids with
    | nil => exact fun _ h => h
    | cons k ids ih =>
      intro d hids h
      exact ih (fun j hj => hids j (List.mem_cons_of_mem _ hj)) (h.add (hids k (List.mem_cons_self ..)))
  exact hall (fun k hk => .child (SyntaxTree.inTree_root t) hk) ⟨by simp, by simp⟩

theorem mem_of_lookup {α : Type} {xs : List (String × α)} {name : String} {x : α}
    (h : xs.lookup name = some x) : (name, x) ∈ xs := by
  obtain ⟨l₁, l₂, he, -⟩ := List.lookup_eq_some_iff.mp h
  rw [he]
  simp

theorem exists_of_hasClass {name : String} (h : (ofTree t).hasClass name = true) :
    ∃ i ident members, t.InTree i ∧ t.construct? i = some (.classDecl ident members) ∧
      ident.name = name := by
  obtain ⟨members, hm⟩ := Option.isSome_iff_exists.mp h
  exact ((sound_ofTree t).classes _ (mem_of_lookup hm)).1

theorem declared_of_member? {className name : String} {m : ClassMember}
    (h : (ofTree t).member? className name = some m) : Declared t m.node := by
  obtain ⟨members, hmembers, hm⟩ := Option.bind_eq_some_iff.mp h
  exact ((sound_ofTree t).classes _ (mem_of_lookup hmembers)).2 _ (mem_of_lookup hm)

theorem declared_of_function? {name : String} {id : NodeId}
    (h : (ofTree t).function? name = some id) : Declared t id :=
  (sound_ofTree t).functions _ (mem_of_lookup h)

end Declarations

/-! ## 2. Types -/

/-- Every type that the program can name is of a kind. -/
structure TypesIn (t : SyntaxTree) (P : DataType → Prop) : Prop where
  basic : ∀ T ∈ [DataType.bool, .int, .long, .float, .double, .string], P T
  written : ∀ {i : NodeId} {c : Construct} {w : WrittenType} {T : DataType}, t.InTree i →
    t.construct? i = some c → .type w ∈ c.pieces → (Analysis.ofTree t).resolveType w = .ok T → P T
  named : ∀ name, (Declarations.ofTree t).hasClass name = true → P (.named name)
  element : ∀ {T E : DataType}, P T → T.element? = some E → P E

/-- The types that are written at the nodes of a set are of this kind too.  The set holds the program,
and with a node its parts and the node around it. -/
structure TypesAmong (t : SyntaxTree) (S : NodeId → Prop) (P : DataType → Prop) : Prop
    extends TypesIn t P where
  program : ∀ {i : NodeId}, t.InTree i → S i
  part : ∀ {i k : NodeId} {c : Construct}, S i → t.construct? i = some c → k ∈ c.children → S k
  around : ∀ {i p : NodeId}, S i → t.parent? i = some p → S p
  writtenAt : ∀ {i : NodeId} {c : Construct} {w : WrittenType} {T : DataType}, S i →
    t.construct? i = some c → .type w ∈ c.pieces → (Analysis.ofTree t).resolveType w = .ok T → P T

namespace TypesIn

open Analysis

variable {t : SyntaxTree}

theorem declared_of_enclosingMember? {id : NodeId} {name : String} {m : ClassMember}
    (h : (ofTree t).enclosingMember? id name = some m) : Declarations.Declared t m.node := by
  unfold enclosingMember? at h
  split at h
  · exact Declarations.declared_of_member? h
  · cases h

theorem declared_of_classMember? {type : DataType} {name : String} {m : ClassMember}
    (h : (ofTree t).classMember? type name = some m) : Declarations.Declared t m.node := by
  unfold classMember? at h
  split at h
  · cases h
  · exact Declarations.declared_of_member? h

/-- What is called is a function of the program. -/
theorem declared_of_calleeWith {typeOf : NodeId → Except SemanticError DataType} {callee f : NodeId}
    (h : (ofTree t).calleeWith typeOf callee = .ok f) : Declarations.Declared t f := by
  unfold calleeWith at h
  split at h
  · split at h
    · rename_i hm
      cases h
      exact declared_of_enclosingMember? hm
    · split at h
      · rename_i hf
        cases h
        exact Declarations.declared_of_function? hf
      · cases h
  · obtain ⟨type, -, h⟩ := except_bind_eq_ok.mp h
    split at h
    · rename_i hm
      cases h
      exact declared_of_classMember? hm
    · cases h
  · cases h

end TypesIn

namespace TypesAmong

open Analysis
open TypesIn (declared_of_enclosingMember? declared_of_classMember? declared_of_calleeWith)

variable {t : SyntaxTree} {S : NodeId → Prop} {P : DataType → Prop} {T : DataType}

section

variable (hP : TypesAmong t S P)
include hP

theorem literalType (v : Literal) : literalType v = .null ∨ P (literalType v) := by
  cases v with
  | null => exact .inl rfl
  | _ => exact .inr (hP.basic _ (by simp [Analysis.literalType]))

/-- An operator gives one of its operands' types or a built-in one. -/
theorem binaryType {op : BinaryOp} {lhs rhs : DataType} (hl : lhs = .null ∨ P lhs)
    (hr : rhs = .null ∨ P rhs) : binaryType op lhs rhs = .null ∨ P (binaryType op lhs rhs) := by
  unfold Analysis.binaryType
  split
  · exact .inr (hP.basic _ (by simp))
  · split
    · exact .inr (hP.basic _ (by simp))
    · cases hp : lhs.promote? rhs with
      | none => exact hl
      | some T =>
        obtain ⟨i, -, hp⟩ := Option.bind_eq_some_iff.mp hp
        obtain ⟨j, -, hp⟩ := Option.bind_eq_some_iff.mp hp
        cases hp
        rw [Option.getD_some]
        split
        · exact hl
        · exact hr

theorem memberValueType {m : ClassMember} {span : Span} (hm : t.InTree m.node)
    (h : (ofTree t).memberValueType m span = .ok T) : P T := by
  unfold Analysis.memberValueType at h
  split at h
  · rename_i hc
    exact hP.written hm hc (by simp [Construct.pieces]) h
  · rename_i hc
    exact hP.written hm hc (by simp [Construct.pieces]) h
  · cases h

theorem memberType {type : DataType} {name : Ident} (h : (ofTree t).memberType type name = .ok T) :
    P T := by
  unfold Analysis.memberType at h
  split at h
  · rename_i hm
    exact hP.memberValueType (declared_of_classMember? hm).1 h
  · split at h
    · cases h
      exact hP.basic _ (by simp)
    · cases h

theorem bindingTypeWith {typeOf : NodeId → Except SemanticError DataType} {binding : Binding} {k : Nat}
    (hb : binding.Declares t k)
    (htype : ∀ {id T}, S id → typeOf id = .ok T → T = .null ∨ P T)
    (h : (ofTree t).bindingTypeWith typeOf binding = .ok T) : T = .null ∨ P T := by
  cases binding with
  | declared decl index =>
    obtain ⟨hin, type, vars, var, hc, hvar, -⟩ := hb
    have hc' : (ofTree t).tree.construct? decl = some (.localDecl type vars) := hc
    simp only [Analysis.bindingTypeWith, hc', hvar, Option.bind_some] at h
    split at h
    · exact .inr (hP.written hin hc (by simp [Construct.pieces]) h)
    · split at h
      · rename_i init hinit
        refine htype (hP.program (hin.slot hc ?_)) h
        exact List.mem_filterMap.mpr ⟨var, List.mem_of_getElem? hvar, hinit⟩
      · cases h
  | parameter function index =>
    obtain ⟨hin, type, name, params, body, p, hc, hp⟩ := hb
    have hc' : (ofTree t).tree.construct? function = some (.function type name params body) := hc
    simp only [Analysis.bindingTypeWith, hc', hp] at h
    refine .inr (hP.written hin hc ?_ h)
    have hmem : .type p.type ∈ Piece.separated (params.map Param.pieces) :=
      Piece.mem_separated (List.mem_map_of_mem (List.mem_of_getElem? hp)) (by simp [Param.pieces])
    simp [Construct.pieces, hmem]

theorem identTypeWith (ht : t.Rooted) {typeOf : NodeId → Except SemanticError DataType} {id : NodeId}
    {name : String} (htype : ∀ {id T}, S id → typeOf id = .ok T → T = .null ∨ P T)
    (h : (ofTree t).identTypeWith typeOf id name = .ok T) : T = .null ∨ P T := by
  unfold Analysis.identTypeWith at h
  dsimp only at h
  split at h
  · rename_i hb
    exact hP.bindingTypeWith (Binder.ofTree_declares ht hb) htype h
  · split at h
    · rename_i hm
      exact .inr (hP.memberValueType (declared_of_enclosingMember? hm).1 h)
    · split at h
      · cases h
      · split at h
        · rename_i hclass
          cases h
          exact .inr (hP.named name hclass)
        · cases h

/-- **Every type of an expression is one that the nodes can name**, or that of `null`. -/
theorem typeOfTo (ht : t.Rooted) : ∀ {steps : Nat} {id : NodeId} {T : DataType}, S id →
    (ofTree t).typeOfTo steps id = .ok T → T = .null ∨ P T
  | 0, _, _, _, h => by cases h
  | steps + 1, id, T, hin, h => by
    have ih : ∀ {id T}, S id → (ofTree t).typeOfTo steps id = .ok T → T = .null ∨ P T :=
      fun hin h => typeOfTo ht hin h
    have hchild : ∀ {c : Construct} {k : NodeId}, t.construct? id = some c → k ∈ c.children → S k :=
      fun hc hk => hP.part hin hc hk
    unfold Analysis.typeOfTo typeOfWith at h
    dsimp only at h
    split at h
    · cases h
      exact hP.literalType _
    · exact hP.identTypeWith ht ih h
    · obtain ⟨type, -, h⟩ := except_bind_eq_ok.mp h
      exact .inr (hP.memberType h)
    · obtain ⟨f, hf, h⟩ := except_bind_eq_ok.mp h
      split at h
      · rename_i hc
        exact .inr (hP.written (declared_of_calleeWith hf).1 hc (by simp [Construct.pieces]) h)
      · cases h
    · rename_i hc
      exact .inr (hP.writtenAt hin hc (by simp [Construct.pieces]) h)
    · rename_i hc
      exact .inr (hP.writtenAt hin hc (by simp [Construct.pieces]) h)
    · rename_i hc
      exact ih (hchild hc (by simp [Construct.children])) h
    · rename_i hc
      obtain ⟨lhs, hl, h⟩ := except_bind_eq_ok.mp h
      obtain ⟨rhs, hr, h⟩ := except_bind_eq_ok.mp h
      cases h
      exact hP.binaryType (ih (hchild hc (by simp [Construct.children])) hl)
        (ih (hchild hc (by simp [Construct.children])) hr)
    · cases h
      exact .inr (hP.basic _ (by simp))
    · rename_i hc
      exact ih (hchild hc (by simp [Construct.children])) h
    · rename_i hc
      exact ih (hchild hc (by simp [Construct.children])) h
    · cases h

/-- With a node, the nodes on the way up are in the set. -/
theorem of_mem_climb : ∀ {limit : Nat} {i a : NodeId}, S i → a ∈ t.climb limit i → S a
  | 0, _, _, _, ha => by cases ha
  | limit + 1, i, a, hi, ha => by
    unfold SyntaxTree.climb at ha
    split at ha
    · cases ha
    · rename_i p hp
      have hps := hP.around hi hp
      rcases List.mem_cons.mp ha with rfl | ha
      · exact hps
      · exact of_mem_climb hps ha

/-- What the function around a node returns is written at one of the nodes. -/
theorem enclosingReturnType {id : NodeId} (hin : S id)
    (h : (ofTree t).enclosingReturnType id = .ok T) : P T := by
  obtain ⟨f, _, _, _, _, hf, hc, hresolve⟩ := Analysis.enclosingReturnType_eq_ok.mp h
  have hmem := List.mem_of_find?_eq_some hf
  exact hP.writtenAt (hP.of_mem_climb hin hmem) hc (by simp [Construct.pieces]) hresolve

/-- **Every type that is expected is one that the nodes can name**, or that of `null`. -/
theorem expectedType? (ht : t.Rooted) {id : NodeId} (hin : S id)
    (h : (ofTree t).expectedType? id = .ok (some T)) : T = .null ∨ P T := by
  unfold Analysis.expectedType? at h
  split at h
  · cases h
  rename_i parent hparent
  have hpin : S parent := hP.around hin hparent
  split at h
  · rename_i hc
    split at h
    · cases h
    · exact .inr (hP.writtenAt hpin hc (by simp [Construct.pieces]) (except_some_eq_ok.mp h))
  · rename_i hc
    exact .inr (hP.writtenAt hpin hc (by simp [Construct.pieces]) (except_some_eq_ok.mp h))
  · exact .inr (hP.enclosingReturnType hpin (except_some_eq_ok.mp h))
  · obtain ⟨type, htype, h⟩ := except_bind_eq_ok.mp h
    split at h
    · rename_i element helement
      cases h
      exact .inr (hP.element (hP.enclosingReturnType hpin htype) helement)
    · cases h
  · rename_i hc
    split at h
    · exact hP.typeOfTo ht (hP.part hpin hc (by simp [Construct.children])) (except_some_eq_ok.mp h)
    · cases h
  · unfold argumentType? at h
    split at h
    · cases h
    · obtain ⟨f, hf, h⟩ := except_bind_eq_ok.mp h
      split at h
      · rename_i params _ hc
        split at h
        · rename_i p hp
          have hmem : .type p.type ∈ Piece.separated (params.map Param.pieces) :=
            Piece.mem_separated (List.mem_map_of_mem (List.mem_of_getElem? hp)) (by simp [Param.pieces])
          exact .inr (hP.written (declared_of_calleeWith hf).1 hc (by simp [Construct.pieces, hmem])
            (except_some_eq_ok.mp h))
        · cases h
      · cases h
  · cases h

/-- Both types of an expression. -/
theorem typeInfo (ht : t.Rooted) {id : NodeId} {info : TypeInfo} (hin : S id)
    (h : (ofTree t).typeInfo id = .ok info) : (info.type = .null ∨ P info.type) ∧
      (info.converted = .null ∨ P info.converted) := by
  obtain ⟨htype, expected, hexpected, hconverted⟩ := typeInfo_eq_ok.mp h
  have hT := hP.typeOfTo ht hin htype
  rw [hconverted]
  cases expected with
  | none => exact ⟨hT, hT⟩
  | some E => exact ⟨hT, hP.expectedType? ht hin hexpected⟩

end

end TypesAmong

namespace TypesIn

variable {t : SyntaxTree} {P : DataType → Prop}

/-- The program itself is such a set. -/
theorem among (hP : TypesIn t P) (ht : t.Rooted) : TypesAmong t t.InTree P := by
  refine ⟨hP, id, fun hi hc hk => hi.slot hc hk, fun {i p} hi hp => ?_, hP.written⟩
  rcases ht.parent hi with rfl | ⟨q, hq, hqt, -⟩
  · rw [ht.top] at hp
    cases hp
  · rw [hq] at hp
    cases hp
    exact hqt

/-- Both types of an expression of the program. -/
theorem typeInfo (hP : TypesIn t P) (ht : t.Rooted) {id : NodeId} {info : TypeInfo}
    (hin : t.InTree id) (h : (Analysis.ofTree t).typeInfo id = .ok info) :
    (info.type = .null ∨ P info.type) ∧ (info.converted = .null ∨ P info.converted) :=
  (hP.among ht).typeInfo ht hin h

end TypesIn

end Recast
