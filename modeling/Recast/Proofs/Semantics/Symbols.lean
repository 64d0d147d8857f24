/-
# What a typed name stands for

The type of a name and the kind of symbol that it stands for are found by two searches, which look at
the same places in the same order: the local names, the members of the class around it, the functions
and the classes.  So a name that has a type stands for something that has one, and neither for a method
nor for a function; and so does a member of a value.

* `Declarations.memberOf?_of_member?`: a member in the tables is what its node says;
* `Analysis.kind_of_memberValueType`: a member with a type is a field or a property;
* `Analysis.symbolKind_of_typeOf`: **a target of an assignment that has a type stands for a variable, a
  property or a class.**
-/
import Recast.Parser.Expr
import Recast.Proofs.Semantics.Types
import Recast.Proofs.Semantics.TypeSearch

namespace Recast

/-! ## 1. Members -/

namespace Declarations

variable {t : SyntaxTree}

theorem node_of_memberOf? {id : NodeId} {m : String × ClassMember} (h : memberOf? t id = some m) :
    m.2.node = id := by
  unfold memberOf? at h
  split at h <;> cases h <;> rfl

/-- Every member in the tables is what its node says. -/
def Tabled (t : SyntaxTree) (d : Declarations) : Prop :=
  ∀ p ∈ d.classes, ∀ m ∈ p.2, memberOf? t m.2.node = some m

theorem Tabled.add {d : Declarations} (h : Tabled t d) (id : NodeId) : Tabled t (d.add t id) := by
  unfold Declarations.add
  split
  · intro p hp m hm
    rcases List.mem_cons.mp hp with rfl | hp
    · obtain ⟨k, -, hk⟩ := List.mem_filterMap.mp (List.mem_reverse.mp hm)
      rwa [node_of_memberOf? hk]
    · exact h p hp m hm
  · exact h
  · exact h

theorem tabled_ofTree (t : SyntaxTree) : Tabled t (ofTree t) :=
  List.foldlRecOn _ _ (by simp [Tabled]) fun _ h id _ => h.add id

/-- **A member in the tables is what its node says**, also where a later class of the same name took
the place of an earlier one. -/
theorem memberOf?_of_member? {className name : String} {m : ClassMember}
    (h : (ofTree t).member? className name = some m) : memberOf? t m.node = some (name, m) := by
  obtain ⟨members, hmembers, hm⟩ := Option.bind_eq_some_iff.mp h
  exact tabled_ofTree t _ (mem_of_lookup hmembers) _ (mem_of_lookup hm)

end Declarations

/-! ## 2. Kinds of symbols -/

namespace Analysis

variable {t : SyntaxTree} {T : DataType}

/-- The kinds of symbols that have a type. -/
def typedKinds : List SymbolKind := [.localVar, .parameter, .field, .property, .classType]

theorem memberOf?_of_enclosingMember? {id : NodeId} {name : String} {m : ClassMember}
    (h : (ofTree t).enclosingMember? id name = some m) :
    Declarations.memberOf? t m.node = some (name, m) := by
  unfold enclosingMember? at h
  split at h
  · exact Declarations.memberOf?_of_member? h
  · cases h

theorem memberOf?_of_classMember? {type : DataType} {name : String} {m : ClassMember}
    (h : (ofTree t).classMember? type name = some m) :
    Declarations.memberOf? t m.node = some (name, m) := by
  unfold classMember? at h
  split at h
  · cases h
  · exact Declarations.memberOf?_of_member? h

/-- A member with a type is a field or a property. -/
theorem kind_of_memberValueType {m : ClassMember} {name : String} {span : Span}
    (hm : Declarations.memberOf? t m.node = some (name, m))
    (h : (ofTree t).memberValueType m span = .ok T) : m.kind ∈ typedKinds := by
  have hkind : ∀ {k : SymbolKind} {s : String}, k ∈ typedKinds →
      some (s, ClassMember.mk k m.node) = some (name, m) → m.kind ∈ typedKinds := by
    intro k s hk he
    rwa [← (Prod.mk.inj (Option.some.inj he)).2]
  unfold Declarations.memberOf? at hm
  unfold memberValueType at h
  split at h
  · rename_i hc
    rw [tree_ofTree] at hc
    rw [hc] at hm
    exact hkind (by decide) hm
  · rename_i hc
    rw [tree_ofTree] at hc
    rw [hc] at hm
    exact hkind (by decide) hm
  · cases h

/-- A name with a type stands for something that has one. -/
theorem symbolKind_of_identTypeWith {typeOf : NodeId → Except SemanticError DataType} {id : NodeId}
    {name : Ident} (hc : t.construct? id = some (.ident name))
    (h : (ofTree t).identTypeWith typeOf id name.name = .ok T) :
    ∃ k ∈ typedKinds, (ofTree t).symbolKind id = some k := by
  rw [← tree_ofTree t] at hc
  simp only [symbolKind, hc]
  unfold identTypeWith at h
  cases hb : (ofTree t).binding? id with
  | some binding =>
    cases binding with
    | declared decl index => exact ⟨.localVar, by decide, rfl⟩
    | parameter function index => exact ⟨.parameter, by decide, rfl⟩
  | none =>
    simp only [hb] at h
    cases hm : (ofTree t).enclosingMember? id name.name with
    | some m =>
      simp only [hm] at h
      exact ⟨m.kind, kind_of_memberValueType (memberOf?_of_enclosingMember? hm) h, rfl⟩
    | none =>
      simp only [hm] at h
      split at h
      · cases h
      · rename_i hfunction
        split at h
        · rename_i hclass
          exact ⟨.classType, by decide, (if_neg hfunction).trans (if_pos hclass)⟩
        · cases h

/-- A member with a type stands for a field or a property. -/
theorem symbolKind_of_memberType {id object : NodeId} {name : Ident} {type : DataType}
    (hc : t.construct? id = some (.member object name)) (hobject : (ofTree t).typeOf object = .ok type)
    (h : (ofTree t).memberType type name = .ok T) :
    ∃ k ∈ typedKinds, (ofTree t).symbolKind id = some k := by
  rw [← tree_ofTree t] at hc
  simp only [symbolKind, hc, hobject]
  unfold memberType at h
  cases hm : (ofTree t).classMember? type name.name with
  | some m =>
    simp only [hm] at h
    exact ⟨m.kind, kind_of_memberValueType (memberOf?_of_classMember? hm) h, rfl⟩
  | none =>
    simp only [hm] at h
    split at h
    · rename_i hlength
      exact ⟨.property, by decide, if_pos hlength⟩
    · cases h

/-- **A target of an assignment that has a type stands for a variable, a property or a class**, and
never for a method or a function. -/
theorem symbolKind_of_typeOf (ht : t.Rooted) (hlt : ∀ p k : Nat, k ∈ t.children p → k < p) {id : NodeId}
    (hassign : (t.construct? id).any Construct.isAssignable = true)
    (h : (ofTree t).typeOf id = .ok T) : ∃ k ∈ typedKinds, (ofTree t).symbolKind id = some k := by
  rw [typeOf_eq_typeOfWith ht hlt] at h
  obtain ⟨c, hc, ha⟩ := (Option.any_eq_true _ _).mp hassign
  have hc' : (ofTree t).tree.construct? id = some c := hc
  cases c with
  | ident name =>
    simp only [typeOfWith, hc'] at h
    exact symbolKind_of_identTypeWith hc h
  | member object name =>
    simp only [typeOfWith, hc'] at h
    obtain ⟨type, hobject, h⟩ := except_bind_eq_ok.mp h
    exact symbolKind_of_memberType hc hobject h
  | _ => cases ha

end Analysis

end Recast
