/-
# What a request says

A request is gathered on four ways, one for each shape of statement.  An assignment takes its
destination type from the target, and the other shapes take theirs from the context of the value.  The
four ways agree, since the context of an assigned value is the target.

* `gather_flags`: what the flags of a request say;
* `parseLenient_gather`: **a request says what the analysis says, for all four shapes**;
* `resolveType_isLazySequence_iff`: of the types with elements, which are lazy sequences;
* `parseLenient_gather_yield`: **a value is yielded to whatever has elements**: also to an array and to a
  list, which are not produced lazily.
-/
import Recast.Proofs.Fix.Resolved
import Recast.Proofs.Semantics.Symbols

namespace Recast

open Analysis (ofTree)

/-! ## 1. Flags -/

section

variable {t : SyntaxTree} {c : Convertible} {r : MappingRequest}

/-- What the flags say: an element of a sequence is produced by `yield return` alone, and what is
written in place is a new variable or a target that can be. -/
theorem gather_flags {model : SemanticModel} {point : CancelPoint} {a a' : Activity}
    (h : MappingRequest.gather t model point c a = (.ok r, a')) :
    r.lazySequence = decide (c.shape = .yielded) ∧
      r.targetExists = match c.target? with
        | some target => canWriteInPlace t model target
        | none => decide (c.shape = .declaration) := by
  cases c with
  | assignment stmt target value =>
    obtain ⟨s, a₁, -, h⟩ := bind_eq_ok.mp h
    obtain ⟨d, a₂, -, h⟩ := bind_eq_ok.mp h
    obtain ⟨-, a₃, -, h⟩ := bind_eq_ok.mp h
    split at h
    · obtain ⟨found, a₄, hfound, h⟩ := bind_eq_ok.mp h
      cases h
      exact ⟨rfl, (FixM.ask_eq_ok.mp hfound).1⟩
    · rename_i hname
      cases h
      exact ⟨rfl, by simp [Convertible.target?, canWriteInPlace, hname]⟩
  | returned stmt value | yielded stmt value | declaration stmt value =>
    obtain ⟨info, a₁, -, h⟩ := bind_eq_ok.mp h
    cases h
    exact ⟨rfl, rfl⟩

theorem SyntaxTree.isName_eq_true {id : NodeId} :
    t.isName id = true ↔ ∃ name, t.construct? id = some (.ident name) := by
  unfold SyntaxTree.isName
  split
  · rename_i name hc
    exact ⟨fun _ => ⟨name, hc⟩, fun _ => rfl⟩
  · rename_i hc
    constructor
    · intro h
      cases h
    · rintro ⟨name, he⟩
      exact absurd he (hc name)

theorem SymbolKind.isVariable_iff {k : SymbolKind} :
    k.isVariable = true ↔ k ∈ [SymbolKind.localVar, .parameter, .field] := by
  cases k <;> decide

/-- A name alone, of a local variable, a parameter or a field. -/
theorem canWriteInPlace_eq_true {model : SemanticModel} {target : NodeId} :
    canWriteInPlace t model target = true ↔
      (∃ name, t.construct? target = some (.ident name)) ∧
        ∃ k ∈ [SymbolKind.localVar, .parameter, .field], model.symbolKind target = some k := by
  rw [canWriteInPlace, Bool.and_eq_true, SyntaxTree.isName_eq_true, Option.any_eq_true]
  simp only [SymbolKind.isVariable_iff, and_comm]

end

/-! ## 2. Requests for parsed programs -/

/-- The target of an assignment in a program can be assigned to. -/
theorem parseLenient_isAssignable_target {text : String} {c : Convertible} {target : NodeId}
    (hin : (parseLenient text).1.InTree c.stmt)
    (hc : (parseLenient text).1.convertible? c.stmt = some c) (htarget : c.target? = some target) :
    ((parseLenient text).1.construct? target).any Construct.isAssignable = true := by
  obtain ⟨role, hf⟩ := parseLenient_fits text hin (parseLenient_convertible_ne_root hc)
  exact (isConvertible_of_convertible? hc).isAssignable_target hf htarget

/-- **A request says what the analysis says, for all four shapes.**  It converts from the type of the
value to the type that its context expects; it is about an element of a sequence for `yield return`
alone, and about a variable to write in place for a declaration and for an assignment to the name of a
local variable, a parameter or a field; and the target of an assignment stands for something that has a
type. -/
theorem parseLenient_gather {text : String} {st : NodeId} {c : Convertible} {point : CancelPoint}
    {r : MappingRequest} {a a' : Activity} (hst : (parseLenient text).1.isAttached st = true)
    (hc : (parseLenient text).1.convertible? st = some c)
    (h : MappingRequest.gather (parseLenient text).1 (ofTree (parseLenient text).1).model point c a =
      (.ok r, a')) :
    (r.stmt = st ∧ r.source = c.source ∧ r.destination = c.target? ∧ r.shape = c.shape) ∧
    (ofTree (parseLenient text).1).typeOf c.source = .ok r.sourceType ∧
    (∃ info, (ofTree (parseLenient text).1).typeInfo c.source = .ok info ∧
      r.destinationType = info.converted) ∧
    (r.lazySequence = true ↔ c.shape = .yielded) ∧
    (r.targetExists = true ↔ c.shape = .declaration ∨
      ∃ target name, c.target? = some target ∧
        (parseLenient text).1.construct? target = some (.ident name) ∧
        ∃ k ∈ [SymbolKind.localVar, .parameter, .field],
          (ofTree (parseLenient text).1).symbolKind target = some k) ∧
    ∀ target, c.target? = some target →
      ∃ k ∈ [SymbolKind.localVar, .parameter, .field, .property, .classType],
        (ofTree (parseLenient text).1).symbolKind target = some k := by
  have hwf := parseLenient_wellFormed text
  have hconv := isConvertible_of_convertible? hc
  obtain ⟨rfl, -⟩ := convertible?_stmt hc
  have hr := gather_eq_ok h
  obtain ⟨hlazy, hexists⟩ := gather_flags h
  have hinfo := hr.typeInfo_source hconv hwf
  refine ⟨⟨hr.stmt, hr.source, hr.destination, hr.shape⟩, (Analysis.typeInfo_eq_ok.mp hinfo).1,
    ⟨_, hinfo, rfl⟩, ?_, ?_, fun target htarget => ?_⟩
  · rw [hlazy, decide_eq_true_iff]
  · rw [hexists]
    cases htarget : c.target? with
    | none => simp
    | some target =>
      have hshape : c.shape ≠ .declaration := by
        cases c <;> simp [Convertible.target?, Convertible.shape] at htarget ⊢
      simp only [canWriteInPlace_eq_true]
      simp [hshape, Analysis.model]
  · have hassign := parseLenient_isAssignable_target (hwf.isAttached_iff.mp hst) hc htarget
    have htypes := hr.types
    rw [htarget] at htypes
    obtain ⟨-, d, -, hd, -, -⟩ := htypes
    exact Analysis.symbolKind_of_typeOf (parseLenient_rooted text) (parseLenient_slotted text).lt hassign
      (Analysis.typeInfo_eq_ok.mp hd).1

/-- A field is assigned to in a method: it can be written in place. -/
theorem parseLenient_gather_of_field :
    ∃ text r, text = "class C \x7b int x; void f(double d) \x7b x = d; \x7d \x7d" ∧
      (MappingRequest.gather (parseLenient text).1 (ofTree (parseLenient text).1).model .never
        (.assignment 4 1 2) .start).1 = .ok r ∧
      (ofTree (parseLenient text).1).typeOf 2 = .ok r.sourceType ∧ r.targetExists = true := by
  obtain ⟨text, htext⟩ : ∃ text,
      text = "class C \x7b int x; void f(double d) \x7b x = d; \x7d \x7d" := ⟨_, rfl⟩
  obtain ⟨hattached, hc, hname, hkind, hfound⟩ : (parseLenient text).1.isAttached 4 = true ∧
      (parseLenient text).1.convertible? 4 = some (.assignment 4 1 2) ∧
      (parseLenient text).1.isName 1 = true ∧
      (ofTree (parseLenient text).1).symbolKind 1 = some .field ∧
      (MappingRequest.gather (parseLenient text).1 (ofTree (parseLenient text).1).model .never
        (.assignment 4 1 2) .start).1.toOption.any (fun _ => true) = true := by
    rw [htext]
    decide +kernel
  obtain ⟨r, a', h, -⟩ := exists_request_of_any hfound
  obtain ⟨-, htype, -, -, hexists, -⟩ := parseLenient_gather hattached hc h
  obtain ⟨name, hident⟩ := SyntaxTree.isName_eq_true.mp hname
  exact ⟨text, r, htext, congrArg Prod.fst h, htype,
    hexists.mpr (.inr ⟨1, name, rfl, hident, .field, by decide, hkind⟩)⟩

/-! ## 3. Sequences -/

/-- A type with arguments is one of the library. -/
theorem Analysis.name_mem_libraryTypes {a : Analysis} {w : WrittenType} {T : DataType}
    (h : a.resolveType w = .ok T) (hargs : T.args ≠ []) : T.name ∈ Analysis.libraryTypes := by
  obtain ⟨name, args, rank, span⟩ := w
  obtain ⟨hknown, rfl⟩ := Analysis.resolveType_eq_ok.mp h
  have hname := (Analysis.unknown?_eq_none.mp hknown).1
  rw [WrittenType.toDataType_eq] at hargs ⊢
  cases args with
  | nil => exact absurd rfl hargs
  | cons v vs => exact List.contains_iff_mem.mp hname

/-- **Of the types with elements, the lazy sequences are those that are neither arrays nor lists.** -/
theorem Analysis.resolveType_isLazySequence_iff {a : Analysis} {w : WrittenType} {T E : DataType}
    (h : a.resolveType w = .ok T) (he : T.element? = some E) :
    T.isLazySequence = true ∧ T.args = [E] ↔ T.isArray = false ∧ T.name ≠ "List" := by
  unfold DataType.element? at he
  unfold DataType.isLazySequence
  cases hrank : T.isArray with
  | true => simp
  | false =>
    rw [hrank] at he
    split at he
    · contradiction
    · split at he
      · rename_i element hargs
        cases he
        have hmem := Analysis.name_mem_libraryTypes h (by simp [hargs])
        simp only [Analysis.libraryTypes, List.mem_cons, List.not_mem_nil, or_false] at hmem
        rcases hmem with hname | hname | hname <;> simp [hname, hargs]
      · cases he

/-- **A value is yielded to whatever has elements.**  A request for it converts to the type of the
elements of what the function around it returns; this is the argument of a lazy sequence, unless the
function returns an array or a list. -/
theorem parseLenient_gather_yield {text : String} {st value : NodeId} {point : CancelPoint}
    {r : MappingRequest} {a a' : Activity}
    (hc : (parseLenient text).1.convertible? st = some (.yielded st value))
    (h : MappingRequest.gather (parseLenient text).1 (ofTree (parseLenient text).1).model point
      (.yielded st value) a = (.ok r, a')) :
    ∃ function returnType name params body R,
      (parseLenient text).1.enclosingFunction? st = some function ∧
      (parseLenient text).1.construct? function = some (.function returnType name params body) ∧
      (ofTree (parseLenient text).1).resolveType returnType = .ok R ∧
      R.element? = some r.destinationType ∧
      (R.isLazySequence = true ∧ R.args = [r.destinationType] ↔ R.isArray = false ∧ R.name ≠ "List") := by
  have hwf := parseLenient_wellFormed text
  have hconv := isConvertible_of_convertible? hc
  have hinfo := (gather_eq_ok h).typeInfo_source hconv hwf
  obtain ⟨-, expected, hexpected, hdest⟩ := Analysis.typeInfo_eq_ok.mp hinfo
  cases hconv with
  | yielded hid =>
    obtain ⟨R, E, hR, hE, rfl⟩ := (Analysis.expectedType?_of_yieldStmt hwf hid).mp hexpected
    obtain ⟨function, returnType, name, params, body, hf, hd, hresolve⟩ :=
      Analysis.enclosingReturnType_eq_ok.mp hR
    rw [show r.destinationType = E from hdest]
    exact ⟨function, returnType, name, params, body, R, hf, hd, hresolve, hE,
      Analysis.resolveType_isLazySequence_iff hresolve hE⟩

/-- In a function that returns a lazy sequence a value is converted to its argument. -/
theorem parseLenient_gather_yield_of_enumerable :
    ∃ text r R, text = "IEnumerable<int> f() \x7b yield return 1L; \x7d" ∧
      (MappingRequest.gather (parseLenient text).1 (ofTree (parseLenient text).1).model .never
        (.yielded 1 0) .start).1 = .ok r ∧
      (ofTree (parseLenient text).1).enclosingReturnType 1 = .ok R ∧
      R.isLazySequence = true ∧ R.args = [r.destinationType] := by
  obtain ⟨text, htext⟩ : ∃ text, text = "IEnumerable<int> f() \x7b yield return 1L; \x7d" := ⟨_, rfl⟩
  obtain ⟨hc, hfound, hreturn⟩ : (parseLenient text).1.convertible? 1 = some (.yielded 1 0) ∧
      (MappingRequest.gather (parseLenient text).1 (ofTree (parseLenient text).1).model .never
        (.yielded 1 0) .start).1.toOption.any (fun _ => true) = true ∧
      ((ofTree (parseLenient text).1).enclosingReturnType 1).toOption.any
        (fun R => R.isArray = false ∧ R.name ≠ "List") = true := by
    rw [htext]
    decide +kernel
  obtain ⟨r, a', h, -⟩ := exists_request_of_any hfound
  obtain ⟨function, returnType, name, params, body, R, hf, hd, hresolve, -, hlazy⟩ :=
    parseLenient_gather_yield hc h
  have hR : (ofTree (parseLenient text).1).enclosingReturnType 1 = .ok R :=
    Analysis.enclosingReturnType_eq_ok.mpr ⟨function, returnType, name, params, body, hf, hd, hresolve⟩
  rw [hR] at hreturn
  exact ⟨text, r, R, htext, congrArg Prod.fst h, hR, hlazy.mpr (of_decide_eq_true hreturn)⟩

/-- **A value is converted where it is yielded to a list**, which is not produced lazily. -/
theorem gather_yields_to_list :
    ∃ text r R, text = "List<int> f() \x7b yield return 1L; \x7d" ∧
      (parseLenient text).1.isAttached 1 = true ∧
      (parseLenient text).1.convertible? 1 = some (.yielded 1 0) ∧
      (MappingRequest.gather (parseLenient text).1 (ofTree (parseLenient text).1).model .never
        (.yielded 1 0) .start).1 = .ok r ∧ r.destinationType.text = "int" ∧
      (ofTree (parseLenient text).1).enclosingReturnType 1 = .ok R ∧ R.isLazySequence = false := by
  obtain ⟨text, htext⟩ : ∃ text, text = "List<int> f() \x7b yield return 1L; \x7d" := ⟨_, rfl⟩
  obtain ⟨hst, hc, hfound, hreturn⟩ : (parseLenient text).1.isAttached 1 = true ∧
      (parseLenient text).1.convertible? 1 = some (.yielded 1 0) ∧
      (MappingRequest.gather (parseLenient text).1 (ofTree (parseLenient text).1).model .never
        (.yielded 1 0) .start).1.toOption.any (fun r => r.destinationType.text = "int") = true ∧
      ((ofTree (parseLenient text).1).enclosingReturnType 1).toOption.any
        (fun R => R.isLazySequence = false) = true := by
    rw [htext]
    decide +kernel
  obtain ⟨r, a', h, hdest⟩ := exists_request_of_any hfound
  cases hR : (ofTree (parseLenient text).1).enclosingReturnType 1 with
  | error e =>
    rw [hR] at hreturn
    cases hreturn
  | ok R =>
    rw [hR] at hreturn
    have hlazy : R.isLazySequence = false := of_decide_eq_true hreturn
    have hint : r.destinationType.text = "int" := of_decide_eq_true hdest
    exact ⟨text, r, R, htext, hst, hc, congrArg Prod.fst h, hint, hR, hlazy⟩

end Recast
