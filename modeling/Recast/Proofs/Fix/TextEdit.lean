/-
# What a fix does to the text

A mapping engine is given a factory, by which it can add nodes to the tree and nothing else.  So the
span of the statement that is replaced is the one that it was parsed with, and the fix changes the
bytes under this span and no others.

* `Build.Factory`: the calls that the factory offers; `MappingEngine.UsesFactory`: an engine that
  changes the tree through them only;
* `castEngine_usesFactory`: the casting engine is one;
* `fixWith_keeps_text`: **a fix changes only the bytes of the replaced statement**, if the document has
  the tree of its text.
-/
import Recast.Proofs.Fix.Search
import Recast.Proofs.Tree.Copy

namespace Recast

open Text (byteSize)

/-! ## 1. The factory -/

/-- The calls that add nodes to a tree. -/
inductive Build.Factory : Build NodeId → Prop
  | copy (id : NodeId) : Factory (Build.copy id)
  | literal (value : Literal) : Factory (Build.literal value)
  | ident (name : String) : Factory (Build.ident name)
  | member (object : NodeId) (name : String) : Factory (Build.member object name)
  | call (callee : NodeId) (args : List NodeId) : Factory (Build.call callee args)
  | newObject (type : DataType) (args : List NodeId) : Factory (Build.newObject type args)
  | cast (type : DataType) (expr : NodeId) : Factory (Build.cast type expr)
  | assign (target value : NodeId) : Factory (Build.assign target value)
  | exprStmt (expr : NodeId) : Factory (Build.exprStmt expr)
  | localDecl (type : DataType) (name : String) (init : NodeId) :
      Factory (Build.localDecl type name init)
  | returnStmt (value : Option NodeId) : Factory (Build.returnStmt value)
  | yieldStmt (value : NodeId) : Factory (Build.yieldStmt value)
  | block (stmts : List NodeId) : Factory (Build.block stmts)

/-- One tree comes out of another by calls of the factory. -/
inductive SyntaxTree.Manufactured (t : SyntaxTree) : SyntaxTree → Prop
  | refl : Manufactured t t
  | call {u : SyntaxTree} {x : Build NodeId} : Manufactured t u → Build.Factory x →
      Manufactured t (x u).2

/-- The engine changes the tree by calls of the factory only. -/
def MappingEngine.UsesFactory (engine : MappingEngine) : Prop :=
  ∀ (r : MappingRequest) (t : SyntaxTree), t.Manufactured (engine r t).2

namespace SyntaxTree

variable {t u : SyntaxTree}

/-- **What every new node keeps, every call of the factory keeps.** -/
theorem factory_keeps {P : SyntaxTree → Prop} (hP : ∀ t c span, P t → P (t.alloc c span).2)
    {x : Build NodeId} (hx : Build.Factory x) (h : P t) : P (x t).2 := by
  cases hx with
  | copy id => exact copyTo_keeps (fun t c => hP t c default) t.size id t h
  | _ => exact hP t _ _ h

theorem extends_of_factory {x : Build NodeId} (h : Build.Factory x) (t : SyntaxTree) :
    t.Extends (x t).2 :=
  factory_keeps (fun _ c span he => he.trans (.alloc _ c span)) h (.refl t)

/-- **The factory adds nodes and changes none.** -/
theorem Manufactured.extends (h : t.Manufactured u) : t.Extends u := by
  induction h with
  | refl => exact .refl t
  | call _ hx ih => exact ih.trans (extends_of_factory hx _)

theorem Manufactured.trans {v : SyntaxTree} (h : t.Manufactured u) (h' : u.Manufactured v) :
    t.Manufactured v := by
  induction h' with
  | refl => exact h
  | call _ hx ih => exact .call ih hx

end SyntaxTree

/-! ## 2. The casting engine -/

/-- An activity that changes the tree by calls of the factory only. -/
def Makes {α : Type} (x : ExceptT MappingError Build α) : Prop :=
  ∀ t : SyntaxTree, t.Manufactured (x t).2

namespace Makes

variable {α β : Type}

theorem bind {x : ExceptT MappingError Build α} {f : α → ExceptT MappingError Build β}
    (hx : Makes x) (hf : ∀ a, Makes (f a)) : Makes (x >>= f) := by
  intro t
  have hxt := hx t
  rw [bind_apply]
  rcases hx' : x t with ⟨e | a, u⟩
  · rw [hx'] at hxt
    exact hxt
  · rw [hx'] at hxt
    exact hxt.trans (hf a u)

theorem pure (a : α) : Makes (Pure.pure a) := fun _ => .refl

theorem throw (e : MappingError) : Makes (MonadExcept.throw e : ExceptT MappingError Build α) :=
  fun _ => .refl

theorem lift {x : Build NodeId} (h : Build.Factory x) :
    Makes (liftM x : ExceptT MappingError Build NodeId) := fun _ => .call .refl h

end Makes

theorem makes_convertedStmt (r : MappingRequest) (converted : NodeId) :
    Makes (convertedStmt r converted) := by
  unfold convertedStmt
  split
  · split
    · exact .throw _
    · refine (Makes.lift (.copy _)).bind fun target => ?_
      exact (Makes.lift (.assign target converted)).bind fun assign => .lift (.exprStmt assign)
  · exact .lift (.returnStmt _)
  · exact .lift (.yieldStmt _)
  · refine Makes.bind (fun _ => .refl) fun t => ?_
    split
    · exact .throw _
    · exact .lift (.localDecl _ _ _)

/-- The casting engine changes the tree through the factory only. -/
theorem castEngine_usesFactory : castEngine.UsesFactory := by
  intro r
  change Makes (castEngine r)
  unfold castEngine
  split
  · exact .throw _
  · split
    · exact .pure _
    · refine (Makes.lift (.copy _)).bind fun source => ?_
      refine (Makes.lift (.cast _ source)).bind fun converted => ?_
      exact (makes_convertedStmt r converted).bind fun stmt => .pure _

/-! ## 3. The text of a fix -/

theorem Document.withReplacement_of_cut {d : Document} {tree : SyntaxTree} {span : Span}
    {nodes : List NodeId} {before mid after : List Char}
    (htext : d.text.toList = before ++ (mid ++ after)) (hoff : span.offset = byteSize before)
    (hstop : span.stop = byteSize (before ++ mid)) :
    d.withReplacement tree span nodes =
      d.edited (String.ofList before ++ replacementText tree before nodes ++ String.ofList after)
        tree := by
  have h₁ : Text.splitAtByte? d.text.toList span.offset = some (before, mid ++ after) :=
    Text.splitAtByte?_eq_some_iff.mpr ⟨htext.symm, hoff.symm⟩
  have h₂ : Text.splitAtByte? d.text.toList span.stop = some (before ++ mid, after) :=
    Text.splitAtByte?_eq_some_iff.mpr ⟨by rw [htext, List.append_assoc], hstop.symm⟩
  simp only [withReplacement, h₁, h₂]

/-- The document of a fix: the text under the span of the replaced statement is another one. -/
theorem Found.document_eq {p : FixProvider} {d : Document} {model : SemanticModel}
    {diagnostic : Diagnostic} {c : Convertible} {produced : List NodeId} {working : SyntaxTree}
    {f : Fix} (h : Found p d model diagnostic c produced working f)
    (htree : d.tree = (parseLenient d.text).1) (hp : p.engine.UsesFactory) :
    ∃ before old after, d.text.toList = before ++ (old ++ after) ∧ old ≠ [] ∧
      (d.tree.spanOf f.replaced).offset = byteSize before ∧
      (d.tree.spanOf f.replaced).stop = byteSize (before ++ old) ∧
      f.document = d.edited (String.ofList before ++ Document.replacementText f.document.tree before
        (FixProvider.shownNodes f.placement (produced.filter working.isStatement)) ++
        String.ofList after) f.document.tree := by
  have hrooted := parseLenient_rooted d.text
  have hstmt : f.replaced = c.stmt := h.requested.stmt
  obtain ⟨hin, hc⟩ := convertibleAt?_inTree (htree ▸ hrooted) h.located
  obtain ⟨-, s, hs, -⟩ := convertible?_stmt hc
  have hroot : c.stmt ≠ d.tree.root := by
    rw [htree] at hc ⊢
    exact parseLenient_convertible_ne_root hc
  -- the engine did not touch the span
  have hspan : working.spanOf f.request.stmt = d.tree.spanOf f.replaced := by
    have hext : d.tree.Extends working := by
      have := (hp f.request d.tree).extends
      rwa [h.built] at this
    exact hext.span_eq _ (by
      rw [show f.request.stmt = c.stmt from hstmt]
      exact SyntaxTree.lt_size_of_construct? hs)
  obtain ⟨before, old, after, htext, hold, hoff, hstop⟩ :=
    parseLenient_cut d.text (htree ▸ hin) (htree ▸ hroot)
  rw [← htree, ← hstmt] at hoff hstop
  refine ⟨before, old, after, htext, hold, hoff, hstop, ?_⟩
  obtain ⟨tree, -, hdoc⟩ := h.placed
  rw [hspan, Document.withReplacement_of_cut htext hoff hstop] at hdoc
  rw [hdoc]
  rfl

/-- A search that ends with a fix, seen from its result. -/
theorem exists_fix_of_isSome {r : Except FixError (Option Fix) × Activity}
    (h : r.1.toOption.join.isSome = true) : ∃ f a, r = (.ok (some f), a) := by
  rcases r with ⟨_ | _ | f, a⟩
  · cases h
  · cases h
  · exact ⟨f, a, rfl⟩

/-- **A fix of a document with the tree of its text changes only the bytes of the replaced statement.**
For every model and every engine that works through the factory, the span of the replaced statement
is a range of whole characters, and what comes before and after it stays.  The printed whole is never
what is left. -/
theorem fixWith_keeps_text {d : Document} (htree : d.tree = (parseLenient d.text).1)
    {p : FixProvider} {model : SemanticModel} {diagnostic : Diagnostic} {point : CancelPoint}
    {a a' : Activity} {f : Fix} (hp : p.engine.UsesFactory)
    (h : p.fixWith d model diagnostic point a = (.ok (some f), a')) :
    ∃ before old after new : String, d.text = before ++ old ++ after ∧
      (d.tree.spanOf f.replaced).offset = byteSize before.toList ∧
      (d.tree.spanOf f.replaced).stop = byteSize (before ++ old).toList ∧
      f.document.text = before ++ new ++ after ∧
      (∃ nodes, new = Document.replacementText f.document.tree before.toList nodes) ∧
      f.document.name = d.name ∧ f.document.version = d.version + 1 ∧
      f.document.spansCurrent = false := by
  obtain ⟨c, produced, working, hf⟩ := fixWith_eq_ok h
  obtain ⟨before, old, after, htext, -, hoff, hstop, hdoc⟩ := hf.document_eq htree hp
  refine ⟨String.ofList before, String.ofList old, String.ofList after, _, ?_, ?_, ?_,
    congrArg Document.text hdoc, ⟨_, by rw [String.toList_ofList]⟩, ?_, ?_, ?_⟩
  · rw [← String.ofList_append, ← String.ofList_append, List.append_assoc, ← htext,
      String.ofList_toList]
  · rw [String.toList_ofList]
    exact hoff
  · rw [← String.ofList_append, String.toList_ofList]
    exact hstop
  · rw [hdoc, Document.edited]
  · rw [hdoc, Document.edited]
  · rw [hdoc, Document.edited]

end Recast
