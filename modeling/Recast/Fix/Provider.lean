/-
# Fixes

A `FixProvider` answers the diagnostic of a value that is not converted implicitly with a fix: the
document in which the statement around the value is replaced by statements that convert it.

* `fixWith` finds the statement, gathers the request, has the engine write the replacement
  and puts it in place, both in the tree and in the text.  There is no fix for another diagnostic,
  for a document whose spans are not current, where no convertible statement is found, and where
  the engine returns no statement;
* `fix` asks the analysis of the document itself;
* `fixes` does so for each of several diagnostics and skips those whose types cannot be
  found; any other failure ends it.
-/
import Recast.Diagnostic
import Recast.Document
import Recast.Fix.Engine
import Recast.Semantics.Analysis
import Recast.Tree.Edit

namespace Recast

/-- A fix that is offered: the document as it would be. -/
structure Fix where
  title : String
  diagnostic : Diagnostic
  /-- The request that the engine was given. -/
  request : MappingRequest
  document : Document
  placement : Placement

/-- The statement that was replaced. -/
def Fix.replaced (f : Fix) : NodeId := f.request.stmt

/-- Offers fixes, with an engine and under a title. -/
structure FixProvider where
  engine : MappingEngine
  title : String

namespace FixProvider

/-- The title of a fix unless another one is chosen. -/
def defaultTitle : String := "Convert with explicit mapping"

/-- The provider that casts. -/
def casting : FixProvider := ⟨castEngine, defaultTitle⟩

/-- The diagnostics that can be fixed. -/
def fixableCodes : List String := [Diagnostic.invalidConversionCode]

/-- Call the engine on a copy of the tree, and keep count. -/
def runEngine (p : FixProvider) (tree : SyntaxTree) (r : MappingRequest) :
    FixM (List NodeId × SyntaxTree) := do
  let (result, working) := p.engine r tree
  match result with
  | .ok produced =>
    modify fun a => { a with requests := a.requests + 1, produced := produced }
    pure (produced, working)
  | .error e =>
    modify fun a => { a with requests := a.requests + 1, produced := [] }
    throw (.mapping e)

/-- The nodes that the text of a replacement shows. -/
def shownNodes (placement : Placement) (stmts : List NodeId) : List NodeId :=
  match placement with
  | .spliced .. => stmts
  | .wrapped block => [block]

/-- The fix for a diagnostic, by the answers of a model. -/
def fixWith (p : FixProvider) (document : Document) (model : SemanticModel)
    (diagnostic : Diagnostic) (point : CancelPoint) : FixM (Option Fix) := do
  if !fixableCodes.contains diagnostic.code then pure none
  else if !document.spansCurrent then pure none
  else match document.tree.convertibleAt? diagnostic.start with
    | none => pure none
    | some statement =>
      let request ← MappingRequest.gather document.tree model point statement
      FixM.check point
      let (produced, working) ← p.runEngine document.tree request
      let stmts := produced.filter working.isStatement
      if stmts.isEmpty then pure none
      else
        let span := working.spanOf request.stmt
        match working.replaceStatement request.stmt stmts with
        | (.error e, _) => throw (.tree e)
        | (.ok placement, tree) =>
          pure (some
            { title := p.title
              diagnostic := diagnostic
              request := request
              document := document.withReplacement tree span (shownNodes placement stmts)
              placement := placement })

/-- The fix for a diagnostic, by the analysis of the document. -/
def fix (p : FixProvider) (document : Document) (diagnostic : Diagnostic)
    (point : CancelPoint) : FixM (Option Fix) := do
  FixM.check point
  p.fixWith document (Analysis.ofTree document.tree).model diagnostic point

/-- The fixes for several diagnostics, by the answers of a model. -/
def fixesWith (p : FixProvider) (document : Document) (model : SemanticModel)
    (point : CancelPoint) : List Diagnostic → FixM (List Fix)
  | [] => pure []
  | diagnostic :: diagnostics => do
    let found ←
      tryCatch (p.fixWith document model diagnostic point) fun e =>
        if e.isRecoverable then pure none else throw e
    let more ← fixesWith p document model point diagnostics
    pure (found.toList ++ more)

/-- The fixes for several diagnostics of one document. -/
def fixes (p : FixProvider) (document : Document) (diagnostics : List Diagnostic)
    (point : CancelPoint) : FixM (List Fix) := do
  FixM.check point
  p.fixesWith document (Analysis.ofTree document.tree).model point diagnostics

end FixProvider

end Recast
