/-
# Parsing, documents and fixes with places of 32 bits

The parser puts spans together from those of the tokens, the search for a node compares them with an
offset, and an edit cuts the text at their ends.  A span that the lexer hands out ends within the 32
bits, and so does what two such spans merge to: none of this can leave the 32 bits, so all of it is
the same as without a bound.  What is left is this.

* The size of a text is cut where it becomes the span of the root.
* The quotes of a string literal are taken away as its first and its last byte.  A literal that
  stands far out is handed out with other characters in front, and the first of them may have
  several bytes; then there is no result.
* The end of a span that a caller makes up, and the version of a document, are sums that are
  checked.
* The id of a node has 32 bits.  Every node of a parsed tree but the root has a token of its own, so
  the ids suffice for a text of fewer than `2 ^ 32` bytes.  A fix adds copies of nodes; where it
  would need more nodes than there are ids there is no result either.
-/
import Recast.Fix.Provider
import Recast.Narrow.Lexer

namespace Recast.Narrow

/-! ## 1. Programs -/

/-- Whether the first byte of a token can be taken away, if it is a string literal. -/
def unquotable (t : Token) : Bool :=
  t.kind ≠ .stringLiteral || t.lexeme.toList.head?.any fun c => c.utf8Size = 1

/-- The tree of everything in a text that can be read, and all errors. -/
def parseLenient (text : String) : Option (SyntaxTree × List ParseError) := do
  let lexed ← tokenize text
  if lexed.1.all unquotable then
    let (_, p) := Parse.program (.ofLexed lexed (cut (Text.byteSize text.toList)))
    pure (p.tree, p.errors)
  else none

/-- The tree of a text without errors, or the errors. -/
def parse (text : String) : Option (Except (List ParseError) SyntaxTree) :=
  (parseLenient text).map fun (tree, errors) => if errors.isEmpty then .ok tree else .error errors

/-! ## 2. Documents -/

namespace Document

/-- The document of a text without errors. -/
def parse (name text : String) : Option (Except (List ParseError) Document) :=
  (Narrow.parse text).map fun parsed => parsed.map fun tree => ⟨name, text, tree, 0, true⟩

/-- The document of a text, with its errors. -/
def parseLenient (name text : String) : Option (Document × List ParseError) :=
  (Narrow.parseLenient text).map fun (tree, errors) => (⟨name, text, tree, 0, true⟩, errors)

/-- The same text parsed again. -/
def reparse (d : Document) : Option (Except (List ParseError) Document) :=
  (Narrow.parse d.text).map fun parsed =>
    parsed.map fun tree => { d with tree := tree, spansCurrent := true }

/-- An edited document, if there is a next version. -/
def counted? (d : Document) : Option Document := if d.version < size then some d else none

/-- The document of an edited tree, printed as a whole. -/
def withTree (d : Document) (tree : SyntaxTree) : Option Document := counted? (d.withTree tree)

/-- The document of an edited tree, in which the bytes under a span became the given nodes. -/
def withReplacement (d : Document) (tree : SyntaxTree) (span : Span) (nodes : List NodeId) :
    Option Document :=
  if span.stop < size then counted? (d.withReplacement tree span nodes) else none

end Document

/-! ## 3. Fixes -/

/-- What a search for a fix came to, if the edited document could be made. -/
def found? (found : Except FixError (Option Fix) × Activity) :
    Option (Except FixError (Option Fix) × Activity) :=
  match found with
  | (.ok (some f), a) =>
    if (f.document.tree.spanOf f.replaced).stop < size ∧ f.document.tree.size ≤ size then
      (Document.counted? f.document).map fun _ => (.ok (some f), a)
    else none
  | _ => some found

/-- The fix for a diagnostic, by the answers of a model. -/
def fixWith (p : FixProvider) (d : Document) (model : SemanticModel) (diagnostic : Diagnostic)
    (point : CancelPoint) (a : Activity) : Option (Except FixError (Option Fix) × Activity) :=
  found? (p.fixWith d model diagnostic point a)

/-- The fix for a diagnostic, by the analysis of the document. -/
def fix (p : FixProvider) (d : Document) (diagnostic : Diagnostic) (point : CancelPoint)
    (a : Activity) : Option (Except FixError (Option Fix) × Activity) :=
  found? (p.fix d diagnostic point a)

end Recast.Narrow
