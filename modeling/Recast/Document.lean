/-
# Documents

A `Document` is a named text with its tree.  It is never changed; an edit makes a new document with
the next version.

* `withReplacement` changes only the bytes under a span: they become nodes of the edited tree,
  printed, with the lines after the first indented like the line on which the span starts;
* `withTree` prints the whole edited tree; it is what remains when the span is no range of the
  text;
* the spans of an edited tree still point into the text before the edit (`spansCurrent`), until
  `reparse` makes them match again.

Versions are counted without a bound here, and in 32 bits in `Recast.Narrow`.
-/
import Recast.Parser.Program
import Recast.Text.Join
import Recast.Tree.Printer

namespace Recast

/-- A named text with its tree. -/
structure Document where
  name : String
  text : String
  tree : SyntaxTree
  version : Nat
  /-- Whether the spans of the tree belong to the text. -/
  spansCurrent : Bool
  deriving DecidableEq

namespace Document

/-! ## 1. Parsed documents -/

/-- The document of a text without errors. -/
def parse (name text : String) : Except (List ParseError) Document :=
  (Recast.parse text).map fun tree => ⟨name, text, tree, 0, true⟩

/-- The document of a text, with its errors. -/
def parseLenient (name text : String) : Document × List ParseError :=
  let (tree, errors) := Recast.parseLenient text
  (⟨name, text, tree, 0, true⟩, errors)

/-- The same text parsed again. -/
def reparse (d : Document) : Except (List ParseError) Document :=
  (Recast.parse d.text).map fun tree => { d with tree := tree, spansCurrent := true }

/-! ## 2. Edited documents -/

/-- The document with another text and tree. -/
def edited (d : Document) (text : String) (tree : SyntaxTree) : Document :=
  ⟨d.name, text, tree, d.version + 1, false⟩

/-- The document of an edited tree, printed as a whole. -/
def withTree (d : Document) (tree : SyntaxTree) : Document := d.edited tree.print tree

/-- Indent every line of a text but the first. -/
def indentLines (indent cs : List Char) : List Char :=
  cs.flatMap fun c => if c = '\n' then '\n' :: indent else [c]

/-- The text of several nodes after the characters `before`.  They go on separate lines if only
blanks stand before them on their line, and are separated by a blank otherwise. -/
def replacementText (tree : SyntaxTree) (before : List Char) (nodes : List NodeId) : String :=
  let line := Text.lastLine before
  let indent := line.takeWhile Text.isBlank
  let separator := if line.length = indent.length then String.ofList ('\n' :: indent) else " "
  Text.join separator (nodes.map fun id =>
    String.ofList (indentLines indent (tree.printNode id).toList))

/-- The document of an edited tree, in which the bytes under a span became the given nodes. -/
def withReplacement (d : Document) (tree : SyntaxTree) (span : Span) (nodes : List NodeId) :
    Document :=
  match Text.splitAtByte? d.text.toList span.offset, Text.splitAtByte? d.text.toList span.stop with
  | some (before, _), some (_, after) =>
    d.edited (String.ofList before ++ replacementText tree before nodes ++ String.ofList after) tree
  | _, _ => d.withTree tree

/-- The document as it is shown to a developer. -/
def detail (d : Document) : String :=
  "Document \x7b name: " ++ Text.inspect d.name ++ ", version: " ++ toString d.version ++
    ", nodes: " ++ toString d.tree.size ++ " \x7d"

end Document

end Recast
