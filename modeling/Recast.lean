import Recast.Fix.Provider
import Recast.Proofs.Document.RoundTrip
import Recast.Proofs.Fix.TextEdit
import Recast.Proofs.Parser.Table
import Recast.Proofs.Document.Spans
import Recast.Proofs.Tree.Edited
import Recast.Proofs.Tree.Replacement
import Recast.Proofs.Tree.Rewrite
import Recast.Proofs.Fix.Cast
import Recast.Proofs.Token.Local
import Recast.Proofs.Fix.Reparse
import Recast.Proofs.Semantics.Rebind
import Recast.Proofs.Semantics.Retype
import Recast.Proofs.Fix.Resolved
import Recast.Proofs.Fix.Locate
import Recast.Proofs.Parser.Grammatical
import Recast.Proofs.Token.Agrees
import Recast.Proofs.Document.TokensKept
import Recast.Proofs.Semantics.Lexical
import Recast.Proofs.Parser.Progress
import Recast.Proofs.Semantics.TypeQueries
import Recast.Proofs.Parser.Lockstep
import Recast.Proofs.Parser.Recovery
import Recast.Proofs.Fix.Destination
import Recast.Proofs.Token.Decimal
import Recast.Proofs.Tree.Clean
import Recast.Proofs.Fix.Layout
import Recast.Proofs.Semantics.Symbols
import Recast.Proofs.Fix.Gathered
import Recast.Proofs.Fix.Outcome
import Recast.Proofs.Token.Spaced
import Recast.Proofs.Token.LiteralText
import Recast.Proofs.Tree.DeepCopy
import Recast.Proofs.Types.Separation
import Recast.Proofs.Types.Canonical
import Recast.Proofs.Parser.Ahead
import Recast.Proofs.Parser.ErrorOrder
import Recast.Proofs.Narrow.Printing
import Recast.Proofs.Narrow.Fix
import Recast.Proofs.Narrow.Scope
