/-
# Scopes with depths of 32 bits

The depth of a scope is a counter of 32 bits.  To open a scope adds one to it, which is checked; all
else that is done to scopes only compares depths or takes one away.
-/
import Recast.Narrow.Lexer
import Recast.Semantics.Scope

namespace Recast.Narrow

/-- Open a scope in the current one, if there is a next depth. -/
def enter? (s : Scope) : Option Scope := if s.depth + 1 < size then some s.enter else none

end Recast.Narrow
