/-
# Joining texts

`Text.concat` puts texts one after another, `Text.join` puts a separator between them.
-/
namespace Recast.Text

/-- Texts one after another. -/
def concat : List String → String
  | [] => ""
  | s :: ss => s ++ concat ss

/-- Texts one after another, each after a separator. -/
def joinTail (separator : String) : List String → String
  | [] => ""
  | s :: ss => separator ++ s ++ joinTail separator ss

/-- Texts one after another, with a separator between each two of them. -/
def join (separator : String) : List String → String
  | [] => ""
  | s :: ss => s ++ joinTail separator ss

end Recast.Text
