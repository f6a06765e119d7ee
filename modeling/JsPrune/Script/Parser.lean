import JsPrune.Error
import JsPrune.Script.Tree
/-!
# Parsers

What the rest relies on to come from a script to its tree.  A parser may give up, and it may give a
tree that holds errors; the spans of such a tree are not safe to cut.
-/

namespace JsPrune

structure Parser where
  parse : String → Option Tree
  hasErrors : Tree → Bool

/-- The tree of a script, if it is without errors. -/
def Parser.tree (parser : Parser) (source : String) : Except Error Tree :=
  match parser.parse source with
  | none => .error .parseFailed
  | some tree => if parser.hasErrors tree then .error .parseFailed else .ok tree

end JsPrune
