import JsPrune.Span
/-!
# Comments

A comment of a script, with its place and its text.  The text includes the delimiters.
-/

namespace JsPrune

/-- A comment runs to the end of its line, or from an opening to a closing delimiter. -/
inductive Comment.Kind where
  | line
  | block
  deriving DecidableEq, Repr

structure Comment where
  span : Span
  kind : Comment.Kind
  /-- The characters of the comment, delimiters included. -/
  text : String
  /-- False for a block comment that the end of the text cuts off. -/
  terminated : Bool
  deriving DecidableEq, Repr

/-- The characters that end a line of a script: line feed, carriage return, line separator and
paragraph separator. -/
def isLineTerminator (c : Char) : Bool :=
  c == '\n' || c == '\r' || c == '\u2028' || c == '\u2029'

def Comment.isMultiline (comment : Comment) : Bool :=
  comment.text.toList.any isLineTerminator

end JsPrune
