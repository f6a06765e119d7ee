/-!
# Errors

The ways in which work on a script can fail, and how a user reads of them.
-/

namespace JsPrune

inductive Error where
  /-- The script is not in the language. -/
  | parseFailed
  /-- The offsets are no span between two characters of a script of the given size. -/
  | invalidSpan (start stop size : Nat)
  | sessionClosed
  | unterminatedComment (start : Nat)
  deriving DecidableEq, Repr

def Error.message : Error → String
  | .parseFailed => "tree-sitter failed to parse input"
  | .invalidSpan start stop size =>
    "invalid range [" ++ toString start ++ "," ++ toString stop ++ ") for source of length " ++
      toString size
  | .sessionClosed => "raker is finalized; no further marks can be added"
  | .unterminatedComment start =>
    "unterminated block comment starting at byte " ++ toString start

end JsPrune
