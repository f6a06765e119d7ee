import JsPrune.Text.WordChar
/-!
# Categories of comments

The category of a comment follows from its text alone.  An opening `/*!` marks a license and an
opening `/**` documentation, which becomes a license by an `@license` tag; any other comment is an
annotation for other tools, or means nothing.
-/

namespace JsPrune

inductive Category where
  /-- Opens with `/*!`, or is documentation with an `@license` tag. -/
  | license
  /-- Opens with `/**`. -/
  | documentation
  /-- Names a call pure or free of side effects. -/
  | hint
  | meaningless
  deriving DecidableEq, Repr

namespace Category

/-- Whether some tail of a list of characters, the whole list and the empty one included, passes
a test. -/
def anyTail (test : List Char → Bool) : List Char → Bool
  | [] => test []
  | c :: cs => test (c :: cs) || anyTail test cs

/-- An opening mark counts only before a space or the end of a line. -/
def endsOpener (c : Char) : Bool :=
  c == ' ' || c == '\r' || c == '\n' || c == '\u2028' || c == '\u2029'

def opensWith (mark : Char) : List Char → Bool
  | '/' :: '*' :: m :: c :: _ => m == mark && endsOpener c
  | _ => false

/-- Whether white space, `@license` and the end of a word come first. -/
def startsWithLicenseTag : List Char → Bool
  | c :: '@' :: 'l' :: 'i' :: 'c' :: 'e' :: 'n' :: 's' :: 'e' :: rest =>
    Text.isWhiteSpace c && rest.head?.all fun next => !Text.isWordChar next
  | _ => false

def startsWithAnnotation : List Char → Bool
  | c :: rest => (c == '@' || c == '#') &&
      ("__PURE__".toList.isPrefixOf rest || "__NO_SIDE_EFFECTS__".toList.isPrefixOf rest)
  | [] => false

def ofText (text : String) : Category :=
  let cs := text.toList
  if opensWith '!' cs then .license
  else if opensWith '*' cs then
    if anyTail startsWithLicenseTag cs then .license else .documentation
  else if anyTail startsWithAnnotation cs then .hint
  else .meaningless

end Category

end JsPrune
