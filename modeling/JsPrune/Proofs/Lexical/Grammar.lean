import JsPrune.Comment.Scanner
import Mathlib.Data.List.Infix
import Mathlib.Data.String.Basic
/-!
# The lexical grammar

On its surface a script is a sequence of elements: whitespace, comments, literals, words, numbers and
punctuators.  Braces hold elements again, and so do the substitutions of a template, to any depth.

Whether a sequence is well formed is decided element by element, from what stands before an element
and from the character behind it.  A slash is the one mark that needs what stands before: it starts a
regular expression at the start of a sequence, behind a punctuator that closes nothing and behind a
word that an expression follows, and elsewhere it divides.
-/

namespace JsPrune.Lexical

open String (utf8Len)
open Scanner (isWordPart isSpace expressionKeywords)

inductive Element where
  | space (run : List Char)
  | comment (kind : Comment.Kind) (body : List Char)
  | string (quote : Char) (body : List Char)
  /-- Text up to the first substitution, then the substitutions, each with the text behind it. -/
  | template (text : List Char) (substitutions : List (List Element × List Char))
  | regex (body flags : List Char)
  | word (name : List Char)
  /-- A number, which a dot may lead. -/
  | number (dotted : Bool) (digits : List Char)
  /-- What stands between two braces. -/
  | group (inside : List Element)
  | mark (punctuator : List Char)
  deriving Repr

/-! ## Characters -/

def commentChars : Comment.Kind → List Char → List Char
  | .line, body => '/' :: '/' :: body
  | .block, body => '/' :: '*' :: (body ++ ['*', '/'])

mutual

def Element.chars : Element → List Char
  | .space run => run
  | .comment kind body => commentChars kind body
  | .string quote body => quote :: (body ++ [quote])
  | .template text substitutions => '\x60' :: (text ++ substitutionChars substitutions)
  | .regex body flags => '/' :: (body ++ '/' :: flags)
  | .word name => name
  | .number dotted digits => if dotted then '.' :: digits else digits
  | .group inside => '{' :: (charsOf inside ++ ['}'])
  | .mark punctuator => punctuator

def charsOf : List Element → List Char
  | [] => []
  | element :: rest => element.chars ++ charsOf rest

def substitutionChars : List (List Element × List Char) → List Char
  | [] => ['\x60']
  | (inside, text) :: more =>
    '$' :: '{' :: (charsOf inside ++ '}' :: (text ++ substitutionChars more))

end

/-! ## Comments -/

mutual

def Element.comments (offset : Nat) : Element → List Comment
  | .comment kind body =>
    [⟨⟨offset, offset + utf8Len (commentChars kind body)⟩, kind,
      String.ofList (commentChars kind body), true⟩]
  | .template text substitutions =>
    substitutionComments (offset + 1 + utf8Len text) substitutions
  | .group inside => commentsOf (offset + 1) inside
  | _ => []

def commentsOf (offset : Nat) : List Element → List Comment
  | [] => []
  | element :: rest =>
    element.comments offset ++ commentsOf (offset + utf8Len element.chars) rest

def substitutionComments (offset : Nat) : List (List Element × List Char) → List Comment
  | [] => []
  | (inside, text) :: more =>
    commentsOf (offset + 2) inside ++
      substitutionComments (offset + 2 + utf8Len (charsOf inside) + 1 + utf8Len text) more

end

/-! ## Regular expressions and divisions -/

def isDouble (punctuator : List Char) : Bool :=
  punctuator == ['+', '+'] || punctuator == ['-', '-']

/-- Whether the last token of some elements, which are given from the last to the first, is a dot.
With `transparent`, a double mark leaves it to what stands before itself. -/
def followsDot (transparent : Bool) : List Element → Bool
  | .space _ :: before => followsDot transparent before
  | .comment _ _ :: before => followsDot transparent before
  | .mark p :: before =>
    if transparent && isDouble p then followsDot transparent before
    else p == ['.'] || p == ['?', '.']
  | _ => false

/-- Whether a regular expression can stand behind some elements, which are given from the last to the
first. -/
def allowsRegex (transparent : Bool) : List Element → Bool
  | [] => true
  | .space _ :: before => allowsRegex transparent before
  | .comment _ _ :: before => allowsRegex transparent before
  | .mark p :: before =>
    if transparent && isDouble p then allowsRegex transparent before
    else p != [')'] && p != [']']
  | .word name :: before =>
    !followsDot transparent before && expressionKeywords.contains (String.ofList name)
  | .group _ :: _ => true
  | _ => false

/-! ## Well-formed elements -/

/-- Whether a string may hold some characters: every backslash escapes something, and neither the
quote nor a line break stands bare. -/
def isStringBody (quote : Char) : List Char → Bool
  | [] => true
  | '\\' :: '\r' :: '\n' :: cs => isStringBody quote cs
  | '\\' :: _ :: cs => isStringBody quote cs
  | c :: cs => c != '\\' && c != '\n' && c != '\r' && c != quote && isStringBody quote cs

/-- Whether characters can be the text of a template: every backslash escapes something, and nothing
bare ends the text. -/
def isTemplateText : List Char → Bool
  | [] => true
  | '\\' :: _ :: cs => isTemplateText cs
  | '$' :: '{' :: _ => false
  | c :: cs => c != '\\' && c != '\x60' && isTemplateText cs

/-- Whether characters can be the rest of a regular expression up to its closing slash, inside a
class or not. -/
def isRegexBody (inClass : Bool) : List Char → Bool
  | [] => !inClass
  | '\\' :: c :: cs => c != '\n' && c != '\r' && isRegexBody inClass cs
  | c :: cs =>
    c != '\\' && c != '\n' && c != '\r' && (c != '/' || inClass) &&
      isRegexBody (c == '[' || inClass && c != ']') cs

def startsRegex : List Char → Bool
  | [] => false
  | c :: cs => c != '*' && c != '/' && isRegexBody false (c :: cs)

def isPunctuator (c : Char) : Bool :=
  !isWordPart c && !isSpace c && !"'\"\x60\x7b\x7d".toList.contains c

/-- Whether a punctuator and the character behind it belong to one longer element. -/
def joinsNext (c next : Char) : Bool :=
  match c with
  | '.' => next.isDigit
  | '+' => next == '+'
  | '-' => next == '-'
  | '?' => next == '.'
  | '/' => next == '/' || next == '*' || next == '='
  | _ => false

def isMark (next : Option Char) (p : List Char) : Bool :=
  isDouble p || p == ['?', '.'] || p == ['/', '='] ||
    match p with
    | [c] => isPunctuator c && !next.any (joinsNext c)
    | _ => false

def isRun (digitFirst : Bool) : List Char → Bool
  | [] => false
  | c :: cs => c.isDigit == digitFirst && (c :: cs).all isWordPart

def isCommentBody (next : Option Char) : Comment.Kind → List Char → Bool
  | .line, body => body.all (fun c => !isLineTerminator c) && next.all isLineTerminator
  | .block, body => !decide (['*', '/'] <:+: body)

mutual

/-- Whether an element is well formed behind the elements `before`, from the last to the first, and
before the character `next`. -/
def Element.fits (transparent : Bool) (before : List Element) (next : Option Char) :
    Element → Bool
  | .space run => run.all isSpace
  | .comment kind body => isCommentBody next kind body
  | .string quote body => (quote == '\'' || quote == '"') && isStringBody quote body
  | .template text substitutions =>
    isTemplateText text && substitutionsFit transparent substitutions
  | .regex body flags =>
    allowsRegex transparent before && startsRegex body && flags.all isWordPart &&
      !next.any isWordPart
  | .word name => isRun false name && !next.any isWordPart
  | .number _ digits => isRun true digits && !next.any isWordPart
  | .group inside => allFit transparent [] (some '}') inside
  | .mark p =>
    isMark next p && !((p == ['/'] || p == ['/', '=']) && allowsRegex transparent before)

/-- Whether a sequence of elements is well formed up to the character `closer`. -/
def allFit (transparent : Bool) (before : List Element) (closer : Option Char) :
    List Element → Bool
  | [] => true
  | element :: rest =>
    element.fits transparent before ((charsOf rest).head?.or closer) &&
      allFit transparent (element :: before) closer rest

def substitutionsFit (transparent : Bool) : List (List Element × List Char) → Bool
  | [] => true
  | (inside, text) :: more =>
    allFit transparent [] (some '}') inside && isTemplateText text &&
      substitutionsFit transparent more

end

/-! ## Scripts -/

/-- A sequence of elements behind an optional line that names an interpreter. -/
structure Script where
  /-- What stands behind `#!` on the first line, if this names an interpreter. -/
  interpreter : Option (List Char)
  elements : List Element
  deriving Repr

namespace Script

def hashbang (script : Script) : List Char :=
  match script.interpreter with
  | some line => '#' :: '!' :: line
  | none => []

def chars (script : Script) : List Char := script.hashbang ++ charsOf script.elements

def source (script : Script) : String := String.ofList script.chars

def comments (script : Script) : List Comment :=
  commentsOf (utf8Len script.hashbang) script.elements

/-- Whether the elements are well formed and `#!` starts the script only where it names an
interpreter. -/
def fits (transparent : Bool) (script : Script) : Bool :=
  allFit transparent [] none script.elements &&
    match script.interpreter with
    | some line =>
      line.all (fun c => !isLineTerminator c) &&
        (charsOf script.elements).head?.all isLineTerminator
    | none => !"#!".toList.isPrefixOf (charsOf script.elements)

end Script

end JsPrune.Lexical
