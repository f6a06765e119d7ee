import JsPrune.Script.Grammar
/-!
# Expressions

The rules for expressions, and for the literals, functions and classes in them.  A row of operands
joined by infix operators makes one node, with the operators between the operands: which of them
binds more tightly is left open.

Every rule takes the bound `n` on the number of repetitions that it may need, and the grammar `g` of
the phrases inside it.
-/

namespace JsPrune.Script.Expression

open Read

def make (form : Form) (kind : Kind) (start : Nat) (parts : List Tree) : Read Phrase := do
  return ⟨← close kind start parts, form⟩

def single (g : Grammar) (setting : Setting) : Read Tree := do
  let phrase ← g (.expression setting)
  guard phrase.form.isExpression
  return phrase.tree

def furtherSingles (g : Grammar) (setting : Setting) : Nat → Read (List Tree)
  | 0 => return []
  | n + 1 => do
    match ← peekWithin setting.insertion with
    | none => return []
    | some next =>
      if Token.punctuator? next.rest == some "," then
        let _ ← symbol ","
        let first ← single g setting
        return first :: (← furtherSingles g setting n)
      else return []

def full (n : Nat) (g : Grammar) (setting : Setting) : Read Tree := do
  let first ← single g setting
  match ← furtherSingles g setting n with
  | [] => return first
  | others => close .sequence first.span.start (first :: others)

def condition (n : Nat) (g : Grammar) : Read Tree := do
  let start := (← symbol "(").start
  let inside ← full n g .inner
  let _ ← symbol ")"
  close .grouping start [inside]

/-! ## Lists in brackets -/

inductive Slot where
  /-- Nothing stands between two commas. -/
  | hole
  | item (phrase : Phrase)
  | spread (tree : Tree) (phrase : Phrase)

namespace Slot

def tree? : Slot → Option Tree
  | .hole => none
  | .item phrase => some phrase.tree
  | .spread tree _ => some tree

def isExpression : Slot → Bool
  | .hole => true
  | .item phrase => phrase.form.isExpression
  | .spread _ phrase => phrase.form.isExpression

def isPattern : Slot → Bool
  | .hole => true
  | .item phrase => phrase.form.isParameter
  | .spread _ phrase => phrase.form.isPattern

def isParameter : Slot → Bool
  | .hole => false
  | slot => slot.isPattern

end Slot

structure Slots where
  slots : List Slot
  trailingComma : Bool

namespace Slots

def trees (list : Slots) : List Tree := list.slots.filterMap Slot.tree?

def isGrouping (list : Slots) : Bool :=
  !list.trailingComma && !list.slots.isEmpty && list.slots.all fun
    | .item phrase => phrase.form.isExpression
    | _ => false

def areExpressions (list : Slots) : Bool := list.slots.all Slot.isExpression

def areParameters (list : Slots) : Bool := list.slots.all Slot.isParameter

end Slots

def slot (g : Grammar) : Read Slot := do
  let start ← peek
  if Token.punctuator? start.rest == some "..." then
    let _ ← symbol "..."
    let phrase ← g (.expression .inner)
    return .spread (← close .spread start.offset [phrase.tree]) phrase
  else return .item (← g (.expression .inner))

/-- At most `n` further slots through the closing bracket.  `afterComma` tells whether a comma came
last. -/
def slotsUntil (g : Grammar) (bracket : String) : Nat → Bool → Read Slots
  | 0, _ => failure
  | n + 1, afterComma => do
    let next := Token.punctuator? (← peek).rest
    if next == some bracket then
      let _ ← symbol bracket
      return ⟨[], afterComma⟩
    else if next == some "," then
      let _ ← symbol ","
      let list ← slotsUntil g bracket n true
      return { list with slots := .hole :: list.slots }
    else
      let first ← slot g
      let comma ← optionalSymbol ","
      if !comma && Token.punctuator? (← peek).rest != some bracket then failure
      let list ← slotsUntil g bracket n comma
      return { list with slots := first :: list.slots }

def arguments (n : Nat) (g : Grammar) : Read Tree := do
  let start := (← symbol "(").start
  let list ← slotsUntil g ")" n false
  guard list.areExpressions
  close .arguments start list.trees

def parameters (n : Nat) (g : Grammar) : Read Tree := do
  let start := (← symbol "(").start
  let list ← slotsUntil g ")" n false
  guard list.areParameters
  close .parameters start list.trees

def array (n : Nat) (g : Grammar) : Read Phrase := do
  let start := (← symbol "[").start
  let list ← slotsUntil g "]" n false
  make (.literal list.areExpressions (list.slots.all Slot.isPattern)) .array start list.trees

/-! ## Functions, methods and classes -/

def block (n : Nat) (g : Grammar) : Read Tree := do
  let start := (← symbol "\x7b").start
  let statements ← manyUntil n (startsWith '}') (Phrase.tree <$> g .statement)
  let _ ← symbol "\x7d"
  close .block start statements

def signature (n : Nat) (g : Grammar) : Read (List Tree) := do
  let inputs ← parameters n g
  return [inputs, ← block n g]

/-- What follows the word `function`, which starts at the given offset.  The name may be
missing. -/
def functionFrom (n : Nat) (g : Grammar) (kind : Kind) (start : Nat) : Read Tree := do
  let _ ← optionalSymbol "*"
  let name ← (do return [← identifier]) <|> pure []
  close kind start (name ++ (← signature n g))

def computedName (g : Grammar) : Read Tree := do
  let start := (← symbol "[").start
  let inside ← single g .inner
  let _ ← symbol "]"
  close .computedName start [inside]

def propertyName (g : Grammar) : Read Tree :=
  anyWord <|> privateName <|> leaf .literal Token.string <|> leaf .literal Token.number <|>
    computedName g

def isAtPropertyName : Read Bool := do
  let next := (← peek).rest
  return (Token.word next).isSome || (Token.string next).isSome || (Token.number next).isSome ||
    next.head? == some '[' || next.head? == some '#'

/-- Takes the given word if it comes next and stands before the name of a property, or before a
star if `beforeStar`.  Where a semicolon can be missing behind the word, it is a name itself. -/
def modifier (w : String) (beforeStar : Bool) (insertion : Insertion) : Read Bool := fun input =>
  let attempt : Read Bool := do
    let _ ← keyword w
    match ← peekWithin insertion with
    | none => return false
    | some next =>
      return (beforeStar && Token.punctuator? next.rest == some "*") || (← isAtPropertyName)
  match attempt input with
  | some (true, next) => some (true, next)
  | _ => some (false, input)

/-- The words that qualify a method, other than `static`.  Tells whether there were any, so that
only a method can follow. -/
def methodModifiers (insertion : Insertion) : Read Bool := do
  let isAsync ← modifier "async" true insertion
  let isGenerator ← optionalSymbol "*"
  if isGenerator then return true
  let isGetter ← modifier "get" false insertion
  if isGetter then return true
  let isSetter ← modifier "set" false insertion
  return isAsync || isSetter

/-- A decorator: an at sign and a name, a path of names, a call of either, or an expression in
parentheses. -/
def decorator (n : Nat) (g : Grammar) : Read Tree := do
  let start := (← symbol "@").start
  if ← startsWith '(' then
    let inside ← condition n g
    close .decorator start [inside]
  else
    let first ← identifier
    let rest ← manyUntil n (do return Token.punctuator? (← peek).rest != some ".") do
      let _ ← symbol "."
      anyWord
    let call ← if ← startsWith '(' then (do return [← arguments n g]) else pure []
    close .decorator start (first :: rest ++ call)

def decorators (n : Nat) (g : Grammar) : Read (List Tree) :=
  manyUntil n (do return !(← startsWith '@')) (decorator n g)

def member (n : Nat) (g : Grammar) (start : Nat) (leading : List Tree) (methodOnly : Bool) :
    Read Tree := do
  let name ← propertyName g
  if ← startsWith '(' then
    let tree ← close .method start (leading ++ name :: (← signature n g))
    let _ ← optionalSymbol ";"
    return tree
  if methodOnly then failure
  match ← peekWithin (.possible true) with
  | none => close .field start (leading ++ [name])
  | some next =>
    if Token.punctuator? next.rest == some "=" then
      let _ ← symbol "="
      let initial ← single g .statement
      let tree ← close .field start (leading ++ [name, initial])
      semicolon false
      return tree
    else
      let tree ← close .field start (leading ++ [name])
      semicolon true
      return tree

def staticBlock (n : Nat) (g : Grammar) (start : Nat) : Read Tree := do
  let _ ← keyword "static"
  let body ← block n g
  close .staticBlock start [body]

def classMember (n : Nat) (g : Grammar) : Read Tree := do
  let start := (← peek).offset
  if ← optionalSymbol ";" then close .emptyStatement start []
  else
    let leading ← decorators n g
    let opensBlock : Bool ← fun input =>
      let attempt : Read Bool := do
        let _ ← keyword "static"
        startsWith '{'
      some (match attempt input with
        | some (found, _) => found
        | none => false, input)
    if opensBlock && leading.isEmpty then staticBlock n g start
    else
      let _ ← modifier "static" true (.possible true)
      let methodOnly ← methodModifiers (.possible true)
      member n g start leading methodOnly

def classTail (n : Nat) (g : Grammar) : Read (List Tree) := do
  let base ← if ← isAtWord "extends" then (do
      let _ ← keyword "extends"
      return [← single g .inner])
    else pure []
  let _ ← symbol "\x7b"
  let members ← manyUntil n (startsWith '}') (classMember n g)
  let _ ← symbol "\x7d"
  return base ++ members

def classFrom (n : Nat) (g : Grammar) (kind : Kind) (start : Nat) (leading : List Tree) :
    Read Tree := do
  let name ← (do return [← identifier]) <|> pure []
  close kind start (leading ++ name ++ (← classTail n g))

/-! ## Objects -/

/-- A property of an object, and whether it can belong to an expression and to a pattern. -/
structure Property where
  tree : Tree
  isExpression : Bool
  isPattern : Bool

def propertyTail (n : Nat) (g : Grammar) (start : Nat) (name : Tree) (isShorthand : Bool) :
    Read Property := do
  match Token.punctuator? (← peek).rest with
  | some ":" =>
    let _ ← symbol ":"
    let phrase ← g (.expression .inner)
    let tree ← close .property start [name, phrase.tree]
    return ⟨tree, phrase.form.isExpression, phrase.form.isParameter⟩
  | some "(" =>
    let tree ← close .method start (name :: (← signature n g))
    return ⟨tree, true, false⟩
  | some "=" =>
    guard isShorthand
    let _ ← symbol "="
    let initial ← single g .inner
    let tree ← close .property start [name, initial]
    return ⟨tree, false, true⟩
  | _ =>
    guard isShorthand
    return ⟨name, true, true⟩

def isShorthandName (input : Input) : Bool :=
  match wordAt? input with
  | some w => w == "export" || !Token.reservedWords.contains w
  | none => false

def property (n : Nat) (g : Grammar) : Read Property := do
  let start ← peek
  if Token.punctuator? start.rest == some "..." then
    let _ ← symbol "..."
    let phrase ← g (.expression .inner)
    let tree ← close .spread start.offset [phrase.tree]
    return ⟨tree, phrase.form.isExpression, phrase.form.isPattern⟩
  else
    let isStatic ← modifier "static" true .never
    let isMethod ← methodModifiers .never
    let nameStart ← peek
    let name ← propertyName g
    if isStatic || isMethod then
      let tree ← close .method start.offset (name :: (← signature n g))
      return ⟨tree, true, false⟩
    else propertyTail n g start.offset name (isShorthandName nameStart)

/-- At most `n` further properties through the closing brace.  Commas may stand without anything
between them. -/
def propertiesUntil (g : Grammar) : Nat → Read (List Property)
  | 0 => failure
  | n + 1 => do
    match Token.punctuator? (← peek).rest with
    | some "\x7d" =>
      let _ ← symbol "\x7d"
      return []
    | some "," =>
      let _ ← symbol ","
      propertiesUntil g n
    | _ =>
      let first ← property n g
      let comma ← optionalSymbol ","
      if !comma && !(← startsWith '}') then failure
      return first :: (← propertiesUntil g n)

def object (n : Nat) (g : Grammar) : Read Phrase := do
  let start := (← symbol "\x7b").start
  let properties ← propertiesUntil g n
  make (.literal (properties.all Property.isExpression) (properties.all Property.isPattern)) .object
    start (properties.map Property.tree)

def binding (n : Nat) (g : Grammar) : Read Tree := do
  let pattern (rule : Read Phrase) : Read Tree := do
    let phrase ← rule
    guard phrase.form.isPattern
    return phrase.tree
  identifier <|> pattern (array n g) <|> pattern (object n g)

/-! ## The most tightly bound expressions -/

/-- The substitutions of a template through its closing backtick; template text comes next. -/
def substitutions (g : Grammar) : Nat → Read (List Tree)
  | 0 => failure
  | n + 1 => do
    let start : Input ← get
    let length ← (Token.templateText start.rest : Option Nat)
    dropFrom start length
    if (start.rest.drop (length - 1)).head? == some '\x60' then return []
    let first ← full n g .inner
    let _ ← symbol "\x7d"
    return first :: (← substitutions g n)

def template (n : Nat) (g : Grammar) : Read Tree := do
  let start ← peek
  if start.rest.head? != some '\x60' then failure
  dropFrom start 1
  let parts ← substitutions g n
  close .template start.offset parts

def arrowBody (n : Nat) (g : Grammar) (setting : Setting) : Read (Form × Tree) :=
  let statements : Read (Form × Tree) := do
    guard (← startsWith '{')
    return (.value, ← block n g)
  statements <|> do return (.operation, ← single g setting)

def arrowFrom (n : Nat) (g : Grammar) (setting : Setting) (start : Nat) (inputs : List Tree) :
    Read Phrase := do
  let _ ← symbol "=>"
  let (form, body) ← arrowBody n g setting
  make form .arrow start (inputs ++ [body])

def isAtArrow (setting : Setting) : Read Bool := do
  match ← peekWithin setting.insertion with
  | some next => return Token.punctuator? next.rest == some "=>"
  | none => return false

def parenthesized (n : Nat) (g : Grammar) (setting : Setting) : Read Phrase := do
  let start := (← symbol "(").start
  let list ← slotsUntil g ")" n false
  if ← isAtArrow setting then
    guard list.areParameters
    let inputs ← close .parameters start list.trees
    arrowFrom n g setting start [inputs]
  else
    guard list.isGrouping
    match list.trees with
    | [inside] => make .grouped .grouping start [inside]
    | inside =>
      let span : Span := ⟨(inside.head?.map fun t => t.span.start).getD start,
        (inside.getLast?.map fun t => t.span.stop).getD start⟩
      make .grouped .grouping start [.node .sequence span inside]

def asyncFrom (n : Nat) (g : Grammar) (setting : Setting) : Read Phrase := do
  let name ← leaf .identifier Token.word
  let start := name.span.start
  match ← peekWithin setting.insertion with
  | none => return ⟨name, .reference⟩
  | some next =>
    if wordAt? next == some "function" then
      let _ ← keyword "function"
      return ⟨← functionFrom n g .function start, .value⟩
    else if next.rest.head? == some '(' then
      let list ← (do
        let _ ← symbol "("
        slotsUntil g ")" n false)
      let inside ← close .arguments next.offset list.trees
      if ← isAtArrow setting then
        guard list.areParameters
        arrowFrom n g setting start [inside]
      else
        guard list.areExpressions
        make .value .call start [name, inside]
    else if Token.punctuator? next.rest == some "=>" then arrowFrom n g setting start [name]
    else
      let parameter : Read Phrase := do
        let input ← identifier
        arrowFrom n g setting start [input]
      parameter <|> pure ⟨name, .reference⟩

def importFrom (n : Nat) (g : Grammar) : Read Phrase := do
  let name ← leaf .word Token.word
  if ← startsWith '(' then
    let inside ← arguments n g
    make .value .call name.span.start [name, inside]
  else
    let _ ← symbol "."
    let isMeta ← isAtWord "meta"
    let inside ← anyWord <|> privateName
    if isMeta then make .value .metaProperty name.span.start [name, inside]
    else make .reference .member name.span.start [name, inside]

def decoratedClass (n : Nat) (g : Grammar) : Read Phrase := do
  let start := (← peek).offset
  let leading ← decorators n g
  let _ ← keyword "class"
  return ⟨← classFrom n g .classExpression start leading, .value⟩

def wordFrom (n : Nat) (g : Grammar) (setting : Setting) (w : String) (start : Nat) :
    Read Phrase := do
  if ["this", "super", "null", "true", "false"].contains w then
    return ⟨← leaf .word Token.word, .value⟩
  else if w == "function" then
    let _ ← keyword w
    return ⟨← functionFrom n g .function start, .value⟩
  else if w == "class" then
    let _ ← keyword w
    return ⟨← classFrom n g .classExpression start [], .value⟩
  else if w == "async" then asyncFrom n g setting
  else if w == "import" then importFrom n g
  else if w != "export" && Token.reservedWords.contains w then failure
  else
    let name ← leaf .identifier Token.word
    if ← isAtArrow setting then arrowFrom n g setting start [name]
    else return ⟨name, .reference⟩

def primary (n : Nat) (g : Grammar) (setting : Setting) : Read Phrase := do
  let next ← peek
  match wordAt? next with
  | some w => wordFrom n g setting w next.offset
  | none =>
    match next.rest with
    | '(' :: _ => parenthesized n g setting
    | '[' :: _ => array n g
    | '{' :: _ => object n g
    | '\x60' :: _ => return ⟨← template n g, .value⟩
    | '/' :: _ => return ⟨← leaf .literal Token.regex, .value⟩
    | '"' :: _ => return ⟨← leaf .literal Token.string, .value⟩
    | '\'' :: _ => return ⟨← leaf .literal Token.string, .value⟩
    | '@' :: _ => decoratedClass n g
    | _ => return ⟨← leaf .literal Token.number, .value⟩

/-! ## What applies to an expression -/

def subscriptFrom (n : Nat) (g : Grammar) (object : Tree) : Read Phrase := do
  let _ ← symbol "["
  let inside ← full n g .inner
  let _ ← symbol "]"
  make .reference .subscript object.span.start [object, inside]

def memberFrom (object : Tree) : Read Phrase := do
  let name ← anyWord <|> privateName
  make .reference .member object.span.start [object, name]

def callFrom (n : Nat) (g : Grammar) (callee : Tree) : Read Phrase := do
  let inside ← arguments n g
  make .value .call callee.span.start [callee, inside]

def taggedFrom (n : Nat) (g : Grammar) (callee : Tree) : Read Phrase := do
  let inside ← template n g
  make .value .call callee.span.start [callee, inside]

/-- What applies to a phrase behind `?.`.  Only an expression that binds most tightly can be
called so. -/
def optionalFrom (n : Nat) (g : Grammar) (phrase : Phrase) : Read Phrase := do
  let _ ← symbol "?."
  match (← peek).rest with
  | '[' :: _ => subscriptFrom n g phrase.tree
  | '(' :: _ =>
    guard phrase.form.isPrimary
    callFrom n g phrase.tree
  | _ => memberFrom phrase.tree

/-- Applies what comes next to an expression, if something does.  The constructor behind `new`
takes no calls and no updates. -/
def applyNext (n : Nat) (g : Grammar) (insertion : Insertion) (isConstructor : Bool)
    (phrase : Phrase) : Read (Option Phrase) := do
  if !phrase.form.isExpression then return none
  match ← peekWithin insertion with
  | none => return none
  | some next =>
    match Token.punctuator? next.rest with
    | some "." =>
      let _ ← symbol "."
      return some (← memberFrom phrase.tree)
    | some "?." => return some (← optionalFrom n g phrase)
    | some "[" => return some (← subscriptFrom n g phrase.tree)
    | some "(" => if isConstructor then return none else return some (← callFrom n g phrase.tree)
    | some "++" | some "--" =>
      if isConstructor then return none
      let sign ← leaf .operator fun _ => some 2
      return some (← make .operation .update phrase.tree.span.start [phrase.tree, sign])
    | _ =>
      if next.rest.head? == some '\x60' then
        guard (phrase.form.isPrimary || phrase.form == .created)
        return some (← taggedFrom n g phrase.tree)
      else return none

/-- Applies all that comes next to an expression, at most `n` times. -/
def applyAll (g : Grammar) (insertion : Insertion) (isConstructor : Bool) :
    Nat → Phrase → Read Phrase
  | 0, phrase => return phrase
  | n + 1, phrase => do
    match ← applyNext n g insertion isConstructor phrase with
    | none => return phrase
    | some applied => applyAll g insertion isConstructor n applied

def creation (n : Nat) (g : Grammar) (setting : Setting) : Read Phrase := do
  let word ← leaf .word Token.word
  let start := word.span.start
  if (Token.number (← peek).rest).isNone && (← optionalSymbol ".") then
    let target ← keyword "target"
    make .value .metaProperty start [word, .node .property target []]
  else
    let base ← if ← isAtWord "new" then g (.creation setting) else primary n g setting
    let constructor ← applyAll g setting.insertion true n base
    guard constructor.form.isExpression
    match ← peekWithin setting.insertion with
    | some next =>
      if next.rest.head? == some '(' then
        let inside ← arguments n g
        make .created .creation start [constructor.tree, inside]
      else make .created .creation start [constructor.tree]
    | none => make .created .creation start [constructor.tree]

def assignmentFrom (g : Grammar) (setting : Setting) (target : Phrase) : Read Phrase := do
  match ← peekWithin setting.insertion with
  | none => return target
  | some next =>
    match Token.punctuator? next.rest with
    | some p =>
      let isPlain := p == "=" && target.form.isAssignable
      if isPlain || (Token.updatingAssignments.contains p && target.form.isUpdatable) then
        let sign ← (do return .node .operator (← symbol p) [])
        let value ← single g setting
        let form : Form := if isPlain then .assigned target.form.isPattern else .operation
        make form .assignment target.tree.span.start [target.tree, sign, value]
      else return target
    | none => return target

/-! ## Operators -/

def startsExpression (next : Input) : Bool :=
  match wordAt? next with
  | some w =>
    !Token.reservedWords.contains w ||
      ["this", "super", "null", "true", "false", "function", "class", "new", "typeof", "void",
       "delete", "import", "export"].contains w
  | none =>
    match next.rest with
    | c :: _ => "([\x7b\"'\x60/#@+-!~".toList.contains c || (Token.number next.rest).isSome
    | [] => false

def suspensionFrom (g : Grammar) (setting : Setting) : Read Phrase := do
  let word ← leaf .word Token.word
  let bare : Read Phrase := make .operation .suspension word.span.start [word]
  match ← peekWithin setting.insertion with
  | none => bare
  | some next =>
    if Token.punctuator? next.rest == some "*" then
      let _ ← symbol "*"
      let inside ← single g setting
      make .operation .suspension word.span.start [word, inside]
    else if startsExpression next then
      let inside ← single g setting
      make .operation .suspension word.span.start [word, inside]
    else bare

def leadingFrom (g : Grammar) (setting : Setting) (length : Nat) : Read Phrase := do
  let sign ← leaf .operator fun _ => some length
  let operand ← g (.operand setting)
  guard operand.form.isExpression
  make .operation .unary sign.span.start [sign, operand.tree]

/-- A private name that is looked for in an object. -/
def privateOperand : Read Phrase := do
  let name ← privateName
  guard (← isAtWord "in")
  return ⟨name, .operation⟩

/-- An operand of an infix operator: an expression, what applies to it, and what is assigned to
it. -/
def operand (n : Nat) (g : Grammar) (setting : Setting) : Read Phrase := do
  let next ← enter
  let plain (base : Phrase) : Read Phrase := do
    assignmentFrom g setting (← applyAll g setting.insertion false n base)
  match wordAt? next with
  | some w =>
    if Token.leadingWords.contains w then leadingFrom g setting w.length
    else if w == "yield" then plain (← suspensionFrom g setting)
    else if w == "new" then plain (← creation n g setting)
    else plain (← primary n g setting)
  | none =>
    match Token.punctuator? next.rest with
    | some p =>
      if Token.leadingOperators.contains p then leadingFrom g setting p.length
      else plain (← primary n g setting)
    | none =>
      if next.rest.head? == some '#' then privateOperand else plain (← primary n g setting)

def infixAt? (setting : Setting) (next : Input) : Option String :=
  match wordAt? next with
  | some w => if w == "instanceof" || (w == "in" && !setting.withoutIn) then some w else none
  | none => (Token.punctuator? next.rest).filter Token.infixOperators.contains

/-- Operands and infix operators before them, at most `n` of each. -/
def operationRest (g : Grammar) (setting : Setting) : Nat → Read (List Tree)
  | 0 => return []
  | n + 1 => do
    match ← peekWithin setting.insertion with
    | none => return []
    | some next =>
      match infixAt? setting next with
      | none => return []
      | some p =>
        let sign ← leaf .operator fun _ => some p.length
        let right ← g (.operand setting)
        guard right.form.isExpression
        return sign :: right.tree :: (← operationRest g setting n)

def conditionalFrom (g : Grammar) (setting : Setting) (test : Phrase) : Read Phrase := do
  match ← peekWithin setting.insertion with
  | none => return test
  | some next =>
    if Token.punctuator? next.rest == some "?" then
      let _ ← symbol "?"
      let yes ← single g .inner
      let _ ← symbol ":"
      let no ← single g setting
      make .operation .conditional test.tree.span.start [test.tree, yes, no]
    else return test

def expression (n : Nat) (g : Grammar) (setting : Setting) : Read Phrase := do
  let first ← g (.operand setting)
  if !first.form.isExpression then return first
  let joined ← match ← operationRest g setting n with
    | [] => pure first
    | others => make .operation .operation first.tree.span.start (first.tree :: others)
  conditionalFrom g setting joined

end JsPrune.Script.Expression
