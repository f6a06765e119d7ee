import JsPrune.Script.Expression
/-!
# Statements

The rules for statements and declarations.  A statement that needs a semicolon takes it into its
span when it is written, and ends with its last token otherwise.
-/

namespace JsPrune.Script.Statement

open Read Expression

def expressionStatement (n : Nat) (g : Grammar) : Read Tree := do
  let inside ← full n g .statement
  semicolon false
  close .expressionStatement inside.span.start [inside]

def inner (g : Grammar) : Read Tree := Phrase.tree <$> g .statement

/-- What could be written behind an object but starts no statement. -/
def continuesObject (next : Input) : Bool :=
  match Token.punctuator? next.rest with
  | some p =>
    p == "=" || p == "," || p == "." || p == "?" || p == "?." || p == "=>" ||
      Token.updatingAssignments.contains p ||
      (Token.infixOperators.contains p && p != "+" && p != "-" && p != "/")
  | none =>
    match wordAt? next with
    | some w => w == "in" || w == "instanceof"
    | none => false

def braced (n : Nat) (g : Grammar) : Read Tree :=
  let asBlock : Read Tree := do
    let tree ← block n g
    if continuesObject (← peek) then failure
    return tree
  asBlock <|> expressionStatement n g

/-! ## Declarations -/

def declarator (n : Nat) (g : Grammar) (setting : Setting) : Read Tree := do
  let name ← binding n g
  let start := name.span.start
  let insertion : Insertion := if setting.endsStatement then .possible true else .never
  match ← peekWithin insertion with
  | none => close .declarator start [name]
  | some next =>
    if Token.punctuator? next.rest == some "=" then
      let _ ← symbol "="
      let initial ← single g setting
      close .declarator start [name, initial]
    else close .declarator start [name]

def furtherDeclarators (g : Grammar) (setting : Setting) : Nat → Read (List Tree)
  | 0 => return []
  | n + 1 => do
    match ← peekWithin setting.insertion with
    | none => return []
    | some next =>
      if Token.punctuator? next.rest == some "," then
        let _ ← symbol ","
        let first ← declarator n g setting
        return first :: (← furtherDeclarators g setting n)
      else return []

def endsWithName (declarators : List Tree) : Bool :=
  declarators.getLast?.any fun tree => tree.parts.length == 1

def declaration (n : Nat) (g : Grammar) (start : Nat) : Read Tree := do
  let first ← declarator n g .statement
  let declarators := first :: (← furtherDeclarators g .statement n)
  semicolon (endsWithName declarators)
  close .declaration start declarators

/-- Whether the word `let` at the front declares variables: a name or a pattern follows it.  A
semicolon can be missing right behind it. -/
def letDeclares : Read Bool := fun input =>
  let attempt : Read Bool := do
    let _ ← keyword "let"
    match ← peekWithin (.possible false) with
    | none => return false
    | some next =>
      return next.rest.head? == some '[' || next.rest.head? == some '{' ||
        (wordAt? next).any fun w => !Token.reservedWords.contains w
  some (match attempt input with
    | some (found, _) => found
    | none => false, input)

/-- Whether the words at the front declare a function: a name follows them. -/
def functionDeclares : Read Bool := fun input =>
  let attempt : Read Unit := do
    if ← isAtWord "async" then
      let _ ← keyword "async"
      match ← peekWithin (.possible false) with
      | none => failure
      | some _ => pure ()
    let _ ← keyword "function"
    let _ ← optionalSymbol "*"
    let _ ← identifier
  some ((attempt input).isSome, input)

def functionDeclaration (n : Nat) (g : Grammar) : Read Tree := do
  let start := (← peek).offset
  if ← isAtWord "async" then
    let _ ← keyword "async"
  let _ ← keyword "function"
  functionFrom n g .functionDeclaration start

def classDeclares : Read Bool := fun input =>
  let attempt : Read Unit := do
    let _ ← keyword "class"
    let _ ← identifier
  some ((attempt input).isSome, input)

def classDeclaration (n : Nat) (g : Grammar) (start : Nat) (leading : List Tree) : Read Tree := do
  let _ ← keyword "class"
  classFrom n g .classDeclaration start leading

/-! ## Modules -/

def exportedName : Read Tree :=
  identifier <|> leaf .literal Token.string <|> do
    return .node .word (← keyword "default") []

def namesUntil (name : Read Tree) : Nat → Read (List Tree)
  | 0 => failure
  | n + 1 => do
    if ← startsWith '}' then
      let _ ← symbol "\x7d"
      return []
    else
      let first ← name
      let comma ← optionalSymbol ","
      if !comma && !(← startsWith '}') then failure
      return first :: (← namesUntil name n)

def importedName : Read Tree :=
  let renamed : Read Tree := do
    let name ← exportedName
    let _ ← keyword "as"
    let target ← identifier
    close .clause name.span.start [name, target]
  renamed <|> identifier

def exportSpecifier : Read Tree := do
  let name ← exportedName
  if ← isAtWord "as" then
    let _ ← keyword "as"
    let target ← exportedName
    close .clause name.span.start [name, target]
  else return name

def namesInBraces (n : Nat) (name : Read Tree) : Read Tree := do
  let start := (← symbol "\x7b").start
  let names ← namesUntil name n
  close .clause start names

def moduleName (name : Read Tree) : Read Tree := do
  let start := (← symbol "*").start
  let _ ← keyword "as"
  let name ← name
  close .clause start [name]

def source : Read Tree := do
  let _ ← keyword "from"
  leaf .literal Token.string

def importClause (n : Nat) : Read (List Tree) := do
  if ← startsWith '*' then return [← moduleName identifier]
  else if ← startsWith '{' then return [← namesInBraces n importedName]
  else
    let first ← identifier
    if ← optionalSymbol "," then
      if ← startsWith '*' then return [first, ← moduleName identifier]
      else return [first, ← namesInBraces n importedName]
    else return [first]

def importAttributes (n : Nat) (g : Grammar) : Read (List Tree) := do
  match ← peekWithin (.possible true) with
  | none => return []
  | some next =>
    if wordAt? next == some "with" then
      let _ ← keyword "with"
      let attributes ← object n g
      guard attributes.form.isExpression
      return [attributes.tree]
    else return []

def importDeclaration (n : Nat) (g : Grammar) (start : Nat) : Read Tree := do
  let names ← if (Token.string (← peek).rest).isSome then (do
      return [← leaf .literal Token.string])
    else (do
      let names ← importClause n
      return names ++ [← source])
  let attributes ← importAttributes n g
  semicolon true
  close .importDeclaration start (names ++ attributes)

def importIsExpression : Read Bool := fun input =>
  let attempt : Read Bool := do
    let _ ← keyword "import"
    return (← startsWith '(') || (← startsWith '.')
  some (match attempt input with
    | some (found, _) => found
    | none => false, input)

def exportedDeclaration (n : Nat) (g : Grammar) (leading : List Tree) : Read (Option Tree) := do
  let start := (← peek).offset
  if ← functionDeclares then return some (← functionDeclaration n g)
  else if ← classDeclares then return some (← classDeclaration n g start leading)
  else if ← startsWith '@' then
    let more ← decorators n g
    return some (← classDeclaration n g start (leading ++ more))
  else if ← isAtWord "var" then
    let _ ← keyword "var"
    return some (← declaration n g start)
  else if ← isAtWord "const" then
    let _ ← keyword "const"
    return some (← declaration n g start)
  else if ← letDeclares then
    let _ ← keyword "let"
    return some (← declaration n g start)
  else return none

def exportDefault (n : Nat) (g : Grammar) (start : Nat) : Read Tree := do
  let _ ← keyword "default"
  match ← exportedDeclaration n g [] with
  | some tree => close .exportDeclaration start [tree]
  | none =>
    let value ← single g .statement
    semicolon false
    close .exportDeclaration start [value]

def exportNames (n : Nat) (start : Nat) : Read Tree := do
  let names ← namesInBraces n exportSpecifier
  match ← peekWithin (.possible true) with
  | none => close .exportDeclaration start [names]
  | some next =>
    let origin ← if wordAt? next == some "from" then (do return [← source]) else pure []
    semicolon true
    close .exportDeclaration start (names :: origin)

def exportAll (start : Nat) : Read Tree := do
  let named : Read (List Tree) := do return [← moduleName exportedName]
  let plain : Read (List Tree) := do
    let _ ← symbol "*"
    return []
  let names ← named <|> plain
  let origin ← source
  semicolon true
  close .exportDeclaration start (names ++ [origin])

/-- Whether the word `export` at the front starts an export, and is no variable.  A semicolon can be
missing right behind it. -/
def exportDeclares : Read Bool := fun input =>
  let attempt : Read Bool := do
    let _ ← keyword "export"
    match ← peekWithin (.possible false) with
    | none => return false
    | some next =>
      return next.rest.head? == some '*' || next.rest.head? == some '{' ||
        next.rest.head? == some '@' || (wordAt? next).any fun w => w != "in" && w != "instanceof"
  some (match attempt input with
    | some (found, _) => found
    | none => false, input)

def exportDeclaration (n : Nat) (g : Grammar) (start : Nat) (leading : List Tree) :
    Read Tree := do
  let _ ← keyword "export"
  if ← isAtWord "default" then exportDefault n g start
  else if ← startsWith '{' then exportNames n start
  else if ← startsWith '*' then exportAll start
  else
    match ← exportedDeclaration n g leading with
    | some tree => close .exportDeclaration start [tree]
    | none => failure

/-- What decorators start: an export, a class, or an expression. -/
def decorated (n : Nat) (g : Grammar) : Read Tree := do
  let begin : Input ← get
  let start := (← peek).offset
  let leading ← decorators n g
  if ← isAtWord "export" then exportDeclaration n g start leading
  else if ← classDeclares then classDeclaration n g start leading
  else
    set begin
    expressionStatement n g

/-! ## Control flow -/

def ifStatement (n : Nat) (g : Grammar) (start : Nat) : Read Tree := do
  let test ← condition n g
  let yes ← inner g
  if ← isAtWord "else" then
    let _ ← keyword "else"
    let no ← inner g
    close .ifStatement start [test, yes, no]
  else close .ifStatement start [test, yes]

def isAtClause : Read Bool := do
  let next ← peek
  return next.rest.head? == some '}' || wordAt? next == some "case" || wordAt? next == some "default"

def switchClause (n : Nat) (g : Grammar) : Read Tree := do
  let start := (← peek).offset
  let tests ← if ← isAtWord "case" then (do
      let _ ← keyword "case"
      return [← full n g .inner])
    else (do
      let _ ← keyword "default"
      return [])
  let _ ← symbol ":"
  let statements ← manyUntil n isAtClause (inner g)
  close .switchClause start (tests ++ statements)

def switchStatement (n : Nat) (g : Grammar) (start : Nat) : Read Tree := do
  let subject ← condition n g
  let _ ← symbol "\x7b"
  let clauses ← manyUntil n (startsWith '}') (switchClause n g)
  let _ ← symbol "\x7d"
  close .switchStatement start (subject :: clauses)

def loopTarget (n : Nat) (g : Grammar) : Read (List Tree) :=
  let declared : Read (List Tree) := do
    if ← isAtWord "var" then
      let _ ← keyword "var"
      let name ← binding n g
      if ← optionalSymbol "=" then return [name, ← single g ⟨false, true⟩]
      else return [name]
    else
      if ← isAtWord "let" then
        let _ ← keyword "let"
      else
        let _ ← keyword "const"
      return [← binding n g]
  let named : Read (List Tree) := do
    let base ← primary n g .inner
    let target ← applyAll g .never false n base
    guard (target.form.isPattern || target.form == .grouped)
    return [target.tree]
  let link : Read Unit := do
    guard ((← isAtWord "in") || (← isAtWord "of"))
  (do let trees ← declared; link; return trees) <|> (do let trees ← named; link; return trees)

def elementsHead (n : Nat) (g : Grammar) : Read (List Tree) := do
  let _ ← symbol "("
  let target ← loopTarget n g
  let _ ← leaf .word Token.word
  let subject ← full n g .inner
  let _ ← symbol ")"
  return target ++ [subject]

def initialStep (n : Nat) (g : Grammar) : Read (List Tree) := do
  let start := (← peek).offset
  if ← optionalSymbol ";" then return []
  else if ← isAtWord "var" then
    let _ ← keyword "var"
    return [← declaration n g start]
  else if ← isAtWord "const" then
    let _ ← keyword "const"
    return [← declaration n g start]
  else if ← letDeclares then
    let _ ← keyword "let"
    return [← declaration n g start]
  else
    let inside ← full n g .inner
    let _ ← symbol ";"
    return [inside]

def optionalBefore (n : Nat) (g : Grammar) (p : String) : Read (List Tree) := do
  if ← optionalSymbol p then return []
  else
    let inside ← full n g .inner
    let _ ← symbol p
    return [inside]

def countingHead (n : Nat) (g : Grammar) : Read (List Tree) := do
  let _ ← symbol "("
  let initial ← initialStep n g
  let test ← optionalBefore n g ";"
  let step ← optionalBefore n g ")"
  return initial ++ test ++ step

def forLoop (n : Nat) (g : Grammar) (start : Nat) : Read Tree := do
  let head ← if ← isAtWord "await" then (do
      let _ ← keyword "await"
      elementsHead n g)
    else elementsHead n g <|> countingHead n g
  let body ← inner g
  close .loop start (head ++ [body])

def whileLoop (n : Nat) (g : Grammar) (start : Nat) : Read Tree := do
  let test ← condition n g
  let body ← inner g
  close .loop start [test, body]

def doLoop (n : Nat) (g : Grammar) (start : Nat) : Read Tree := do
  let body ← inner g
  let _ ← keyword "while"
  let test ← condition n g
  let _ ← optionalSymbol ";"
  close .loop start [body, test]

def catchClause (n : Nat) (g : Grammar) : Read Tree := do
  let start := (← keyword "catch").start
  let caught ← if ← optionalSymbol "(" then (do
      let name ← binding n g
      let _ ← symbol ")"
      return [name])
    else pure []
  let body ← block n g
  close .clause start (caught ++ [body])

def finallyClause (n : Nat) (g : Grammar) : Read Tree := do
  let start := (← keyword "finally").start
  let body ← block n g
  close .clause start [body]

def tryStatement (n : Nat) (g : Grammar) (start : Nat) : Read Tree := do
  let body ← block n g
  let handler ← if ← isAtWord "catch" then (do return [← catchClause n g]) else pure []
  let final ← if ← isAtWord "finally" then (do return [← finallyClause n g]) else pure []
  close .tryStatement start (body :: handler ++ final)

def withStatement (n : Nat) (g : Grammar) (start : Nat) : Read Tree := do
  let scope ← condition n g
  let body ← inner g
  close .withStatement start [scope, body]

def labelJump (start : Nat) : Read Tree := do
  match ← peekWithin (.possible true) with
  | none => close .jump start []
  | some next =>
    let label ← if (wordAt? next).isSome then (do return [← identifier]) else pure []
    semicolon true
    close .jump start label

def returnStatement (n : Nat) (g : Grammar) (start : Nat) : Read Tree := do
  match ← peekWithin (.possible true) with
  | none => close .jump start []
  | some next =>
    if next.rest.head? == some ';' then
      semicolon true
      close .jump start []
    else
      let value ← full n g .statement
      semicolon false
      close .jump start [value]

def throwStatement (n : Nat) (g : Grammar) (start : Nat) : Read Tree := do
  let value ← full n g .statement
  semicolon false
  close .jump start [value]

def debuggerStatement (start : Nat) : Read Tree := do
  semicolon true
  close .debuggerStatement start []

/-- Whether a label comes next: a word that can name a variable and is no operator, and a colon. -/
def isAtLabel : Read Bool := fun input =>
  let attempt : Read Unit := do
    let w ← wordAt? (← peek)
    guard (w == "export" || !Token.reservedWords.contains w)
    guard (w != "await" && w != "yield")
    let _ ← leaf .word Token.word
    let _ ← symbol ":"
  some ((attempt input).isSome, input)

def labelled (g : Grammar) : Read Tree := do
  let label ← leaf .word Token.word
  let _ ← symbol ":"
  let body ← inner g
  close .labelled label.span.start [label, body]

def byKeyword (n : Nat) (g : Grammar) (start : Nat) : String → Option (Read Tree)
  | "debugger" => some (debuggerStatement start)
  | "var" => some (declaration n g start)
  | "const" => some (declaration n g start)
  | "if" => some (ifStatement n g start)
  | "switch" => some (switchStatement n g start)
  | "for" => some (forLoop n g start)
  | "while" => some (whileLoop n g start)
  | "do" => some (doLoop n g start)
  | "try" => some (tryStatement n g start)
  | "with" => some (withStatement n g start)
  | "break" => some (labelJump start)
  | "continue" => some (labelJump start)
  | "return" => some (returnStatement n g start)
  | "throw" => some (throwStatement n g start)
  | _ => none

def byWord (n : Nat) (g : Grammar) (start : Nat) (w : String) : Read Tree := do
  match byKeyword n g start w with
  | some rest =>
    let _ ← keyword w
    rest
  | none =>
    if ← isAtLabel then labelled g
    else if w == "let" && (← letDeclares) then
      let _ ← keyword "let"
      declaration n g start
    else if ← functionDeclares then functionDeclaration n g
    else if ← classDeclares then classDeclaration n g start []
    else if w == "import" && !(← importIsExpression) then
      let _ ← keyword "import"
      importDeclaration n g start
    else if ← exportDeclares then exportDeclaration n g start []
    else expressionStatement n g

def statement (n : Nat) (g : Grammar) : Read Tree := do
  let next ← enter
  match wordAt? next with
  | some w => byWord n g next.offset w
  | none =>
    match next.rest with
    | '{' :: _ => braced n g
    | ';' :: _ =>
      let _ ← symbol ";"
      close .emptyStatement next.offset []
    | '@' :: _ => decorated n g
    | _ => expressionStatement n g

end JsPrune.Script.Statement
