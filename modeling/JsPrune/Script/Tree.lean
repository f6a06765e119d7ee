import JsPrune.Span
/-!
# Syntax trees

A node of the tree has a kind, the span of its text and its parts in source order.  Punctuation has
no nodes; every word, literal and operator that carries meaning has one.
-/

namespace JsPrune

inductive Kind where
  -- lists of statements
  | script
  | block
  | staticBlock
  | switchClause
  -- statements
  | debuggerStatement
  | expressionStatement
  | emptyStatement
  | declaration
  | functionDeclaration
  | classDeclaration
  | importDeclaration
  | exportDeclaration
  | ifStatement
  | switchStatement
  | loop
  | tryStatement
  | withStatement
  | jump
  | labelled
  -- expressions
  | identifier
  | literal
  | template
  | array
  | object
  | function
  | arrow
  | classExpression
  | grouping
  | member
  | subscript
  | call
  | creation
  | metaProperty
  | unary
  | update
  | operation
  | conditional
  | assignment
  | suspension
  | sequence
  -- an element between tags, whose parts are the expressions in it
  | markup
  -- parts
  | word
  | property
  | privateName
  | operator
  | spread
  | arguments
  | parameters
  | computedName
  | method
  | field
  | declarator
  | clause
  | decorator
  deriving DecidableEq, Repr

/-- Whether the parts of a node are statements in a row. -/
def Kind.isStatementList : Kind → Bool
  | .script | .block | .staticBlock | .switchClause => true
  | _ => false

inductive Tree where
  | node (kind : Kind) (span : Span) (parts : List Tree)
  deriving Repr

namespace Tree

def kind : Tree → Kind
  | .node kind _ _ => kind

def span : Tree → Span
  | .node _ span _ => span

def parts : Tree → List Tree
  | .node _ _ parts => parts

end Tree

end JsPrune
