import ThreeAddress.Text.Quoted
import ThreeAddress.Token

/-!
# Syntax trees

A node has a kind, the token it stands at, a text (the name of an identifier, the digits of a
number, `true` or `false`, the type of a declaration), operators and children. The operators of a
chain stand between its children; those of a signed or negated expression all stand before its only
child.

Trees need not come from source text, so nothing is said here about how many children or operators a
kind of node has, a child may be absent, and a kind may be a number outside the table.
-/

namespace ThreeAddress

/-- The kinds of node. -/
inductive NodeKind
  | program
  | declaration
  | block
  | statement
  | conditional
  | loop
  | selection
  | caseClause
  | defaultClause
  | assignment
  | expression
  | sum
  | product
  | signed
  | logic
  | comparison
  | negation
  | group
  | boolLiteral
  | intLiteral
  | identifier
  | unknown (number : Int)
  deriving DecidableEq, Repr, Inhabited

namespace NodeKind

/-- The kinds with a number of their own, in the order of their numbers. -/
def table : List NodeKind :=
  [program, declaration, block, statement, conditional, loop, selection, caseClause, defaultClause,
    assignment, expression, sum, product, signed, logic, comparison, negation, group, boolLiteral,
    intLiteral, identifier]

/-- The kind with a given number. -/
def ofNumber (n : Int) : NodeKind :=
  if n < 0 then unknown n else (table[n.toNat]?).getD (unknown n)

/-- The name of a kind, as outlines and messages show it. -/
def name : NodeKind → String
  | program => "Program"
  | declaration => "Declaration"
  | block => "Block"
  | statement => "Stmt"
  | conditional => "IfStmt"
  | loop => "WhileStmt"
  | selection => "SwitchStmt"
  | caseClause => "CaseStmt"
  | defaultClause => "DefaultStmt"
  | assignment => "AssignStmt"
  | expression => "Expr"
  | sum => "AddExpr"
  | product => "MulExpr"
  | signed => "UnaExpr"
  | logic => "BoolExpr"
  | comparison => "CompExpr"
  | negation => "NotExpr"
  | group => "GenValue"
  | boolLiteral => "BoolValue"
  | intLiteral => "IntValue"
  | identifier => "Identifier"
  | unknown n => "NodeType(" ++ toString n ++ ")"

/-- The kind with a name, if there is one. -/
def ofName? (s : String) : Option NodeKind :=
  table.find? fun k => k.name == s

end NodeKind

/-- A syntax tree, or the absence of one where a child is missing. -/
inductive Tree
  | absent
  | node (kind : NodeKind) (token : Token) (value : String) (ops : List TokenKind)
      (children : List Tree)
  deriving Inhabited

namespace Tree

/-- The token of a node; an absent node has the empty token. -/
def token : Tree → Token
  | absent => {}
  | node _ t _ _ _ => t

/-- Whether there is no node. -/
def isAbsent : Tree → Bool
  | absent => true
  | node .. => false

/-- A node that carries only a text. -/
def leaf (kind : NodeKind) (token : Token) (value : String) : Tree :=
  node kind token value [] []

/-- A node that carries only children. -/
def branch (kind : NodeKind) (token : Token) (children : List Tree) : Tree :=
  node kind token "" [] children

/-! ## Traversal -/

mutual

/-- The nodes of a tree, each before its children, as pairs of kind and token. The children of a
node whose kind satisfies `prune` are left out. -/
def visit (prune : NodeKind → Bool) : Tree → List (NodeKind × Token)
  | absent => []
  | node kind token _ _ children =>
    (kind, token) :: if prune kind then [] else visitAll prune children

/-- The nodes of several trees, one tree after the other. -/
def visitAll (prune : NodeKind → Bool) : List Tree → List (NodeKind × Token)
  | [] => []
  | t :: ts => visit prune t ++ visitAll prune ts

end

mutual

/-- The declarations of a tree, outermost first; a declaration inside another one is left out. -/
def declarations : Tree → List Tree
  | absent => []
  | node kind token value ops children =>
    if kind = .declaration then [node kind token value ops children] else declarationsAll children

/-- The declarations of several trees, one tree after the other. -/
def declarationsAll : List Tree → List Tree
  | [] => []
  | t :: ts => declarations t ++ declarationsAll ts

end

/-! ## Outlines -/

/-- The line that shows a node: its kind, its text in quotes if it has one, its operators in
brackets if it has some, all indented by two spaces for each level of depth. -/
def outlineLine (depth : Nat) (kind : NodeKind) (value : String) (ops : List TokenKind) : String :=
  String.ofList (List.replicate (2 * depth) ' ') ++ kind.name ++
    (if value = "" then "" else " " ++ Text.quote value) ++
    (if ops.isEmpty then "" else " [" ++ " ".intercalate (ops.map TokenKind.spelling) ++ "]")

mutual

/-- The lines that show a tree at a depth. -/
def outline (depth : Nat) : Tree → List String
  | absent => []
  | node kind _ value ops children =>
    outlineLine depth kind value ops :: outlineAll (depth + 1) children

/-- The lines that show several trees at a depth. -/
def outlineAll (depth : Nat) : List Tree → List String
  | [] => []
  | t :: ts => outline depth t ++ outlineAll depth ts

end

/-- The outline of a tree as text. -/
def dump (t : Tree) : String :=
  String.join ((t.outline 0).map (· ++ "\n"))

end Tree

end ThreeAddress
