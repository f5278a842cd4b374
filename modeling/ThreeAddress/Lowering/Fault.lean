import ThreeAddress.Tree
import ThreeAddress.ValueType

/-!
# Faults of lowering

Lowering stops at the first fault. A fault is of one of three kinds: the tree has a shape that no
source text gives it, a name is not declared, or a construct stands where it cannot be used.
-/

namespace ThreeAddress

/-- The kinds of fault. -/
inductive FaultKind
  | malformedTree
  | undeclaredIdentifier
  | unsupportedConstruct
  deriving DecidableEq, Repr

/-- The name of a kind of fault. -/
def FaultKind.name : FaultKind → String
  | malformedTree => "malformed tree"
  | undeclaredIdentifier => "undeclared identifier"
  | unsupportedConstruct => "unsupported construct"

/-- Why a tree cannot be lowered. -/
inductive LowerFault
  | notAProgram
  | declarationShape
  | invalidName (name : String)
  | redeclared (name : String) (now before : ValueType)
  | childCount (kind : NodeKind) (count : Nat)
  | chainShape (kind : NodeKind) (operands operators : Nat)
  | comparisonShape (operands operators : Nat)
  | invalidInteger (text : String)
  | invalidBoolean (text : String)
  | missingStatement
  | statementShape (count : Nat)
  | assignmentShape
  | conditionalShape (count : Nat)
  | loopShape (count : Nat)
  | selectionShape
  | caseShape
  | invalidCase (text : String)
  | secondDefault
  | notAClause (kind : NodeKind)
  | strayClause (kind : NodeKind)
  | undeclared (name : String)
  | boolVariableAsNumber (name : String)
  | boolExpressionAsNumber
  | notANumber (kind : NodeKind)
  | numVariableAsCondition (name : String)
  | numExpressionAsCondition
  | notACondition (kind : NodeKind)
  | operatorIn (op : TokenKind) (kind : NodeKind)
  | compared (left right : ValueType)
  | notAnExpression (kind : NodeKind)
  | notAStatement (kind : NodeKind)
  | boolScrutinee
  deriving DecidableEq, Repr

namespace LowerFault

def kind : LowerFault → FaultKind
  | notAProgram | declarationShape | invalidName _ | redeclared .. | childCount .. | chainShape ..
  | comparisonShape .. | invalidInteger _ | invalidBoolean _ | missingStatement | statementShape _
  | assignmentShape | conditionalShape _ | loopShape _ | selectionShape | caseShape | invalidCase _
  | secondDefault | notAClause _ | strayClause _ => .malformedTree
  | undeclared _ => .undeclaredIdentifier
  | boolVariableAsNumber _ | boolExpressionAsNumber | notANumber _ | numVariableAsCondition _
  | numExpressionAsCondition | notACondition _ | operatorIn .. | compared .. | notAnExpression _
  | notAStatement _ | boolScrutinee => .unsupportedConstruct

/-- The wording of a fault, without its kind. -/
def detail : LowerFault → String
  | notAProgram => "translation unit must be a Program node"
  | declarationShape => "declaration must name exactly one identifier"
  | invalidName name => "invalid variable name " ++ Text.quote name
  | redeclared name now before =>
    "'" ++ name ++ "' redeclared as " ++ now.name ++ ", previously " ++ before.name
  | childCount kind count =>
    kind.name ++ " must have exactly one child, has " ++ toString count
  | chainShape kind operands operators =>
    kind.name ++ " has " ++ toString operands ++ " operands for " ++
    toString operators ++ " operators"
  | comparisonShape operands operators =>
    "comparison needs 2 operands and 1 operator, has " ++ toString operands ++ " and " ++
      toString operators
  | invalidInteger text => "invalid integer literal '" ++ text ++ "'"
  | invalidBoolean text => "invalid boolean literal '" ++ text ++ "'"
  | missingStatement => "missing statement"
  | statementShape count => "Stmt must have at most one child, has " ++ toString count
  | assignmentShape => "assignment needs an identifier and an expression"
  | conditionalShape count =>
    "if needs a condition, a body and an optional else, has " ++ toString count ++ " children"
  | loopShape count => "while needs a condition and a body, has " ++ toString count ++ " children"
  | selectionShape => "switch needs a scrutinee"
  | caseShape => "case needs an integer literal"
  | invalidCase text => "invalid case value '" ++ text ++ "'"
  | secondDefault => "multiple default clauses in switch"
  | notAClause kind => kind.name ++ " in switch body"
  | strayClause kind => kind.name ++ " outside of a switch"
  | undeclared name => "'" ++ name ++ "'"
  | boolVariableAsNumber name => "boolean variable '" ++ name ++ "' used as a number"
  | boolExpressionAsNumber => "boolean expression used as a number"
  | notANumber kind => kind.name ++ " cannot be used as a number"
  | numVariableAsCondition name => "numeric variable '" ++ name ++ "' used as a condition"
  | numExpressionAsCondition => "numeric expression used as a condition"
  | notACondition kind => kind.name ++ " cannot be used as a condition"
  | operatorIn op kind => "operator '" ++ op.spelling ++ "' in " ++ kind.name
  | compared left right => "cannot compare " ++ left.name ++ " with " ++ right.name
  | notAnExpression kind => kind.name ++ " is not an expression"
  | notAStatement kind => kind.name ++ " used as a statement"
  | boolScrutinee => "switch on a boolean value"

/-- The wording of a fault. -/
def message (f : LowerFault) : String :=
  f.kind.name ++ ": " ++ f.detail

end LowerFault

/-- A fault and the token it is reported at. -/
structure LowerError where
  token : Token
  fault : LowerFault
  deriving DecidableEq, Repr

end ThreeAddress
