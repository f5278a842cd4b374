import ThreeAddress.Diagnostic
import ThreeAddress.Text.Decimal
import ThreeAddress.Tree
import ThreeAddress.ValueType

/-!
# Type checking

The checker reports every type error of a program, in the order in which it meets them: first those
of the declarations, then those of each statement. An expression whose type cannot be told counts as
having no type, and whatever is said about expressions of a wrong type is not said about it.

The rules read the children and operators that a well-shaped tree has. On a tree that lacks one of
them checking has no result, which is what `none` means throughout.
-/

namespace ThreeAddress

namespace Typing

/-- The part that an expression plays in a larger one or in a statement. -/
inductive Role
  | condition
  | leftOperand (op : TokenKind)
  | rightOperand (op : TokenKind)
  | signed (op : TokenKind)
  | negated
  deriving DecidableEq, Repr

/-- How a message names a role. -/
def Role.describe : Role → String
  | condition => "condition"
  | leftOperand op => "left operand of '" ++ op.spelling ++ "'"
  | rightOperand op => "right operand of '" ++ op.spelling ++ "'"
  | signed op => "operand of unary '" ++ op.spelling ++ "'"
  | negated => "operand of '!'"

/-- What is wrong with the types of a program. -/
inductive Fault
  | notAProgram
  | malformedDeclaration
  | redeclared (name : String) (now before : ValueType)
  | assigned (found type : ValueType) (name : String)
  | notAStatement (kind : NodeKind)
  | boolScrutinee
  | caseOutOfRange (text : String)
  | secondDefault
  | undeclared (name : String)
  | wanted (type : ValueType) (role : Role)
  | literalOutOfRange (text : String)
  | compared (left right : ValueType) (op : TokenKind)
  | notAnExpression (kind : NodeKind)
  deriving DecidableEq, Repr

/-- The wording of a fault. -/
def Fault.message : Fault → String
  | notAProgram => "expected a program"
  | malformedDeclaration => "malformed declaration"
  | redeclared name now before =>
    "'" ++ name ++ "' redeclared as " ++ now.name ++ ", previously declared as " ++ before.name
  | assigned found type name =>
    "cannot assign a " ++ found.name ++ " expression to " ++ type.name ++
    " variable '" ++ name ++ "'"
  | notAStatement kind => kind.name ++ " is not a statement"
  | boolScrutinee => "switch expression must be num, found bool"
  | caseOutOfRange text => "case value " ++ text ++ " is out of range"
  | secondDefault => "multiple default clauses in switch"
  | undeclared name => "undeclared identifier '" ++ name ++ "'"
  | wanted .bool role => role.describe ++ " must be bool, found num"
  | wanted .num role => role.describe ++ " must be num, found bool"
  | literalOutOfRange text => "integer literal " ++ text ++ " is out of range"
  | compared left right op =>
    "cannot compare " ++ left.name ++ " with " ++ right.name ++ " using '" ++ op.spelling ++ "'"
  | notAnExpression kind => kind.name ++ " is not an expression"

/-- A type error: a token and what is wrong at it. -/
structure Error where
  token : Token
  fault : Fault
  deriving DecidableEq, Repr

/-- A type error as text, with the place of its token. -/
def Error.text (e : Error) : String :=
  toString e.token.line ++ ":" ++ toString e.token.column ++ ": " ++ e.fault.message

/-- The types of the declared names. -/
abbrev Declared := List (String × ValueType)

/-- An error when a fault has occurred. -/
def errorIf (faulty : Bool) (token : Token) (fault : Fault) : List Error :=
  if faulty then [⟨token, fault⟩] else []

/-! ## Expressions -/

/-- The type of a name, and an error if it has none. -/
def nameType (declared : Declared) (token : Token) (name : String) :
    Option ValueType × List Error :=
  match declared.lookup name with
  | some type => (some type, [])
  | none => (none, [⟨token, .undeclared name⟩])

/-- The type that is not the wanted one. -/
def opposite : ValueType → ValueType
  | .num => .bool
  | .bool => .num

/-- The errors of an expression at a token that has to have a type, from its type and the errors in
it. -/
def demand (type : ValueType) (role : Role) (token : Token)
    (found : Option ValueType × List Error) :
    List Error :=
  found.2 ++ errorIf (found.1 = some (opposite type)) token (.wanted type role)

mutual

/-- The type of an expression, if it can be told, and the errors in it. -/
def exprType (declared : Declared) : Tree → Option (Option ValueType × List Error)
  | .absent => none
  | .node kind token value ops children =>
    match kind with
    | .expression | .group =>
      match children with
      | inner :: _ => exprType declared inner
      | [] => none
    | .identifier => some (nameType declared token value)
    | .intLiteral =>
      let faulty := (Text.readInt64 value).toOption.isNone
      some (some .num, errorIf faulty token (.literalOutOfRange value))
    | .boolLiteral => some (some .bool, [])
    | .sum | .product => do
      let errors ← operandErrors declared .num ops 0 children
      return (some .num, errors)
    | .signed =>
      match children, ops with
      | inner :: _, op :: _ => do
        let found ← exprType declared inner
        return (some .num, demand .num (.signed op) inner.token found)
      | _, _ => none
    | .negation =>
      match children with
      | inner :: _ => do
        let found ← exprType declared inner
        return (some .bool, demand .bool .negated inner.token found)
      | [] => none
    | .logic => do
      let errors ← operandErrors declared .bool ops 0 children
      return (some .bool, errors)
    | .comparison =>
      match children with
      | left :: right :: _ => do
        let (leftType, leftErrors) ← exprType declared left
        let (rightType, rightErrors) ← exprType declared right
        match leftType, rightType with
        | some l, some r =>
          if l = r then return (some .bool, leftErrors ++ rightErrors)
          else
            let op ← ops.head?
            return (some .bool, leftErrors ++ rightErrors ++ [⟨token, .compared l r op⟩])
        | _, _ => return (some .bool, leftErrors ++ rightErrors)
      | _ => none
    | kind => some (none, [⟨token, .notAnExpression kind⟩])

/-- The errors of the operands of a chain from the operand with number `i` on. -/
def operandErrors (declared : Declared) (type : ValueType) (ops : List TokenKind) (i : Nat) :
    List Tree → Option (List Error)
  | [] => some []
  | operand :: rest => do
    let op ← ops[i - 1]?
    let role := if i = 0 then Role.leftOperand op else Role.rightOperand op
    let found ← exprType declared operand
    let more ← operandErrors declared type ops (i + 1) rest
    return demand type role operand.token found ++ more

end

/-! ## Statements -/

/-- The error of a case clause whose value is no 64-bit number. -/
def caseErrors : Tree → Option (List Error)
  | .absent => none
  | .node _ token value _ _ =>
    some (errorIf (Text.readInt64 value).toOption.isNone token (.caseOutOfRange value))

def assignmentErrors (declared : Declared) : Tree → Tree → Option (List Error)
  | .node _ nameToken name _ _, value => do
    let (wanted, nameErrors) := nameType declared nameToken name
    let (found, valueErrors) ← exprType declared value
    let mismatch := match wanted, found with
      | some w, some f => errorIf (w ≠ f) value.token (.assigned f w name)
      | _, _ => []
    return nameErrors ++ valueErrors ++ mismatch
  | .absent, _ => none

mutual

def statementErrors (declared : Declared) : Tree → Option (List Error)
  | .absent => none
  | .node kind token _ _ children =>
    match kind with
    | .block | .statement => bodyErrors declared children
    | .assignment =>
      match children with
      | name :: value :: _ => assignmentErrors declared name value
      | _ => none
    | .conditional | .loop =>
      match children with
      | condition :: bodies => do
        let found ← exprType declared condition
        let more ← bodyErrors declared bodies
        return demand .bool .condition condition.token found ++ more
      | [] => none
    | .selection =>
      match children with
      | scrutinee :: clauses => do
        let (type, errors) ← exprType declared scrutinee
        let more ← clauseErrors declared false clauses
        return errors ++ errorIf (type = some .bool) scrutinee.token .boolScrutinee ++ more
      | [] => none
    | kind => some [⟨token, .notAStatement kind⟩]

/-- The errors of several statements, one after the other. -/
def bodyErrors (declared : Declared) : List Tree → Option (List Error)
  | [] => some []
  | t :: ts => do
    let errors ← statementErrors declared t
    let more ← bodyErrors declared ts
    return errors ++ more

/-- The errors of the clauses of a `switch`, given whether a default clause has been met. -/
def clauseErrors (declared : Declared) (seenDefault : Bool) : List Tree → Option (List Error)
  | [] => some []
  | .absent :: _ => none
  | .node kind token _ _ children :: clauses =>
    match kind with
    | .caseClause =>
      match children with
      | value :: body => do
        let errors ← caseErrors value
        let inner ← bodyErrors declared body
        let more ← clauseErrors declared seenDefault clauses
        return errors ++ inner ++ more
      | [] => none
    | .defaultClause => do
      let inner ← bodyErrors declared children
      let more ← clauseErrors declared true clauses
      return errorIf seenDefault token .secondDefault ++ inner ++ more
    | _ => do
      let inner ← bodyErrors declared children
      let more ← clauseErrors declared seenDefault clauses
      return inner ++ more

end

/-! ## Programs -/

/-- Adds a declaration to the names declared before it. A name keeps its first type. -/
def declare (declared : Declared) : Tree → Option (Declared × List Error)
  | .absent => none
  | .node _ token value _ children =>
    match children with
    | [.node _ nameToken name _ _] =>
      let type := ValueType.ofKeyword value
      match declared.lookup name with
      | some before =>
        some (declared, errorIf (before ≠ type) nameToken (.redeclared name type before))
      | none => some (declared ++ [(name, type)], [])
    | [.absent] => none
    | _ => some (declared, [⟨token, .malformedDeclaration⟩])

/-- Whether a node is a declaration; an absent node cannot be asked. -/
def isDeclaration? : Tree → Option Bool
  | .absent => none
  | .node kind .. => some (kind = .declaration)

/-- Adds the declarations among the children of a program. -/
def declareAll (declared : Declared) : List Tree → Option (Declared × List Error)
  | [] => some (declared, [])
  | t :: ts => do
    if ← isDeclaration? t then
      let (declared, errors) ← declare declared t
      let (declared, more) ← declareAll declared ts
      return (declared, errors ++ more)
    else declareAll declared ts

/-- The errors of the children of a program that are no declarations. -/
def topErrors (declared : Declared) : List Tree → Option (List Error)
  | [] => some []
  | t :: ts => do
    if ← isDeclaration? t then topErrors declared ts
    else
      let errors ← statementErrors declared t
      let more ← topErrors declared ts
      return errors ++ more

/-- The type errors of a program. -/
def check : Tree → Option (List Error)
  | .node .program _ _ _ children => do
    let (declared, errors) ← declareAll [] children
    let more ← topErrors declared children
    return errors ++ more
  | _ => some [⟨{}, .notAProgram⟩]

/-- The type errors of a program as diagnostics. -/
def report (files : List SourceFile) (errors : List Error) : String :=
  String.join (errors.map fun e => Diagnostic.error files e.token e.fault.message)

/-- The type errors of a program as diagnostics, if all of them can be shown. -/
def report? (files : List SourceFile) (errors : List Error) : Option String :=
  (errors.mapM fun e => Diagnostic.error? files e.token e.fault.message).map String.join

end Typing

end ThreeAddress
