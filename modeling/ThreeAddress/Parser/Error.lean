import ThreeAddress.Token

/-!
# Syntax errors

Reading stops at the first token that cannot continue a program. The error names that token and says
what was missing there.
-/

namespace ThreeAddress

/-- The statements that begin with a keyword and an expression in parentheses. -/
inductive Heading
  | conditional
  | loop
  | selection
  deriving DecidableEq, Repr

def Heading.keyword : Heading → String
  | conditional => "if"
  | loop => "while"
  | selection => "switch"

/-- What is wrong with a token in its place. -/
inductive ParseFault
  /-- The token is illegal and says why. -/
  | illegal (message : String)
  | expectedDeclaredName
  | expectedDeclarationEnd
  | lateDeclaration
  | unclosedBlock
  | unclosedSelection
  | expectedOpening (heading : Heading)
  | expectedClosing (heading : Heading)
  | selectionDisabled
  | expectedAssign
  | expectedAssignmentEnd
  | expectedSelectionBody
  | expectedCaseNumber
  | expectedCaseColon
  | expectedDefaultColon
  | expectedClause
  | strayClause
  | strayElse
  | expectedStatement
  | chainedComparison
  | expectedGroupEnd
  | expectedExpression
  /-- The reading left the tokens or went on for ever, which none does. -/
  | runaway
  deriving DecidableEq, Repr

/-- How a message names a token. -/
def Token.describe (t : Token) : String :=
  match t.kind with
  | .identifier => "identifier '" ++ t.value ++ "'"
  | .number => "number '" ++ t.value ++ "'"
  | .endOfFile => "end of file"
  | k => "'" ++ k.spelling ++ "'"

/-- A syntax error: a token and what is wrong with it. -/
structure ParseError where
  token : Token
  fault : ParseFault
  deriving DecidableEq, Repr

namespace ParseError

/-- The wording of a syntax error, without its place. -/
def message (e : ParseError) : String :=
  match e.fault with
  | .illegal m => m
  | .expectedDeclaredName => "Expected a variable name in declaration."
  | .expectedDeclarationEnd => "Expected ';' after declaration."
  | .lateDeclaration => "declarations must come before the first statement"
  | .unclosedBlock => "Expected '\x7d' to close block."
  | .unclosedSelection => "Expected '\x7d' to close switch body."
  | .expectedOpening h => "Expected '(' after '" ++ h.keyword ++ "'."
  | .expectedClosing h => "Expected ')' after '" ++ h.keyword ++ "' condition."
  | .selectionDisabled => "switch statements are disabled (use -Fswitch)"
  | .expectedAssign => "Expected '=' after variable name."
  | .expectedAssignmentEnd => "Expected ';' after assignment."
  | .expectedSelectionBody => "Expected '\x7b' after switch expression."
  | .expectedCaseNumber => "Expected an integer literal after 'case'."
  | .expectedCaseColon => "Expected ':' after case value."
  | .expectedDefaultColon => "Expected ':' after 'default'."
  | .expectedClause =>
    "Expected 'case' or 'default' in switch body, found " ++ e.token.describe ++ "."
  | .strayClause => "'" ++ e.token.kind.spelling ++ "' outside of a switch statement"
  | .strayElse => "'else' without a matching 'if'"
  | .expectedStatement => "Expected a statement, found " ++ e.token.describe ++ "."
  | .chainedComparison => "comparison operators cannot be chained; use parentheses"
  | .expectedGroupEnd => "Expected ')' after expression."
  | .expectedExpression => "Expected an expression, found " ++ e.token.describe ++ "."
  | .runaway => "the reading of the tokens went astray"

/-- The wording of a syntax error, with the place of its token. -/
def text (e : ParseError) : String :=
  toString e.token.line ++ ":" ++ toString e.token.column ++ ": " ++ e.message

end ParseError

end ThreeAddress
