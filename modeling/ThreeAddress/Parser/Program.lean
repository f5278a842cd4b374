import ThreeAddress.Parser.Expression
import ThreeAddress.Token.Scanner

/-!
# Reading programs

A program is a list of declarations followed by a list of statements. It is read by recursive
descent: a statement looks at the current token, goes past the keywords and signs that its kind of
statement has, and reads the expressions and statements inside it. An `else` is taken by the `if`
whose first branch has just been read, which is the innermost one.
-/

namespace ThreeAddress

/-! ## The trees of statements -/

namespace Tree

/-- A statement around an inner node. -/
def wrapStatement (token : Token) (inner : Tree) : Tree :=
  .branch .statement token [inner]

/-- An `if`, with or without an `else`. -/
def conditionalTree (token : Token) (condition : Tree) (bodies : List Tree) : Tree :=
  wrapStatement token (.branch .conditional token (condition :: bodies))

/-- A `while`. -/
def loopTree (token : Token) (condition body : Tree) : Tree :=
  wrapStatement token (.branch .loop token [condition, body])

/-- An assignment. -/
def assignmentTree (name sign : Token) (value : Tree) : Tree :=
  wrapStatement name (.branch .assignment sign [.leaf .identifier name name.value, value])

/-- The value of a case, which stands at its sign if it has one and reaches to the end of its
digits; its length is a 64-bit word. -/
def caseValueTree (place digits : Token) (text : String) : Tree :=
  let length := Int64.ofInt (digits.column + digits.length - place.column)
  .leaf .intLiteral { place with length := length.toInt } text

/-- The declaration of a name. -/
def declarationTree (keyword name : Token) : Tree :=
  .node .declaration keyword keyword.kind.spelling [] [.leaf .identifier name name.value]

end Tree

namespace Read

open Tree

/-! ## Statements -/

/-- The expression in parentheses behind a keyword. -/
def heading (n : Nat) (h : Heading) : Read Tree := do
  let _ ← expect .leftParen (.expectedOpening h)
  let e ← expression n
  let _ ← expect .rightParen (.expectedClosing h)
  return e

/-- An assignment, up to its semicolon. -/
def assignment (n : Nat) : Read Tree := do
  let name := (← get).current
  advance
  let sign ← expect .assign .expectedAssign
  let value ← expression n
  let _ ← expect .semicolon .expectedAssignmentEnd
  return assignmentTree name sign value

/-- The value of a case and the colon behind it. -/
def caseValue : Read Tree := do
  let place := (← get).current
  let negative ← accept .minus
  let digits ← expect .number .expectedCaseNumber
  let _ ← expect .colon .expectedCaseColon
  return caseValueTree place digits ((if negative then "-" else "") ++ digits.value)

/-- Statements, up to a token that ends them. -/
def statementsUntil (ends : TokenKind → Bool) (statement : Read Tree) : Nat → Read (List Tree)
  | 0 => exhausted
  | n + 1 => do
    if ← check ends then return []
    else
      let first ← statement
      return first :: (← statementsUntil ends statement n)

/-- The tokens that end a block. -/
def endsBlock (k : TokenKind) : Bool := k = .rightBrace || k = .endOfFile

/-- The tokens that end a clause of a `switch`. -/
def endsClause (k : TokenKind) : Bool := k = .kwCase || k = .kwDefault || endsBlock k

/-- The clauses of a `switch`. -/
def clauses (statement : Read Tree) : Nat → Read (List Tree)
  | 0 => exhausted
  | n + 1 => do
    if ← check endsBlock then return []
    else
      let t := (← get).current
      if ← accept .kwCase then
        let value ← caseValue
        let body ← statementsUntil endsClause statement n
        return .branch .caseClause t (value :: body) :: (← clauses statement n)
      else if ← accept .kwDefault then
        let _ ← expect .colon .expectedDefaultColon
        let body ← statementsUntil endsClause statement n
        return .branch .defaultClause t body :: (← clauses statement n)
      else fail t .expectedClause

/-- A `switch`, from behind its keyword. -/
def selection (n : Nat) (statement : Read Tree) (t : Token) : Read Tree := do
  let scrutinee ← heading n .selection
  let _ ← expect .leftBrace .expectedSelectionBody
  let clauses ← clauses statement n
  let _ ← expect .rightBrace .unclosedSelection
  return .branch .selection t (scrutinee :: clauses)

/-- A statement. -/
def statement (settings : Settings) : Nat → Read Tree
  | 0 => exhausted
  | n + 1 => do
    let t := (← get).current
    if ← accept .semicolon then return .branch .statement t []
    else if ← accept .leftBrace then
      let body ← statementsUntil endsBlock (statement settings n) n
      let _ ← expect .rightBrace .unclosedBlock
      return wrapStatement t (.branch .block t body)
    else if ← accept .kwIf then
      let condition ← heading n .conditional
      let body ← statement settings n
      if ← accept .kwElse then return conditionalTree t condition [body, ← statement settings n]
      else return conditionalTree t condition [body]
    else if ← accept .kwWhile then
      let condition ← heading n .loop
      return loopTree t condition (← statement settings n)
    else if ← check (· = .kwSwitch) then
      if settings.feature .switchStatements then
        advance
        return wrapStatement t (← selection n (statement settings n) t)
      else fail t .selectionDisabled
    else if ← check (· = .identifier) then assignment n
    else if ← check fun k => k = .kwCase || k = .kwDefault then fail t .strayClause
    else if ← check (· = .kwElse) then fail t .strayElse
    else fail t .expectedStatement

/-! ## Programs -/

/-- The tokens that declare names. -/
def declares (k : TokenKind) : Bool := k = .kwNum || k = .kwBool

/-- The names of a declaration. -/
def declaredNames (keyword : Token) : Nat → Read (List Tree)
  | 0 => exhausted
  | n + 1 => do
    let name ← expect .identifier .expectedDeclaredName
    if ← accept .comma then
      return declarationTree keyword name :: (← declaredNames keyword n)
    else return [declarationTree keyword name]

/-- A declaration, which gives a tree for each of its names. -/
def declaration (n : Nat) : Read (List Tree) := do
  let keyword := (← get).current
  advance
  let names ← declaredNames keyword n
  let _ ← expect .semicolon .expectedDeclarationEnd
  return names

/-- The declarations at the beginning of a program. -/
def declarations (m : Nat) : Nat → Read (List Tree)
  | 0 => exhausted
  | n + 1 => do
    if ← check declares then
      let first ← declaration m
      return first ++ (← declarations m n)
    else return []

/-- The statements of a program, up to the end of the file. -/
def statements (statement : Read Tree) : Nat → Read (List Tree)
  | 0 => exhausted
  | n + 1 => do
    if ← check (· = .endOfFile) then return []
    else if ← check declares then fail (← get).current .lateDeclaration
    else
      let first ← statement
      return first :: (← statements statement n)

/-- A program. -/
def program (settings : Settings) (n : Nat) : Read Tree := do
  let start := (← get).current
  let declarations ← declarations n n
  let statements ← statements (statement settings n) n
  return .branch .program start (declarations ++ [.branch .block start statements])

end Read

/-- Reads a program from a list of tokens, within a number of rounds. -/
def Tree.readWithin (settings : Settings) (rounds : Nat) (tokens : List Token) :
    Except Halt Tree := do
  (Read.program settings rounds).run' (← Cursor.start tokens.toArray)

/-- Reads a program from a list of tokens. There is a round for each of them, for the end of the
file and for looking at it. -/
def Tree.read (settings : Settings) (tokens : List Token) : Except Halt Tree :=
  Tree.readWithin settings (tokens.length + 2) tokens

/-- The program that a list of tokens spells. No reading leaves the list or uses up its rounds, so
the last case does not arise. -/
def Tree.parse (settings : Settings) (tokens : List Token) : Except ParseError Tree :=
  match Tree.read settings tokens with
  | .ok tree => .ok tree
  | .error (.fault e) => .error e
  | .error .outOfRange | .error .exhausted => .error ⟨{}, .runaway⟩

/-- The program that a source text spells. -/
def Tree.ofSource (settings : Settings) (file : Int) (source : List Char) :
    Except ParseError Tree :=
  Tree.parse settings (Token.scan settings file source)

end ThreeAddress
