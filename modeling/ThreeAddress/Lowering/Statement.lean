import ThreeAddress.Lowering.Expression

/-!
# Lowering statements

An `if` and a `while` jump over their bodies when the condition does not hold. A `switch` evaluates
its scrutinee once, tests the values of its cases in order, goes to the default clause or the end
when none fits, and then lays out the bodies, each of which ends with a jump to the end.
-/

namespace ThreeAddress

open Lowering

variable {σ : Type} [Sink σ]

/-! ## Conditions known in advance -/

/-- The value of a condition that is a bare truth value, with a note about it. -/
def constantCondition? (condition : Tree) : Lowering σ (Option Bool) := do
  match ← strip condition with
  | .node .boolLiteral token value _ _ => do
    note token (.constantCondition value)
    return some (value = "true")
  | _ => return none

/-- Makes a note about a body that is never executed, unless it is empty. -/
def noteUnreachable : Tree → Lowering σ Unit
  | .absent => return ()
  | .node kind token _ _ children =>
    if kind = .statement ∧ children.isEmpty then return () else note token .neverExecuted

/-! ## Assignments -/

/-- Lowers an assignment to a name. -/
def assign (settings : Settings) (token nameToken : Token) (name : String) (value : Tree) :
    Lowering σ Unit := do
  match ← useName nameToken name with
  | .bool => boolValue (cond value) (.global name)
  | .num => do
    let v ← arith value
    if v = .global name then
      note token (.selfAssigned name)
      if settings.feature .elideSelfCopies then return () else emit (.copy (.global name) v)
    else emit (.copy (.global name) v)

/-- Lowers an assignment from its children. -/
def assignment (settings : Settings) (token : Token) : List Tree → Lowering σ Unit
  | [.absent, _] => incomplete
  | [.node .identifier nameToken name _ _, value] => assign settings token nameToken name value
  | _ => fail token .assignmentShape

/-! ## Dispatch -/

/-- The scrutinee of a `switch` in a temporary. -/
def scrutineeTemp (scrutinee : Tree) : Lowering σ Operand := do
  if (← typeOf scrutinee) ≠ .num then fail scrutinee.token .boolScrutinee
  else
    let v ← arith scrutinee
    match v with
    | .temp name id => return .temp name id
    | v => do
      let t ← freshTemp
      emit (.copy t v)
      return t

def caseTest (scrutinee : Operand) (seen : List Int64) (token : Token) (label : Label) :
    List Tree → Lowering σ Int64
  | .absent :: _ => incomplete
  | .node .intLiteral valueToken text _ _ :: _ =>
    match Text.readInt64 text with
    | .error _ => fail valueToken (.invalidCase text)
    | .ok v => do
      if seen.contains v then note valueToken (.duplicateCase v)
      emit (.jumpIf .eq scrutinee (.const v) label)
      return v
  | _ => fail token .caseShape

/-- Emits the tests for the clauses of a `switch` and returns a label for each clause and that of
the default clause, given the values and the default label met before. -/
def dispatch (scrutinee : Operand) (seen : List Int64) (default? : Option Label) :
    List Tree → Lowering σ (List Label × Option Label)
  | [] => return ([], default?)
  | clause :: clauses => do
    let label ← freshLabel
    match clause with
    | .absent => incomplete
    | .node .caseClause token _ _ children => do
      let v ← caseTest scrutinee seen token label children
      let (labels, last) ← dispatch scrutinee (v :: seen) default? clauses
      return (label :: labels, last)
    | .node .defaultClause token _ _ _ =>
      match default? with
      | some _ => fail token .secondDefault
      | none => do
        let (labels, last) ← dispatch scrutinee seen (some label) clauses
        return (label :: labels, last)
    | .node kind token _ _ _ => fail token (.notAClause kind)

/-! ## Statements -/

/-- Emits an `if` around its parts. -/
def conditional (condition : Tree) (thenBody : Lowering σ Unit)
    (elseBody : Option (Lowering σ Unit)) :
    Lowering σ Unit := do
  match elseBody with
  | none => do
    let done ← freshLabel
    cond condition none (some done)
    thenBody
    emit (.mark done)
  | some body => do
    let otherwise ← freshLabel
    let done ← freshLabel
    cond condition none (some otherwise)
    thenBody
    emit (.jump done)
    emit (.mark otherwise)
    body
    emit (.mark done)

/-- Emits a `while` around its body. -/
def loop (condition : Tree) (body : Lowering σ Unit) : Lowering σ Unit := do
  let start ← freshLabel
  let done ← freshLabel
  emit (.mark start)
  cond condition none (some done)
  body
  emit (.jump start)
  emit (.mark done)

mutual

/-- Lowers a statement. -/
def statement (settings : Settings) : Tree → Lowering σ Unit
  | .absent => fail {} .missingStatement
  | .node kind token _ _ children =>
    match kind with
    | .program | .block => statements settings children
    | .declaration => return ()
    | .statement =>
      match children with
      | [] => return ()
      | [inner] => statement settings inner
      | children => fail token (.statementShape children.length)
    | .assignment => assignment settings token children
    | .conditional =>
      match children with
      | [condition, thenBody] | [condition, thenBody, .absent] => do
        if (← constantCondition? condition) = some false then noteUnreachable thenBody
        conditional condition (statement settings thenBody) none
      | [condition, thenBody, elseBody] => do
        match ← constantCondition? condition with
        | some true => noteUnreachable elseBody
        | some false => noteUnreachable thenBody
        | none => pure ()
        conditional condition (statement settings thenBody) (some (statement settings elseBody))
      | children => fail token (.conditionalShape children.length)
    | .loop =>
      match children with
      | [condition, body] => do
        if (← constantCondition? condition) = some false then noteUnreachable body
        loop condition (statement settings body)
      | children => fail token (.loopShape children.length)
    | .selection =>
      match children with
      | [] => fail token .selectionShape
      | scrutinee :: clauses => do
        let value ← scrutineeTemp scrutinee
        let done ← freshLabel
        let (labels, default?) ← dispatch value [] none clauses
        emit (.jump (default?.getD done))
        clauseBodies settings done labels clauses
        emit (.mark done)
    | .caseClause | .defaultClause => fail token (.strayClause kind)
    | kind => fail token (.notAStatement kind)

/-- Lowers several statements, one after the other. -/
def statements (settings : Settings) : List Tree → Lowering σ Unit
  | [] => return ()
  | t :: ts => do
    statement settings t
    statements settings ts

/-- Lowers the bodies of the clauses of a `switch` at their labels; all but the last jump to the
end. -/
def clauseBodies (settings : Settings) (done : Label) : List Label → List Tree → Lowering σ Unit
  | label :: labels, .node kind _ _ _ children :: clauses => do
    emit (.mark label)
    match kind, children with
    | .caseClause, _ :: body => statements settings body
    | _, body => statements settings body
    if clauses.isEmpty then pure () else emit (.jump done)
    clauseBodies settings done labels clauses
  | _, [] => return ()
  | _, _ :: _ => incomplete

end

end ThreeAddress
