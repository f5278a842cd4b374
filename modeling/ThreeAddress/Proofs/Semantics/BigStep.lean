import ThreeAddress.Proofs.Scope
import ThreeAddress.Text.Decimal

/-!
# The meaning of programs

A store gives every variable a 64-bit word. `eval` is the value of an expression in a store, and
`Exec Γ t σ r` says that the statement `t`, started in the store `σ`, ends with `r`: either in a
store, or by a division by zero. A statement for which there is no such `r` runs forever.

Arithmetic is exact arithmetic on integers whose result is cut down to 64 bits; quotients and
remainders are those of the division that truncates toward zero. Chains of `+` and `-`, and of `*`,
`/` and `%`, group to the left. Chains of `||` and `&&`, which bind equally strongly, group to the
right, and their right operand is evaluated only if the left one does not decide. A truth value is
stored as one or zero, and a variable that holds a truth value is true if and only if it holds one.
A `switch` evaluates its scrutinee once, and runs the first clause whose value it has, or the
default clause if there is none.
-/

namespace ThreeAddress

/-- The values of the variables. -/
abbrev Store := String → Int64

/-- The store after an assignment. -/
def Store.set (σ : Store) (x : String) (w : Int64) : Store := fun y => if y = x then w else σ y

/-- The value of an expression. -/
inductive Value
  | num (w : Int64)
  | bool (b : Bool)
  deriving DecidableEq, Repr

/-- The word that stands for a value. -/
def Value.word : Value → Int64
  | num w => w
  | bool b => if b then 1 else 0

/-- Why an expression has no value. -/
inductive Trouble
  | divisionByZero
  /-- The expression has no meaning: its shape or its types are wrong. -/
  | meaningless
  deriving DecidableEq, Repr

/-- The number that a value has to be. -/
def Value.number : Value → Except Trouble Int64
  | num w => .ok w
  | bool _ => .error .meaningless

/-- The truth value that a value has to be. -/
def Value.truth : Value → Except Trouble Bool
  | bool b => .ok b
  | num _ => .error .meaningless

/-! ## Operators -/

/-- The result of an arithmetic operator. -/
def arithmetic (op : TokenKind) (x y : Int64) : Except Trouble Int64 :=
  match op with
  | .plus => .ok (.ofInt (x.toInt + y.toInt))
  | .minus => .ok (.ofInt (x.toInt - y.toInt))
  | .star => .ok (.ofInt (x.toInt * y.toInt))
  | .slash => if y = 0 then .error .divisionByZero else .ok (.ofInt (x.toInt.tdiv y.toInt))
  | .percent => if y = 0 then .error .divisionByZero else .ok (.ofInt (x.toInt.tmod y.toInt))
  | _ => .error .meaningless

example : arithmetic .slash (.ofInt (-9223372036854775808))
    (-1) = .ok (.ofInt (-9223372036854775808)) ∧
    arithmetic .percent (.ofInt (-9223372036854775808)) (-1) = .ok 0 ∧
      arithmetic .slash (-7) 2 = .ok (-3) := by decide

/-- Whether two words are related by a comparison sign. -/
def related (op : TokenKind) (x y : Int64) : Except Trouble Bool :=
  match op with
  | .equal => .ok (x = y)
  | .notEqual => .ok (x ≠ y)
  | .less => .ok (x.toInt < y.toInt)
  | .greater => .ok (y.toInt < x.toInt)
  | .lessEqual => .ok (x.toInt ≤ y.toInt)
  | .greaterEqual => .ok (y.toInt ≤ x.toInt)
  | _ => .error .meaningless

/-- The comparison of two numbers, or of two truth values as one and zero. -/
def compareValues (op : TokenKind) : Value → Value → Except Trouble Value
  | .num x, .num y => do return .bool (← related op x y)
  | .bool a, .bool b => do return .bool (← related op (Value.bool a).word (Value.bool b).word)
  | _, _ => .error .meaningless

/-- The value of an expression after a run of signs, the last one nearest to it. -/
def applySigns (v : Value) : List TokenKind → Except Trouble Value
  | [] => .ok v
  | op :: ops => do
    let w ← (← applySigns v ops).number
    match op with
    | .plus => return .num w
    | .minus => return .num (.ofInt (-w.toInt))
    | _ => .error .meaningless

/-- The value of an expression after a run of `!`. -/
def applyBangs (v : Value) : List TokenKind → Except Trouble Value
  | [] => .ok v
  | op :: ops => do
    let b ← (← applyBangs v ops).truth
    match op with
    | .bang => return .bool !b
    | _ => .error .meaningless

/-! ## Expressions -/

def variableValue (Γ : Scope) (σ : Store) (x : String) : Except Trouble Value :=
  match Γ x with
  | some .num => .ok (.num (σ x))
  | some .bool => .ok (.bool (σ x = 1))
  | none => .error .meaningless

mutual

/-- The value of an expression. A node without operators has the value of what it contains. -/
def eval (Γ : Scope) (σ : Store) : Tree → Except Trouble Value
  | .absent => .error .meaningless
  | .node kind _ text ops children =>
    match kind with
    | .expression | .group =>
      match children with
      | [t] => eval Γ σ t
      | _ => .error .meaningless
    | .intLiteral =>
      match Text.readInt64 text with
      | .ok w => .ok (.num w)
      | .error _ => .error .meaningless
    | .boolLiteral =>
      if text = "true" then .ok (.bool true)
      else if text = "false" then .ok (.bool false)
      else .error .meaningless
    | .identifier => variableValue Γ σ text
    | .sum | .product =>
      match children with
      | first :: rest => do evalChain Γ σ (← eval Γ σ first) ops rest
      | [] => .error .meaningless
    | .signed =>
      match children with
      | [t] => do applySigns (← eval Γ σ t) ops
      | _ => .error .meaningless
    | .negation =>
      match children with
      | [t] => do applyBangs (← eval Γ σ t) ops
      | _ => .error .meaningless
    | .comparison =>
      match ops, children with
      | [], [t] => eval Γ σ t
      | [op], [left, right] => do
        let l ← eval Γ σ left
        let r ← eval Γ σ right
        compareValues op l r
      | _, _ => .error .meaningless
    | .logic => evalLogic Γ σ ops children
    | _ => .error .meaningless

/-- The value of a chain of arithmetic operators whose part so far has the value `acc`. -/
def evalChain (Γ : Scope) (σ : Store) (acc : Value) : List TokenKind → List Tree →
    Except Trouble Value
  | [], [] => .ok acc
  | op :: ops, t :: ts => do
    let x ← acc.number
    let y ← (← eval Γ σ t).number
    evalChain Γ σ (.num (← arithmetic op x y)) ops ts
  | _, _ => .error .meaningless

/-- The value of a chain of `||` and `&&`. -/
def evalLogic (Γ : Scope) (σ : Store) : List TokenKind → List Tree → Except Trouble Value
  | [], [t] => eval Γ σ t
  | op :: ops, t :: ts => do
    let b ← (← eval Γ σ t).truth
    match op with
    | .orOr => if b then return .bool true else return .bool (← (← evalLogic Γ σ ops ts).truth)
    | .andAnd => if b then return .bool (← (← evalLogic Γ σ ops ts).truth) else return .bool false
    | _ => .error .meaningless
  | _, _ => .error .meaningless

end

/-! ## Statements -/

/-- How a statement ends. -/
inductive Ending
  | done (σ : Store)
  | divisionByZero

namespace Tree

def caseValue? : Tree → Option Int64
  | .node .caseClause _ _ _ (.node .intLiteral _ text _ _ :: _) => (Text.readInt64 text).toOption
  | _ => none

def isDefaultClause : Tree → Bool
  | .node .defaultClause _ _ _ _ => true
  | _ => false

def clauseStatements : Tree → List Tree
  | .absent => []
  | .node .caseClause _ _ _ (_ :: body) => body
  | .node _ _ _ _ body => body

end Tree

/-- The statements that a `switch` runs for a value of its scrutinee: those of the first clause for
the value, or else those of the default clause, if there is one. -/
def selected (w : Int64) (clauses : List Tree) : List Tree :=
  ((clauses.find? fun t => t.caseValue? = some w).or (clauses.find? Tree.isDefaultClause)).elim []
    Tree.clauseStatements

mutual

/-- A statement that is started in a store ends. -/
inductive Exec (Γ : Scope) : Tree → Store → Ending → Prop
  | sequence {kind token value ops children σ r} (hkind : kind = .program ∨ kind = .block)
      (hchildren : ExecAll Γ children σ r) : Exec Γ (.node kind token value ops children) σ r
  | declaration {token value ops children σ} :
      Exec Γ (.node .declaration token value ops children) σ (.done σ)
  | empty {token value ops σ} : Exec Γ (.node .statement token value ops []) σ (.done σ)
  | inner {token value ops t σ r} (ht : Exec Γ t σ r) :
      Exec Γ (.node .statement token value ops [t]) σ r
  | assignment {token value ops nameToken x nameOps nameChildren t σ v} (ht : eval Γ σ t = .ok v) :
      Exec Γ (.node .assignment token value ops
        [.node .identifier nameToken x nameOps nameChildren, t]) σ (.done (σ.set x v.word))
  | assignmentFault {token value ops name t σ} (ht : eval Γ σ t = .error .divisionByZero) :
      Exec Γ (.node .assignment token value ops [name, t]) σ .divisionByZero
  | conditionalThen {token value ops condition thenBody rest σ r}
      (hcondition : eval Γ σ condition = .ok (.bool true)) (hthen : Exec Γ thenBody σ r) :
      Exec Γ (.node .conditional token value ops (condition :: thenBody :: rest)) σ r
  | conditionalElse {token value ops condition thenBody elseBody σ r}
      (hcondition : eval Γ σ condition = .ok (.bool false)) (helse : Exec Γ elseBody σ r) :
      Exec Γ (.node .conditional token value ops [condition, thenBody, elseBody]) σ r
  | conditionalSkip {token value ops condition thenBody rest σ}
      (hrest : rest = [] ∨ rest = [.absent]) (hcondition : eval Γ σ condition = .ok (.bool false)) :
      Exec Γ (.node .conditional token value ops (condition :: thenBody :: rest)) σ (.done σ)
  | conditionalFault {token value ops condition bodies σ}
      (hcondition : eval Γ σ condition = .error .divisionByZero) :
      Exec Γ (.node .conditional token value ops (condition :: bodies)) σ .divisionByZero
  | loopEnd {token value ops condition body σ}
      (hcondition : eval Γ σ condition = .ok (.bool false)) :
      Exec Γ (.node .loop token value ops [condition, body]) σ (.done σ)
  | loopAgain {token value ops condition body σ σ' r}
      (hcondition : eval Γ σ condition = .ok (.bool true)) (hbody : Exec Γ body σ (.done σ'))
      (hagain : Exec Γ (.node .loop token value ops [condition, body]) σ' r) :
      Exec Γ (.node .loop token value ops [condition, body]) σ r
  | loopBodyFault {token value ops condition body σ}
      (hcondition : eval Γ σ condition = .ok (.bool true)) (hbody : Exec Γ body σ .divisionByZero) :
      Exec Γ (.node .loop token value ops [condition, body]) σ .divisionByZero
  | loopFault {token value ops condition body σ}
      (hcondition : eval Γ σ condition = .error .divisionByZero) :
      Exec Γ (.node .loop token value ops [condition, body]) σ .divisionByZero
  | selection {token value ops scrutinee clauses σ w r}
      (hscrutinee : eval Γ σ scrutinee = .ok (.num w))
      (hclause : ExecAll Γ (selected w clauses) σ r) :
      Exec Γ (.node .selection token value ops (scrutinee :: clauses)) σ r
  | selectionFault {token value ops scrutinee clauses σ}
      (hscrutinee : eval Γ σ scrutinee = .error .divisionByZero) :
      Exec Γ (.node .selection token value ops (scrutinee :: clauses)) σ .divisionByZero

/-- Several statements that are started in a store, one after the other, end. -/
inductive ExecAll (Γ : Scope) : List Tree → Store → Ending → Prop
  | nil {σ} : ExecAll Γ [] σ (.done σ)
  | cons {t ts σ σ' r} (ht : Exec Γ t σ (.done σ')) (hts : ExecAll Γ ts σ' r) :
      ExecAll Γ (t :: ts) σ r
  | fault {t ts σ} (ht : Exec Γ t σ .divisionByZero) : ExecAll Γ (t :: ts) σ .divisionByZero

end

end ThreeAddress
