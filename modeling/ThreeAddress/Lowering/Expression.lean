import ThreeAddress.Lowering.Effect
import ThreeAddress.Text.Decimal

/-!
# Lowering expressions

A numeric expression becomes code that computes it and an operand that holds its value; literals and
variables need no code. A condition becomes code that jumps: to one label when it holds, to another
when it does not, and where a label is absent control falls through to whatever comes next.
Conditions of a `||` and `&&` chain group to the right, and a right operand is not reached when the
left one has decided the chain.

A truth value is turned back into a number only where one is needed: `boolValue` writes one or zero
at the two exits of a condition.
-/

namespace ThreeAddress

open Lowering

variable {σ : Type} [Sink σ]

/-- Whether a node only stands for its child: a wrapper, or an operator node without operators. -/
def isTransparent (kind : NodeKind) (ops : List TokenKind) : Bool :=
  match kind with
  | .expression | .group => true
  | .logic | .comparison | .sum | .product | .signed | .negation => ops.isEmpty
  | _ => false

/-- The opcode of an arithmetic sign, if the sign belongs to the kind of chain. -/
def arithOpcode? (kind : NodeKind) (op : TokenKind) : Option Opcode :=
  match op with
  | .plus => if kind = .sum then some .add else none
  | .minus => if kind = .sum then some .sub else none
  | .star => if kind = .sum then none else some .mul
  | .slash => if kind = .sum then none else some .div
  | .percent => if kind = .sum then none else some .rem
  | _ => none

/-- The opcode of a comparison sign. -/
def relationOpcode? (op : TokenKind) : Option Opcode :=
  match op with
  | .equal => some .eq
  | .notEqual => some .ne
  | .less => some .lt
  | .greater => some .gt
  | .lessEqual => some .le
  | .greaterEqual => some .ge
  | _ => none

/-- The node under all transparent ones. -/
def strip : Tree → Lowering σ Tree
  | .absent => incomplete
  | .node kind token value ops children =>
    if isTransparent kind ops then
      match children with
      | [.node k t v o c] => strip (.node k t v o c)
      | children => fail token (.childCount kind children.length)
    else return .node kind token value ops children

/-- The type of an expression as far as its outermost node tells. -/
def typeOf (t : Tree) : Lowering σ ValueType := do
  match ← strip t with
  | .absent => incomplete
  | .node kind token value _ _ =>
    match kind with
    | .boolLiteral | .logic | .comparison | .negation => return .bool
    | .intLiteral | .sum | .product | .signed => return .num
    | .identifier => typeOfName token value
    | kind => fail token (.notAnExpression kind)

/-- Checks that a chain has at least two operands and an operator between any two. -/
def checkChain (kind : NodeKind) (token : Token) (operands operators : Nat) : Lowering σ Unit :=
  if operands < 2 ∨ operands ≠ operators + 1 then fail token (.chainShape kind operands operators)
  else return ()

/-- Whether a run of signs changes the sign of a number, if they are all `+` and `-`; else the first
one that is not. -/
def signParity : List TokenKind → Except TokenKind Bool
  | [] => .ok false
  | .plus :: ops => signParity ops
  | .minus :: ops => (signParity ops).map (!·)
  | op :: _ => .error op

/-- Whether a run of signs turns a condition into its opposite, if they are all `!`; else the first
one that is not. -/
def bangParity : List TokenKind → Except TokenKind Bool
  | [] => .ok false
  | .bang :: ops => (bangParity ops).map (!·)
  | op :: _ => .error op

/-! ## Numbers -/

mutual

/-- Lowers a numeric expression. -/
def arith : Tree → Lowering σ Operand
  | .absent => incomplete
  | .node kind token value ops children =>
    if isTransparent kind ops then
      match children with
      | [.node k t v o c] => arith (.node k t v o c)
      | children => fail token (.childCount kind children.length)
    else
      match kind with
      | .intLiteral =>
        match Text.readInt64 value with
        | .ok n => return .const n
        | .error _ => fail token (.invalidInteger value)
      | .identifier => do
        match ← useName token value with
        | .num => return .global value
        | .bool => fail token (.boolVariableAsNumber value)
      | .sum | .product => do
        checkChain kind token children.length ops.length
        match children with
        | first :: rest => do
          let acc ← arith first
          arithChain kind token acc ops rest
        | [] => incomplete
      | .signed =>
        match children with
        | [.node k t v o c] =>
          match signParity ops with
          | .error op => fail token (.operatorIn op kind)
          | .ok negate => do
            let inner ← arith (.node k t v o c)
            if negate then
              let result ← freshTemp
              emit (.neg result inner)
              return result
            else return inner
        | children => fail token (.childCount kind children.length)
      | .boolLiteral | .logic | .comparison | .negation => fail token .boolExpressionAsNumber
      | kind => fail token (.notANumber kind)

/-- Lowers the rest of a chain, whose part so far is in `acc`: every operator makes a temporary. -/
def arithChain (kind : NodeKind) (token : Token) (acc : Operand) :
    List TokenKind → List Tree → Lowering σ Operand
  | op :: ops, operand :: operands =>
    match arithOpcode? kind op with
    | none => fail token (.operatorIn op kind)
    | some code => do
      let right ← arith operand
      let result ← freshTemp
      emit (.binary code result acc right)
      arithChain kind token result ops operands
  | [], _ => return acc
  | _ :: _, [] => incomplete

end

/-! ## Conditions -/

/-- Writes one or zero to a target at the exits of a condition. -/
def boolValue (condition : Option Label → Option Label → Lowering σ Unit) (target : Operand) :
    Lowering σ Unit := do
  let holds ← freshLabel
  let fails ← freshLabel
  let done ← freshLabel
  condition (some holds) (some fails)
  emit (.mark holds)
  emit (.copy target (.const 1))
  emit (.jump done)
  emit (.mark fails)
  emit (.copy target (.const 0))
  emit (.mark done)

/-- Writes the truth value of a condition to a new temporary. -/
def materialize (condition : Option Label → Option Label → Lowering σ Unit) :
    Lowering σ Operand := do
  let t ← freshTemp
  boolValue condition t
  return t

/-- Lowers two conditions that are joined by an operator. The exit of the left one that decides the
chain goes where the whole chain goes; if that is a fall-through, it goes to a label after the right
one. -/
def shortCircuit (deciding : Option Label) (left : Label → Label → Lowering σ Unit)
    (right : Lowering σ Unit) :
    Lowering σ Unit := do
  let middle ← freshLabel
  match deciding with
  | some l => do
    left l middle
    emit (.mark middle)
    right
  | none => do
    let join ← freshLabel
    left join middle
    emit (.mark middle)
    right
    emit (.mark join)

mutual

/-- Lowers a condition, given where control goes when it holds and when it does not. -/
def cond : Tree → Option Label → Option Label → Lowering σ Unit
  | .absent, _, _ => incomplete
  | .node kind token value ops children, holds, fails =>
    if isTransparent kind ops then
      match children with
      | [.node k t v o c] => cond (.node k t v o c) holds fails
      | children => fail token (.childCount kind children.length)
    else
      match kind with
      | .boolLiteral =>
        if value = "true" then jumpTo holds
        else if value = "false" then jumpTo fails
        else fail token (.invalidBoolean value)
      | .identifier => do
        match ← useName token value with
        | .bool => branch .eq (.global value) (.const 1) holds fails
        | .num => fail token (.numVariableAsCondition value)
      | .negation =>
        match bangParity ops with
        | .error op => fail token (.operatorIn op kind)
        | .ok odd =>
          match children with
          | [.node k t v o c] =>
            if odd then cond (.node k t v o c) fails holds else cond (.node k t v o c) holds fails
          | children => fail token (.childCount kind children.length)
      | .comparison =>
        match children, ops with
        | [left, right], [op] =>
          match relationOpcode? op with
          | none => fail token (.operatorIn op kind)
          | some code => do
            let leftType ← typeOf left
            let rightType ← typeOf right
            if leftType ≠ rightType then fail token (.compared leftType rightType)
            else
              match leftType with
              | .bool => do
                let l ← materialize fun t f => cond left t f
                let r ← materialize fun t f => cond right t f
                branch code l r holds fails
              | .num => do
                let l ← arith left
                let r ← arith right
                branch code l r holds fails
        | children, ops => fail token (.comparisonShape children.length ops.length)
      | .logic => do
        checkChain kind token children.length ops.length
        logicChain kind token ops children holds fails
      | .intLiteral | .sum | .product | .signed => fail token .numExpressionAsCondition
      | kind => fail token (.notACondition kind)

/-- Lowers a chain of conditions from the left. -/
def logicChain (kind : NodeKind) (token : Token) :
    List TokenKind → List Tree → Option Label → Option Label → Lowering σ Unit
  | [], last :: _, holds, fails => cond last holds fails
  | op :: ops, left :: rest, holds, fails =>
    match op with
    | .orOr =>
      shortCircuit holds (fun decided middle => cond left (some decided) (some middle))
        (logicChain kind token ops rest holds fails)
    | .andAnd =>
      shortCircuit fails (fun decided middle => cond left (some middle) (some decided))
        (logicChain kind token ops rest holds fails)
    | op => do
      let _ ← freshLabel
      fail token (.operatorIn op kind)
  | _, [], _, _ => incomplete

end

end ThreeAddress
