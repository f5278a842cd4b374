import ThreeAddress.Parser.Cursor
import ThreeAddress.Tree

/-!
# Reading expressions

Expressions have ranks, from the weakest operators to the strongest: `||` and `&&`, which share a
rank; the comparisons, of which there is at most one in a row; `+` and `-`; and `*`, `/` and `%`. In
front of an operand stand first any number of `+` and `-`, then any number of `!`. An expression of
a rank is read by reading its operands, which are of the next rank. A node is made only where there
is an operator, and it stands at the first token of its text.

Parentheses lead from the last rank back to the first, so how often they do is bounded like the
rounds of a loop.
-/

namespace ThreeAddress

/-- The ranks of expressions. -/
inductive Rank
  | logic
  | comparison
  | sum
  | product
  | signed
  | negated
  | primary
  deriving DecidableEq, Repr

namespace Rank

/-- The kind of the nodes that a rank adds. -/
def kind : Rank → NodeKind
  | logic => .logic
  | comparison => .comparison
  | sum => .sum
  | product => .product
  | signed => .signed
  | negated => .negation
  | primary => .group

/-- Whether an operator joins the operands of a chain. -/
def joins : Rank → TokenKind → Bool
  | logic => TokenKind.isLogical
  | comparison => TokenKind.isRelation
  | sum => TokenKind.isAdditive
  | product => TokenKind.isMultiplicative
  | _ => fun _ => false

/-- Whether a sign can stand in front of an operand. -/
def leads : Rank → TokenKind → Bool
  | signed => TokenKind.isAdditive
  | negated => (· = .bang)
  | _ => fun _ => false

end Rank

namespace Read

/-- The signs of a rank that stand here. -/
def signs (k : Rank) : Nat → Read (List TokenKind)
  | 0 => exhausted
  | n + 1 => do
    if ← check k.leads then
      let sign := (← get).current.kind
      advance
      return sign :: (← signs k n)
    else return []

/-- An operand with signs in front of it. -/
def marked (n : Nat) (k : Rank) (operand : Read Tree) : Read Tree := do
  let place := (← get).current
  let signs ← signs k n
  let operand ← operand
  if signs.isEmpty then return operand
  else return .node k.kind place "" signs [operand]

/-- The operators of a chain from here on, each with the operand after it. -/
def chainRest (k : Rank) (operand : Read Tree) : Nat → Read (List (TokenKind × Tree))
  | 0 => exhausted
  | n + 1 => do
    if ← check k.joins then
      let op := (← get).current.kind
      advance
      let t ← operand
      return (op, t) :: (← chainRest k operand n)
    else return []

/-- The comparison behind an operand, if there is one. There is no second. -/
def comparisonRest (operand : Read Tree) : Read (List (TokenKind × Tree)) := do
  let op := (← get).current.kind
  if op.isRelation then
    advance
    let right ← operand
    let next := (← get).current
    if next.kind.isRelation then fail next .chainedComparison
    else return [(op, right)]
  else return []

/-- An operand with what a rank adds behind it. -/
def joined (k : Rank) (operand : Read Tree) (rest : Read (List (TokenKind × Tree))) :
    Read Tree := do
  let place := (← get).current
  let first ← operand
  let rest ← rest
  if rest.isEmpty then return first
  else return .node k.kind place "" (rest.map Prod.fst) (first :: rest.map Prod.snd)

/-- Operands with operators between them. -/
def chain (n : Nat) (k : Rank) (operand : Read Tree) : Read Tree :=
  joined k operand (chainRest k operand n)

/-- A comparison of two operands, or a lone operand. -/
def comparison (operand : Read Tree) : Read Tree :=
  joined .comparison operand (comparisonRest operand)

/-- An expression in parentheses, a literal or a name. -/
def primary (inner : Read Tree) : Read Tree := do
  let t := (← get).current
  if ← accept .leftParen then
    let e ← inner
    let _ ← expect .rightParen .expectedGroupEnd
    return .branch .group t [e]
  else if ← accept .kwTrue then return .leaf .boolLiteral t "true"
  else if ← accept .kwFalse then return .leaf .boolLiteral t "false"
  else if ← accept .number then return .leaf .intLiteral t t.value
  else if ← accept .identifier then return .leaf .identifier t t.value
  else fail t .expectedExpression

/-- An operand with any number of `!`, where `inner` reads what stands in parentheses. -/
def negated (n : Nat) (inner : Read Tree) : Read Tree := marked n .negated (primary inner)

/-- An operand with any number of `+` and `-`. -/
def signed (n : Nat) (inner : Read Tree) : Read Tree := marked n .signed (negated n inner)

def product (n : Nat) (inner : Read Tree) : Read Tree := chain n .product (signed n inner)

def sum (n : Nat) (inner : Read Tree) : Read Tree := chain n .sum (product n inner)

/-- An expression of the first rank. -/
def logic : Nat → Read Tree
  | 0 => exhausted
  | n + 1 => chain n .logic (comparison (sum n (logic n)))

/-- A whole expression, under a node of its own. -/
def expression (n : Nat) : Read Tree := do
  let place := (← get).current
  return .branch .expression place [← logic n]

end Read

end ThreeAddress
