import ThreeAddress.Proofs.Semantics.BigStep

/-!
# The atoms of a condition

The atoms of a condition are the truth-valued variables and the comparisons in it, in the order in
which they end: those in the operands of a comparison come before the comparison itself.

To say which of them are evaluated, the atoms are given tags, one for each. `evaluated Γ σ t tags`
are the tags of the atoms that `eval Γ σ t` looks at, in the order in which it does so: a right
operand of `||` or `&&` is looked at only if the left one has not decided, and nothing is looked at
behind a division by zero.
-/

namespace ThreeAddress

namespace Tree

mutual

/-- The truth-valued variables and the comparisons of an expression. -/
def atoms (Γ : Scope) : Tree → List Tree
  | .absent => []
  | .node kind token value ops children =>
    match kind with
    | .intLiteral | .boolLiteral => []
    | .identifier => if Γ value = some .bool then [.node kind token value ops children] else []
    | .comparison =>
      if ops.isEmpty then atomsAll Γ children
      else atomsAll Γ children ++ [.node kind token value ops children]
    | _ => atomsAll Γ children

/-- The atoms of several expressions, one after the other. -/
def atomsAll (Γ : Scope) : List Tree → List Tree
  | [] => []
  | t :: ts => atoms Γ t ++ atomsAll Γ ts

end

/-- The number of atoms of an expression. -/
def atomCount (Γ : Scope) (t : Tree) : Nat := (t.atoms Γ).length

end Tree

mutual

/-- The tags of the atoms of an expression that are evaluated, in the order of evaluation. The first
tags are those of the atoms of the expression, and there may be more. -/
def evaluated {α : Type} (Γ : Scope) (σ : Store) : Tree → List α → List α
  | .absent, _ => []
  | .node kind _ value ops children, tags =>
    match kind with
    | .intLiteral | .boolLiteral => []
    | .identifier => if Γ value = some .bool then tags.take 1 else []
    | .logic => evaluatedLogic Γ σ ops children tags
    | .comparison =>
      match ops, children with
      | [_], [left, right] =>
        evaluated Γ σ left tags ++
          match eval Γ σ left with
          | .error _ => []
          | .ok _ =>
            evaluated Γ σ right (tags.drop (left.atomCount Γ)) ++
              match eval Γ σ right with
              | .error _ => []
              | .ok _ => (tags.drop (left.atomCount Γ + right.atomCount Γ)).take 1
      | _, [t] => evaluated Γ σ t tags
      | _, _ => []
    | _ =>
      match children with
      | [t] => evaluated Γ σ t tags
      | _ => []

/-- The tags of the atoms of a chain of `||` and `&&` that are evaluated. -/
def evaluatedLogic {α : Type} (Γ : Scope) (σ : Store) : List TokenKind → List Tree → List α → List α
  | [], [t], tags => evaluated Γ σ t tags
  | op :: ops, t :: ts, tags =>
    evaluated Γ σ t tags ++
      match op, eval Γ σ t with
      | .orOr, .ok (.bool false) | .andAnd, .ok (.bool true) =>
        evaluatedLogic Γ σ ops ts (tags.drop (t.atomCount Γ))
      | _, _ => []
  | _, _, _ => []

end

/-- In `x < 0 || b && 0 < x` with a negative `x` only the first of three atoms is evaluated, with a
positive `x` and a false `b` the first two. -/
example :
    let x := Tree.leaf .identifier {} "x"
    let b := Tree.leaf .identifier {} "b"
    let zero := Tree.leaf .intLiteral {} "0"
    let less l r := Tree.node .comparison {} "" [.less] [l, r]
    let chain := Tree.node .logic {} "" [.orOr, .andAnd] [less x zero, b, less zero x]
    let Γ : Scope := fun name => if name = "b" then some .bool else some .num
    chain.atoms Γ = [less x zero, b, less zero x] ∧
      evaluated Γ (fun _ => -1) chain ['p', 'q', 'r'] = ['p'] ∧
      evaluated Γ (fun _ => 7) chain ['p', 'q', 'r'] = ['p', 'q'] := by
  refine ⟨?_, ?_, ?_⟩ <;> rfl

end ThreeAddress
