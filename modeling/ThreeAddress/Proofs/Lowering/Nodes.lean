import Mathlib.Tactic.Common
import ThreeAddress.Lowering.Program

/-!
# Lowering at a node

Induction over trees, and equations for the nodes that are lowered through their only child and for
the clauses of a `switch`.
-/

namespace ThreeAddress

open Lowering

/-- What holds of an absent tree, and of a node if it holds of its children, holds of every tree. -/
@[elab_as_elim]
lemma Tree.induction {P : Tree → Prop} (absent : P .absent)
    (node : ∀ kind token value ops children, (∀ t ∈ children, P t) →
      P (.node kind token value ops children)) (t : Tree) : P t := by
  cases t with
  | absent => exact absent
  | node kind token value ops children =>
    exact node kind token value ops children fun c _ => Tree.induction absent node c

/-- The only child of a node, if it has just one and that is there. -/
def onlyChild? : List Tree → Option Tree
  | [.node kind token value ops children] => some (.node kind token value ops children)
  | _ => none

lemma eq_singleton_of_onlyChild {children t} (h : onlyChild? children = some t) :
    children = [t] := by
  unfold onlyChild? at h
  split at h
  · rw [Option.some.inj h]
  · cases h

/-- The type that an expression shows by its outermost node. -/
def Typing.shownType? : NodeKind → Option ValueType
  | .boolLiteral | .logic | .comparison | .negation => some .bool
  | .intLiteral | .sum | .product | .signed => some .num
  | _ => none

section Nodes

variable {σ : Type} {kind : NodeKind} {token : Token} {value : String} {ops : List TokenKind}
  {children : List Tree}

section

variable (h : isTransparent kind ops = true)
include h

/-- Looking under a transparent node is looking under its child. -/
lemma strip_of_transparent : (strip (.node kind token value ops children) : Lowering σ Tree) =
    (onlyChild? children).elim (fail token (.childCount kind children.length)) strip := by
  rw [strip.eq_def]
  simp only [if_pos h]
  split <;> simp [onlyChild?]

/-- A transparent node is lowered as a number like its child. -/
lemma arith_of_transparent [Sink σ] :
    (arith (.node kind token value ops children) : Lowering σ Operand) = (onlyChild? children).elim
    (fail token (.childCount kind children.length)) arith := by
  rw [arith.eq_def]
  simp only [if_pos h]
  split <;> simp [onlyChild?]

/-- A transparent node is lowered as a condition like its child. -/
lemma cond_of_transparent [Sink σ] (holds fails : Option Label) :
    (cond (.node kind token value ops children) holds fails : Lowering σ Unit) =
      (onlyChild? children).elim (fail token (.childCount kind children.length))
      (cond · holds fails) := by
  rw [cond.eq_def]
  simp only [if_pos h]
  split <;> simp [onlyChild?]

/-- A transparent node has the type of its child. -/
lemma typeOf_of_transparent :
    (typeOf (.node kind token value ops children) : Lowering σ ValueType) =
    (onlyChild? children).elim (fail token (.childCount kind children.length)) typeOf := by
  rw [typeOf, strip_of_transparent h]
  cases onlyChild? children <;> rfl

end

/-- Any other node has the type of its name, or the type that it shows. -/
lemma typeOf_of_plain (h : isTransparent kind ops = false) :
    (typeOf (.node kind token value ops children) : Lowering σ ValueType) =
    if kind = .identifier then typeOfName token value
    else (Typing.shownType? kind).elim (fail token (.notAnExpression kind)) pure := by
  rw [typeOf, strip.eq_def]
  simp only [h, Bool.false_eq_true, if_false]
  cases kind <;> rfl

/-- A transparent node is a constant condition if its child is one. -/
lemma constantCondition_of_transparent (h : isTransparent kind ops = true) :
    (constantCondition? (.node kind token value ops children) : Lowering σ (Option Bool)) =
      (onlyChild? children).elim (fail token (.childCount kind children.length))
      constantCondition? := by
  rw [constantCondition?, strip_of_transparent h]
  cases onlyChild? children <;> rfl

/-- Any other node is a constant condition if it is a truth value. -/
lemma constantCondition_of_plain (h : isTransparent kind ops = false) :
    (constantCondition? (.node kind token value ops children) : Lowering σ (Option Bool)) =
        if kind = .boolLiteral then note token (.constantCondition value) >>= fun _ =>
          pure (some (decide (value = "true")))
      else pure none := by
  rw [constantCondition?, strip.eq_def]
  simp only [h, Bool.false_eq_true, if_false]
  cases kind <;> rfl

/-- A chain of arithmetic operators is checked, and then lowered from its first operand on. -/
lemma arith_chain [Sink σ] (hkind : kind = .sum ∨ kind = .product)
    (h : isTransparent kind ops = false) :
    (arith (.node kind token value ops children) : Lowering σ Operand) =
      checkChain kind token children.length ops.length >>= fun _ =>
      children.head?.elim incomplete fun first =>
        arith first >>= fun acc => arithChain kind token acc ops children.tail := by
  rw [arith.eq_def]
  rcases hkind with rfl | rfl
  all_goals
    simp only [h, Bool.false_eq_true, if_false]
    cases children <;> rfl

/-- A run of signs is lowered like its operand, with an instruction behind it if the sign changes.
-/
lemma arith_signed [Sink σ] (h : isTransparent .signed ops = false) :
    (arith (.node .signed token value ops children) : Lowering σ Operand) =
    (onlyChild? children).elim (fail token (.childCount .signed children.length)) fun inner =>
      match signParity ops with
      | .error op => fail token (.operatorIn op .signed)
      | .ok negate => do
        let v ← arith inner
        if negate then
          let result ← freshTemp
          emit (.neg result v)
          return result
        else return v := by
  rw [arith.eq_def]
  simp only [h, Bool.false_eq_true, if_false]
  split
  · rfl
  · simp [onlyChild?]

/-- A run of `!` is lowered like its operand, with the exits exchanged if the run is odd. -/
lemma cond_negation [Sink σ] (h : isTransparent .negation ops = false)
    (holds fails : Option Label) :
    (cond (.node .negation token value ops children) holds fails : Lowering σ Unit) =
    match bangParity ops with
      | .error op => fail token (.operatorIn op .negation)
      | .ok odd =>
        (onlyChild? children).elim (fail token (.childCount .negation children.length)) fun inner =>
          if odd then cond inner fails holds else cond inner holds fails := by
  rw [cond.eq_def]
  simp only [h, Bool.false_eq_true, if_false]
  cases bangParity ops with
  | error op => rfl
  | ok odd =>
    dsimp only
    split
    · rfl
    · simp [onlyChild?]

/-- What is no program is refused. -/
lemma lower_of_ne_program [Sink σ] {settings root}
    (h : ∀ token value ops children, root ≠ .node .program token value ops children) :
    (lower settings root : Lowering σ Unit) = fail root.token .notAProgram := by
  unfold lower
  split
  · exact absurd rfl (h _ _ _ _)
  · rfl

def clauseBody : NodeKind → List Tree → List Tree
  | .caseClause, _ :: body => body
  | _, body => body

/-- A clause is lowered at its label, with a jump behind it if others follow. -/
lemma clauseBodies_node [Sink σ] {settings done label labels clauses} :
    (clauseBodies settings done (label :: labels) (.node kind token value ops children :: clauses) :
      Lowering σ Unit) = emit (.mark label) >>= fun _ =>
      statements settings (clauseBody kind children) >>= fun _ =>
        if clauses.isEmpty then clauseBodies settings done labels clauses
        else emit (.jump done) >>= fun _ => clauseBodies settings done labels clauses := by
  cases kind with
  | caseClause => cases children <;> rfl
  | _ => rfl

end Nodes

end ThreeAddress
