import ThreeAddress.Code.Labels

/-!
# Reachable instructions

Control can go from an instruction to the next one, except from an unconditional jump, and from a
jump to the marker of its target. The search keeps a stack of indices to visit, on which the target
of a jump lies below the instruction after it. Every index taken from the stack is either visited
for the first time, which can happen only once for each instruction and adds at most two indices, or
dropped; so the number of turns is at most twice the number of instructions and one more.
-/

namespace ThreeAddress

/-- The indices that control can go to from an instruction, in the order in which they are stacked.
-/
def successors (index : LabelIndex) (i : Nat) (instr : Instr) : Except CodeFault (List Nat) :=
  if instr.op.isJump then
    match instr.target with
    | none => .error .incomplete
    | some l =>
      match index[l.name]? with
      | none => .error (.unmarkedLabel l.name)
      | some target => .ok (if instr.op = .jump then [target] else [target, i + 1])
  else .ok [i + 1]

/-- Visits the indices on a stack, the last of a list of successors first, for a number of turns. -/
def explore (code : Array Instr) (index : LabelIndex) :
    Nat → List Nat → Array Bool → Except CodeFault (Array Bool)
  | _, [], seen => .ok seen
  | 0, _ :: _, seen => .ok seen
  | turns + 1, i :: work, seen =>
    match code[i]? with
    | none => explore code index turns work seen
    | some instr =>
      if seen.getD i true then explore code index turns work seen
      else do
        let next ← successors index i instr
        explore code index turns (next.reverse ++ work) (seen.setIfInBounds i true)

/-- Tells for each instruction whether control can reach it from the first one. -/
def reachable (code : List Instr) : Except CodeFault (List Bool) := do
  let index ← labelIndex code
  let seen ← explore code.toArray index (2 * code.length + 1) [0]
    (Array.replicate code.length false)
  return seen.toList

end ThreeAddress
