import Std.Data.TreeMap
import ThreeAddress.Code.Instr

/-!
# Labels

A label may be marked once, and every jump must go to a label that is marked.
-/

namespace ThreeAddress

/-- What is wrong with the labels of code. -/
inductive CodeFault
  /-- An instruction lacks a part that an analysis has to look at. -/
  | incomplete
  | duplicateLabel (name : String) (index : Nat)
  | missingTarget (index : Nat)
  | undefinedLabel (name : String) (index : Nat)
  /-- A jump that can be reached goes to a label that is not marked. -/
  | unmarkedLabel (name : String)
  deriving DecidableEq, Repr

/-- The wording of a fault. -/
def CodeFault.message : CodeFault → String
  | incomplete => "incomplete instruction"
  | duplicateLabel name index => "duplicate label: " ++ name ++ " at instruction " ++ toString index
  | missingTarget index => "undefined label: jump without target at instruction " ++ toString index
  | undefinedLabel name index =>
    "undefined label: " ++ name ++ " referenced at instruction " ++ toString index
  | unmarkedLabel name => "undefined label: " ++ name

/-- The places of the labels: the index of its marker for each label name. -/
abbrev LabelIndex := Std.TreeMap String Nat

/-- The places of the labels that are marked from the instruction with number `i` on, given those
marked before. -/
def labelIndexFrom (i : Nat) (index : LabelIndex) : List Instr → Except CodeFault LabelIndex
  | [] => .ok index
  | instr :: code =>
    if instr.op = .mark then
      match instr.target with
      | none => .error .incomplete
      | some l =>
        if index.contains l.name then .error (.duplicateLabel l.name i)
        else labelIndexFrom (i + 1) (index.insert l.name i) code
    else labelIndexFrom (i + 1) index code

/-- The places of the labels of code. -/
def labelIndex (code : List Instr) : Except CodeFault LabelIndex :=
  labelIndexFrom 0 {} code

/-- Checks that the jumps from the instruction with number `i` on go to marked labels. -/
def checkJumpsFrom (index : LabelIndex) (i : Nat) : List Instr → Except CodeFault Unit
  | [] => .ok ()
  | instr :: code =>
    if instr.op.isJump then
      match instr.target with
      | none => .error (.missingTarget i)
      | some l =>
        if index.contains l.name then checkJumpsFrom index (i + 1) code
        else .error (.undefinedLabel l.name i)
    else checkJumpsFrom index (i + 1) code

/-- Checks that every label is marked at most once and every jump goes to a marked label. -/
def checkLabels (code : List Instr) : Except CodeFault Unit := do
  let index ← labelIndex code
  checkJumpsFrom index 0 code

end ThreeAddress
