import ThreeAddress.Code.Listing
import ThreeAddress.Qbe.Module

/-!
# From three-address code to QBE

Variables are loaded right before an instruction reads them and stored right after it writes them. A
conditional jump ends a block, so a block of its own follows it; a label begins one; code after a
jump that no label precedes gets one too. After the code every variable is printed.
-/

namespace ThreeAddress.Qbe

/-- Why code has no module. -/
inductive Fault
  /-- An instruction lacks a part that its operation needs. -/
  | incomplete
  | unassignable (operand : Option Operand)
  | unsupported (instr : Instr)
  deriving DecidableEq, Repr

/-- The wording of a fault. -/
def Fault.message : Fault → String
  | incomplete => "incomplete instruction"
  | unassignable v => "qbe: cannot assign to " ++ Operand.mention v
  | unsupported i => "qbe: unsupported instruction " ++ i.textOrNote "s"

/-- How far selection has come. -/
structure State where
  /-- The last number given to a scratch temporary or a block. -/
  last : Nat := 0
  /-- Whether the last line belongs to a block that has not ended. -/
  inBlock : Bool := true
  deriving DecidableEq, Repr

/-- The lines that load an operand, its value, and the last number given after them. What is no
value reads as zero. -/
def loadOperand (last : Nat) : Option Operand → List Line × Value × Nat
  | some (.const v) => ([], .const v, last)
  | some (.temp _ id) => ([], .register (.temp id), last)
  | some (.global name) => ([.load (last + 1) name], .register (.scratch (last + 1)), last + 1)
  | _ => ([], .const 0, last)

/-- The lines that give an operand the result of an operation, and the last number given after them.
-/
def assign (last : Nat) (dst : Option Operand) (op : Opcode) (args : List Value) :
    Except Fault (List Line × Nat) :=
  match dst with
  | some (.temp _ id) => .ok ([.compute (.temp id) op args], last)
  | some (.global name) =>
    .ok ([.compute (.scratch (last + 1)) op args, .store (last + 1) name], last + 1)
  | v => .error (.unassignable v)

/-- The lines for an operation on one operand. -/
def unary (last : Nat) (i : Instr) : Except Fault (List Line × Nat) :=
  match i.args with
  | a :: _ => do
    let (load, value, last) := loadOperand last a
    let (lines, last) ← assign last i.result i.op [value]
    return (load ++ lines, last)
  | [] => .error .incomplete

/-- The lines for an operation on two operands. -/
def binary (last : Nat) (i : Instr) : Except Fault (List Line × Nat) :=
  match i.args with
  | a :: b :: _ => do
    let (loadLeft, left, last) := loadOperand last a
    let (loadRight, right, last) := loadOperand last b
    let (lines, last) ← assign last i.result i.op [left, right]
    return (loadLeft ++ loadRight ++ lines, last)
  | _ => .error .incomplete

/-- The lines for a conditional jump, which goes to its target when the test comes out as `wanted`.
-/
def branchLines (last : Nat) (i : Instr) (wanted : Bool) : Except Fault (List Line × Nat) :=
  match i.test, i.target with
  | some t, some l =>
    let (loadLeft, left, last) := loadOperand last t.left
    let (loadRight, right, last) := loadOperand last t.right
    let test := last + 1
    let jump : Line :=
      if wanted then .branch test (.marked l.id) (.through test)
      else .branch test (.through test) (.marked l.id)
    .ok (loadLeft ++ loadRight ++
      [.compare test t.op left right, jump, .block (.through test)], test + 1)
  | _, _ => .error .incomplete

/-- The label that code needs when the block before it has ended. -/
def open? (s : State) : List Line × Nat :=
  if s.inBlock then ([], s.last) else ([.block (.dead s.last)], s.last + 1)

/-- The lines for an instruction. -/
def select (s : State) (i : Instr) : Except Fault (List Line × State) :=
  match i.op with
  | .mark =>
    match i.target with
    | some l => .ok ([.block (.marked l.id)], { s with inBlock := true })
    | none => .error .incomplete
  | op =>
    let (opening, last) := open? s
    match op with
    | .copy | .neg => do
      let (lines, last) ← unary last i
      return (opening ++ lines, ⟨last, true⟩)
    | .add | .sub | .mul | .div | .rem => do
      let (lines, last) ← binary last i
      return (opening ++ lines, ⟨last, true⟩)
    | .jump =>
      match i.target with
      | some l => .ok (opening ++ [.jump (.marked l.id)], ⟨last, false⟩)
      | none => .error .incomplete
    | .jumpIf => do
      let (lines, last) ← branchLines last i true
      return (opening ++ lines, ⟨last, true⟩)
    | .jumpUnless => do
      let (lines, last) ← branchLines last i false
      return (opening ++ lines, ⟨last, true⟩)
    | _ => .error (.unsupported i)

/-- The lines for code. -/
def selectAll (s : State) : List Instr → Except Fault (List Line × State)
  | [] => .ok ([], s)
  | i :: code => do
    let (lines, s) ← select s i
    let (rest, s) ← selectAll s code
    return (lines ++ rest, s)

def printLines (last : Nat) : List String → List Line
  | [] => []
  | x :: xs => .load (last + 1) x :: .print x (last + 1) :: printLines (last + 1) xs

/-- The module of a program. -/
def ofProgram (p : Program) : Except Fault Module := do
  let globals := p.globals.map Prod.fst
  let (lines, s) ← selectAll {} p.code
  let exit := if s.inBlock then [] else [.block .exit]
  return { globals, lines := .block .start :: lines ++ exit ++ printLines s.last globals ++ [.ret] }

end ThreeAddress.Qbe
