import Std.Data.TreeMap
import Std.Data.TreeSet
import ThreeAddress.Code.Listing
import ThreeAddress.Llvm.Module

/-!
# From three-address code to LLVM

Every label opens a block, which is made when the label is first named. A conditional jump is
followed by a block of its own, and so is code after a jump that no label precedes. All operands of
an instruction are loaded before it. After the code every variable is printed.
-/

namespace ThreeAddress.Llvm

/-- Why code has no module. -/
inductive Fault
  /-- An instruction lacks a part that its operation needs, or a block its end. -/
  | incomplete
  | undeclared (name : String)
  | unreadable (operand : Option Operand)
  | unassignable (operand : Option Operand)
  | unsupported (instr : Instr)
  deriving DecidableEq, Repr

/-- The wording of a fault. -/
def Fault.message : Fault → String
  | incomplete => "incomplete instruction"
  | undeclared name => "llvm: undeclared variable " ++ name
  | unreadable v => "llvm: cannot read operand " ++ Operand.mention v
  | unassignable v => "llvm: cannot assign to " ++ Operand.mention v
  | unsupported i => "llvm: unsupported instruction " ++ i.textOrNote "s"

/-- The index of the block that holds the stack slots. -/
def entry : Nat := 0

/-- The index of the block in which the code begins. -/
def body : Nat := 1

/-- How far selection has come. -/
structure State where
  blocks : Array Block := #[{ name := "entry" }, { name := "body" }]
  /-- The block that instructions are added to; none after a jump. -/
  current : Option Nat := some body
  /-- The blocks of the labels named so far. -/
  marked : Std.TreeMap String Nat := {}
  /-- The temporaries that have a stack slot. -/
  slots : Std.TreeSet String := {}
  /-- How many blocks without a label have been made. -/
  unmarked : Nat := 0
  /-- How many results have been made. -/
  results : Nat := 0

/-- A step of selection. -/
abbrev Select := StateT State (Except Fault)

namespace Select

/-- Stops with a fault. -/
def fail {α : Type} (f : Fault) : Select α := fun _ => .error f

/-- Makes a block and returns its index. -/
def newBlock (name : String) : Select Nat := do
  let s ← get
  set { s with blocks := s.blocks.push { name } }
  return s.blocks.size

/-- Makes a block without a label. -/
def unmarkedBlock (stem : String) : Select Nat := do
  let s ← get
  set { s with unmarked := s.unmarked + 1 }
  newBlock (stem ++ "." ++ toString (s.unmarked + 1))

def blockOf : Option Label → Select Nat
  | none => fail .incomplete
  | some l => do
    match (← get).marked[l.name]? with
    | some b => return b
    | none => do
      let b ← newBlock l.name
      modify fun s => { s with marked := s.marked.insert l.name b }
      return b

def modifyBlock (b : Nat) (f : Block → Block) : Select Unit :=
  modify fun s => { s with blocks := s.blocks.modify b f }

/-- Adds an instruction to a block. -/
def addTo (b : Nat) (i : Inst) : Select Unit :=
  modifyBlock b fun block => { block with code := block.code.push i }

/-- Ends a block; an end that it had is replaced. -/
def endBlock (b : Nat) (t : Terminator) : Select Unit :=
  modifyBlock b fun block => { block with terminator := some t }

/-- Adds an instruction that has a result to a block. -/
def addResult (b : Nat) (i : Nat → Inst) : Select Value := do
  let s ← get
  set { s with results := s.results + 1 }
  addTo b (i s.results)
  return .result s.results

/-- The stack slot of a temporary. -/
def slotOf (name : String) : Select Place := do
  unless (← get).slots.contains name do
    addTo entry (.alloca name)
    modify fun s => { s with slots := s.slots.insert name }
  return .slot name

/-- Loads an operand in a block. -/
def operand (globals : List String) (b : Nat) : Option Operand → Select Value
  | some (.const v) => return .const v
  | some (.global name) =>
    if globals.contains name then addResult b fun r => .load r (.global name)
    else fail (.undeclared name)
  | some (.temp name _) => do
    let place ← slotOf name
    addResult b fun r => .load r place
  | v => fail (.unreadable v)

/-- Loads operands in a block. -/
def operands (globals : List String) (b : Nat) : List (Option Operand) → Select (List Value)
  | [] => return []
  | v :: vs => do
    let x ← operand globals b v
    let xs ← operands globals b vs
    return x :: xs

/-- Stores a value in a block. -/
def storeTo (globals : List String) (b : Nat) (dst : Option Operand) (value : Value) :
    Select Unit :=
  match dst with
  | some (.global name) =>
    if globals.contains name then addTo b (.store value (.global name))
    else fail (.undeclared name)
  | some (.temp name _) => do
    let place ← slotOf name
    addTo b (.store value place)
  | v => fail (.unassignable v)

/-- The comparison of a test; what is no comparison counts as the last one. -/
def predicateOf : Opcode → Predicate
  | .eq => .eq
  | .ne => .ne
  | .lt => .lt
  | .gt => .gt
  | .le => .le
  | _ => .ge

/-- The instructions for an arithmetic operation in a block. -/
def arithmetic (globals : List String) (b : Nat) (op : Operation) (dst : Option Operand)
    (args : List Value) : Select Unit :=
  match args with
  | left :: right :: _ => do
    let r ← addResult b fun r => .compute r op left right
    storeTo globals b dst r
  | _ => fail .incomplete

/-- The instructions for a conditional jump in a block; it goes to its target when the test comes
out as `wanted`. -/
def branch (globals : List String) (b : Nat) (i : Instr) (wanted : Bool) : Select Unit :=
  match i.test with
  | none => fail .incomplete
  | some t => do
    let left ← operand globals b t.left
    let right ← operand globals b t.right
    let test ← addResult b fun r => .compare r (predicateOf t.op) left right
    let through ← unmarkedBlock "ft"
    let target ← blockOf i.target
    endBlock b (if wanted then .branch test target through else .branch test through target)
    modify fun s => { s with current := some through }

/-- The block that instructions are added to, which is a new one after a jump. -/
def currentBlock : Select Nat := do
  match (← get).current with
  | some b => return b
  | none => do
    let b ← unmarkedBlock "dead"
    modify fun s => { s with current := some b }
    return b

/-- Opens the block of a label; control falls into it from a block that has not ended. -/
def mark (l : Option Label) : Select Unit := do
  let next ← blockOf l
  let s ← get
  match s.current with
  | some b =>
    match s.blocks[b]? with
    | some { terminator := none, .. } => endBlock b (.jump next)
    | _ => pure ()
  | none => pure ()
  modify fun s => { s with current := some next }

/-- The instructions for an instruction of the code. -/
def instr (globals : List String) (i : Instr) : Select Unit := do
  if i.op = .mark then mark i.target
  else
    let b ← currentBlock
    let args ← operands globals b i.args
    match i.op with
    | .copy =>
      match args with
      | x :: _ => storeTo globals b i.result x
      | [] => fail .incomplete
    | .neg =>
      match args with
      | x :: _ => arithmetic globals b .sub i.result [.const 0, x]
      | [] => fail .incomplete
    | .add => arithmetic globals b .add i.result args
    | .sub => arithmetic globals b .sub i.result args
    | .mul => arithmetic globals b .mul i.result args
    | .div => arithmetic globals b .div i.result args
    | .rem => arithmetic globals b .rem i.result args
    | .jump => do
      let target ← blockOf i.target
      endBlock b (.jump target)
      modify fun s => { s with current := none }
    | .jumpIf => branch globals b i true
    | .jumpUnless => branch globals b i false
    | _ => fail (.unsupported i)

/-- The instructions for code. -/
def instrs (globals : List String) : List Instr → Select Unit
  | [] => return ()
  | i :: code => do
    instr globals i
    instrs globals code

/-- The instructions that print variables in a block. -/
def prints (b : Nat) : List String → Select Unit
  | [] => return ()
  | x :: xs => do
    let format ← addResult b fun r => .format r x
    let value ← addResult b fun r => .load r (.global x)
    let _ ← addResult b fun r => .print r format value
    prints b xs

/-- The blocks of a program. -/
def program (globals : List String) (code : List Instr) : Select Unit := do
  instrs globals code
  let last ← match (← get).current with
    | some b => pure b
    | none => newBlock "exit"
  prints last globals
  endBlock last .ret
  endBlock entry (.jump body)

end Select

/-- The module of a program. -/
def ofProgram (p : Program) : Except Fault Module := do
  let globals := p.globals.map Prod.fst
  let (_, s) ← Select.program globals p.code {}
  return { globals, blocks := s.blocks.toList }

end ThreeAddress.Llvm
