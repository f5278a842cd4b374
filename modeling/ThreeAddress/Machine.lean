import ThreeAddress.Code.Labels
import ThreeAddress.Code.Listing

/-!
# Running code

The machine holds the values of the variables and of the temporaries and the index of the next
instruction. A variable without a value reads as zero; a temporary must be written before it is
read. Arithmetic is on 64-bit words: it wraps around, and division cuts off toward zero.

A run ends when the next index lies outside the code, when an instruction fails, or when a given
number of instructions has been executed and there is one more to execute.
-/

namespace ThreeAddress

/-- Values of names. -/
abbrev Bindings := Std.TreeMap String Int64

/-- The state of the machine. -/
structure Machine where
  /-- The index of the next instruction. -/
  next : Nat := 0
  globals : Bindings := {}
  temps : Bindings := {}

/-- Why an instruction cannot be executed. -/
inductive RunFault
  | divisionByZero
  | unsetTemporary (name : String)
  | unreadable (operand : Option Operand)
  | unassignable (operand : Option Operand)
  | unexpectedOperation (op : Opcode)
  | unexpectedRelation (op : Opcode)
  /-- The instruction lacks a part that its operation needs. -/
  | incomplete
  deriving DecidableEq, Repr

/-- The wording of a fault. -/
def RunFault.message : RunFault → String
  | divisionByZero => "division by zero"
  | unsetTemporary name => "temporary read before it was written: " ++ name
  | unreadable v => "cannot read operand " ++ Operand.mention v
  | unassignable v => "cannot assign to " ++ Operand.mention v
  | unexpectedOperation op => "unexpected operation " ++ op.symbol
  | unexpectedRelation op => "unexpected relation " ++ op.symbol
  | incomplete => "incomplete instruction"

namespace Machine

/-- The value of an operand. -/
def read (m : Machine) : Option Operand → Except RunFault Int64
  | some (.const v) => .ok v
  | some (.global name) => .ok (m.globals[name]?.getD 0)
  | some (.temp name _) =>
    match m.temps[name]? with
    | some v => .ok v
    | none => .error (.unsetTemporary name)
  | v => .error (.unreadable v)

/-- The values of several operands, read from the left. -/
def readAll (m : Machine) : List (Option Operand) → Except RunFault (List Int64)
  | [] => .ok []
  | v :: vs => do
    let x ← m.read v
    let xs ← m.readAll vs
    return x :: xs

/-- Gives an operand a value. -/
def write (m : Machine) (dst : Option Operand) (value : Int64) : Except RunFault Machine :=
  match dst with
  | some (.global name) => .ok { m with globals := m.globals.insert name value }
  | some (.temp name _) => .ok { m with temps := m.temps.insert name value }
  | v => .error (.unassignable v)

/-- The result of an operation on its arguments. -/
def compute (op : Opcode) (args : List Int64) : Except RunFault Int64 :=
  match op, args with
  | .copy, x :: _ => .ok x
  | .neg, x :: _ => .ok (-x)
  | .add, x :: y :: _ => .ok (x + y)
  | .sub, x :: y :: _ => .ok (x - y)
  | .mul, x :: y :: _ => .ok (x * y)
  | .div, x :: y :: _ => if y = 0 then .error .divisionByZero else .ok (x / y)
  | .rem, x :: y :: _ => if y = 0 then .error .divisionByZero else .ok (x % y)
  | .copy, _ | .neg, _ | .add, _ | .sub, _ | .mul, _ | .div, _ | .rem, _ => .error .incomplete
  | op, _ => .error (.unexpectedOperation op)

/-- Whether a comparison of two values holds. -/
def compare (op : Opcode) (x y : Int64) : Except RunFault Bool :=
  match op with
  | .eq => .ok (x == y)
  | .ne => .ok (x != y)
  | .lt => .ok (x < y)
  | .gt => .ok (y < x)
  | .le => .ok (x ≤ y)
  | .ge => .ok (y ≤ x)
  | op => .error (.unexpectedRelation op)

/-- Whether a test holds. -/
def decide (m : Machine) : Option Test → Except RunFault Bool
  | none => .error .incomplete
  | some t => do
    let x ← m.read t.left
    let y ← m.read t.right
    compare t.op x y

/-- The place of a label; a label without one stands at the beginning. -/
def place (index : LabelIndex) (l : Option Label) : Nat :=
  match l with
  | some l => index[l.name]?.getD 0
  | none => 0

/-- Executes an instruction. -/
def step (index : LabelIndex) (i : Instr) (m : Machine) : Except RunFault Machine :=
  match i.op with
  | .mark => .ok { m with next := m.next + 1 }
  | .jump => .ok { m with next := place index i.target }
  | .jumpIf => do
    let holds ← m.decide i.test
    return { m with next := if holds then place index i.target else m.next + 1 }
  | .jumpUnless => do
    let holds ← m.decide i.test
    return { m with next := if holds then m.next + 1 else place index i.target }
  | op => do
    let args ← m.readAll i.args
    let value ← compute op args
    let m ← m.write i.result value
    return { m with next := m.next + 1 }

end Machine

/-- What a run leaves behind: the values of the variables, the number of instructions executed, and
their indices in order, if they were to be recorded. -/
structure RunResult where
  globals : Bindings
  steps : Nat
  trace : List Nat

/-- How a run ends. -/
inductive RunOutcome
  /-- The labels of the code are faulty and nothing was executed. -/
  | rejected (fault : CodeFault)
  | finished (result : RunResult)
  /-- The number of instructions to execute is used up. -/
  | stopped (result : RunResult)
  /-- An instruction failed. -/
  | failed (index : Nat) (instr : Instr) (fault : RunFault)

/-- The number of instructions that a run executes when no number is given. -/
def defaultStepLimit : Nat := 1000000

/-- Runs code from a state of the machine for at most `fuel` instructions. `steps` instructions have
been executed before, and `trace` holds their indices with the last one in front, if they are
recorded. -/
def runFrom (code : Array Instr) (index : LabelIndex) (record : Bool) :
    Nat → Machine → Nat → List Nat → RunOutcome
  | 0, m, steps, trace =>
    if m.next < code.size then .stopped ⟨m.globals, steps, trace.reverse⟩
    else .finished ⟨m.globals, steps, trace.reverse⟩
  | fuel + 1, m, steps, trace =>
    match code[m.next]? with
    | none => .finished ⟨m.globals, steps, trace.reverse⟩
    | some i =>
      match m.step index i with
      | .error fault => .failed m.next i fault
      | .ok next =>
        runFrom code index record fuel next (steps + 1) (if record then m.next :: trace else trace)

/-- Runs code from given values of the variables. A step limit that is not positive stands for the
default one. -/
def run (code : List Instr) (globals : Bindings) (limit : Int) (record : Bool) : RunOutcome :=
  match labelIndex code with
  | .error fault => .rejected fault
  | .ok index =>
    match checkLabels code with
    | .error fault => .rejected fault
    | .ok _ =>
      let fuel := if limit ≤ 0 then defaultStepLimit else limit.toNat
      runFrom code.toArray index record fuel { globals } 0 []

/-- The wording of the failure of an instruction. -/
def runFailure (index : Nat) (i : Instr) (fault : RunFault) : String :=
  "instruction " ++ toString index ++ " (" ++ i.textOrNote "s" ++ "): " ++ fault.message

/-- The wording of the end of a run at its step limit. -/
def stepLimitMessage (r : RunResult) : String :=
  "step limit exceeded after " ++ toString r.steps ++ " instructions"

end ThreeAddress
