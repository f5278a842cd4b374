import ThreeAddress.ValueType

/-!
# Three-address code

An instruction has an operation and up to five parts: a result, arguments, a test, and a target.
Which parts an operation uses is a matter of the operation: a copy has a result and one argument, an
arithmetic operation a result and two, a conditional jump a test and a target, a jump and a label
marker only a target. The type does not enforce this; code that lacks a part it needs can be written
down, and every analysis says what it makes of it.
-/

namespace ThreeAddress

/-- The operations. -/
inductive Opcode
  | copy
  | add
  | sub
  | mul
  | div
  | rem
  | neg
  | eq
  | ne
  | lt
  | gt
  | le
  | ge
  /-- Jump when a test holds. -/
  | jumpIf
  /-- Jump when a test does not hold. -/
  | jumpUnless
  | jump
  /-- The place that jumps to a label go to. -/
  | mark
  | unknown (number : Int)
  deriving DecidableEq, Repr, Inhabited

namespace Opcode

/-- The operations with a number of their own, in the order of their numbers. -/
def table : List Opcode :=
  [copy, add, sub, mul, div, rem, neg, eq, ne, lt, gt, le, ge, jumpIf, jumpUnless, jump, mark]

/-- The operation with a given number. -/
def ofNumber (n : Int) : Opcode :=
  if n < 0 then unknown n else (table[n.toNat]?).getD (unknown n)

/-- How an operation is written. -/
def symbol : Opcode → String
  | copy => "copy"
  | add => "+"
  | sub => "-"
  | mul => "*"
  | div => "/"
  | rem => "%"
  | neg => "-"
  | eq => "=="
  | ne => "!="
  | lt => "<"
  | gt => ">"
  | le => "<="
  | ge => ">="
  | jumpIf => "if"
  | jumpUnless => "ifFalse"
  | jump => "goto"
  | mark => "label"
  | unknown n => "op(" ++ toString n ++ ")"

/-- An arithmetic operation with two arguments. -/
def isBinary : Opcode → Bool
  | add | sub | mul | div | rem => true
  | _ => false

/-- A comparison. -/
def isRelation : Opcode → Bool
  | eq | ne | lt | gt | le | ge => true
  | _ => false

/-- An operation that may jump. -/
def isJump : Opcode → Bool
  | jumpIf | jumpUnless | jump => true
  | _ => false

end Opcode

/-- A label that jumps go to. -/
structure Label where
  name : String
  id : Int
  deriving DecidableEq, Repr, Inhabited

/-- What an instruction can name. -/
inductive Operand
  | const (value : Int64)
  /-- A variable of the program. -/
  | global (name : String)
  /-- A temporary made by the compiler. -/
  | temp (name : String) (id : Int)
  | label (label : Label)
  deriving DecidableEq, Repr, Inhabited

/-- The comparison that a conditional jump depends on. -/
structure Test where
  op : Opcode
  left : Option Operand
  right : Option Operand
  deriving DecidableEq, Repr

/-- An instruction. -/
structure Instr where
  op : Opcode
  result : Option Operand := none
  args : List (Option Operand) := []
  test : Option Test := none
  target : Option Label := none
  deriving DecidableEq, Repr

namespace Instr

/-- Copies a value. -/
def copy (dst src : Operand) : Instr :=
  { op := .copy, result := some dst, args := [some src] }

def neg (dst src : Operand) : Instr :=
  { op := .neg, result := some dst, args := [some src] }

/-- Combines two values. -/
def binary (op : Opcode) (dst left right : Operand) : Instr :=
  { op, result := some dst, args := [some left, some right] }

/-- Jumps when a comparison holds. -/
def jumpIf (op : Opcode) (left right : Operand) (l : Label) : Instr :=
  { op := .jumpIf, test := some ⟨op, some left, some right⟩, target := some l }

/-- Jumps when a comparison does not hold. -/
def jumpUnless (op : Opcode) (left right : Operand) (l : Label) : Instr :=
  { op := .jumpUnless, test := some ⟨op, some left, some right⟩, target := some l }

def jump (l : Label) : Instr :=
  { op := .jump, target := some l }

/-- Marks the place of a label. -/
def mark (l : Label) : Instr :=
  { op := .mark, target := some l }

end Instr

/-- A program: its variables in order of declaration, its code, and how many temporaries and labels
have been made. -/
structure Program where
  globals : List (String × ValueType) := []
  code : List Instr := []
  temps : Nat := 0
  labels : Nat := 0

/-- The type of a variable of a program. -/
def Program.globalType? (p : Program) (name : String) : Option ValueType :=
  p.globals.lookup name

end ThreeAddress
