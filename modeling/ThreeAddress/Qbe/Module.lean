import ThreeAddress.Code.Instr
import ThreeAddress.Text.Quoted

/-!
# QBE modules

A module has one function, `main`, over variables that live in memory. The function is a list of
lines: block labels, loads and stores of variables, computations on temporaries, jumps, and calls
that print a variable. Temporaries of the three-address code keep their number; the module adds
scratch temporaries of its own, each of which is assigned once.
-/

namespace ThreeAddress.Qbe

/-- The label of a block. -/
inductive Block
  | start
  /-- The block at a label of the code. -/
  | marked (id : Int)
  /-- The block after a conditional jump. -/
  | through (number : Nat)
  /-- The block of code that follows a jump without a label. -/
  | dead (number : Nat)
  | exit
  deriving DecidableEq, Repr

/-- A temporary: one of the code or a scratch one. -/
inductive Register
  | temp (id : Int)
  | scratch (number : Nat)
  deriving DecidableEq, Repr

/-- What an operation reads. -/
inductive Value
  | const (value : Int64)
  | register (register : Register)
  deriving DecidableEq, Repr

/-- A line of the function. -/
inductive Line
  | block (block : Block)
  | load (scratch : Nat) (name : String)
  | store (scratch : Nat) (name : String)
  | compute (dst : Register) (op : Opcode) (args : List Value)
  | compare (scratch : Nat) (op : Opcode) (left right : Value)
  | jump (block : Block)
  /-- Goes to the first block if the scratch temporary is not zero, else to the second. -/
  | branch (scratch : Nat) (nonzero zero : Block)
  | print (name : String) (scratch : Nat)
  /-- Returns zero. -/
  | ret
  deriving DecidableEq, Repr

/-- A module: its variables and the lines of its function. -/
structure Module where
  globals : List String
  lines : List Line
  deriving DecidableEq, Repr

/-! ## Text -/

/-- A block label as text. -/
def Block.text : Block → String
  | start => "@start"
  | marked id => "@L" ++ toString id
  | through n => "@ft" ++ toString n
  | dead n => "@dead" ++ toString n
  | exit => "@exit"

def scratchText (n : Nat) : String := "%." ++ toString n

def Register.text : Register → String
  | temp id => "%t" ++ toString id
  | scratch n => scratchText n

def Value.text : Value → String
  | const v => toString v.toInt
  | register r => r.text

/-- The name of a variable's data word. -/
def variableText (name : String) : String := "$v_" ++ name

/-- The name of a variable's format. -/
def formatText (name : String) : String := "$fmt_" ++ name

/-- The name of an operation, empty for operations that compute nothing. -/
def mnemonic : Opcode → String
  | .add => "add"
  | .sub => "sub"
  | .mul => "mul"
  | .div => "div"
  | .rem => "rem"
  | .neg => "neg"
  | .copy => "copy"
  | .eq => "ceql"
  | .ne => "cnel"
  | .lt => "csltl"
  | .gt => "csgtl"
  | .le => "cslel"
  | .ge => "csgel"
  | _ => ""

def Line.text : Line → String
  | block b => b.text ++ "\n"
  | load n x => "\t" ++ scratchText n ++ " =l loadl " ++ variableText x ++ "\n"
  | store n x => "\tstorel " ++ scratchText n ++ ", " ++ variableText x ++ "\n"
  | compute dst op args =>
    "\t" ++ dst.text ++ " =l " ++ mnemonic op ++ " " ++ ", ".intercalate
    (args.map Value.text) ++ "\n"
  | compare n op left right =>
    "\t" ++ scratchText n ++ " =w " ++ mnemonic op ++ " " ++ left.text ++ ", " ++ right.text ++ "\n"
  | jump b => "\tjmp " ++ b.text ++ "\n"
  | branch n t f => "\tjnz " ++ scratchText n ++ ", " ++ t.text ++ ", " ++ f.text ++ "\n"
  | print x n => "\tcall $printf(l " ++ formatText x ++ ", ..., l " ++ scratchText n ++ ")\n"
  | ret => "\tret 0\n"

namespace Module

/-- The data word of a variable. -/
def wordText (name : String) : String :=
  "data " ++ variableText name ++ " = \x7b l 0 \x7d\n"

/-- The format that prints a variable. -/
def formatDataText (name : String) : String :=
  "data " ++ formatText name ++ " = \x7b b " ++ Text.quote (name ++ " = %ld\n") ++ ", b 0 \x7d\n"

def text (m : Module) : String :=
  String.join (m.globals.map wordText) ++ String.join (m.globals.map formatDataText) ++
    "\nexport function w $main() \x7b\n" ++ String.join (m.lines.map Line.text) ++ "\x7d\n"

end Module

end ThreeAddress.Qbe
