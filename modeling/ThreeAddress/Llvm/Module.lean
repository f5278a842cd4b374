import ThreeAddress.Code.Instr

/-!
# LLVM modules

A module has a `main` function over variables that are globals. The function is a list of blocks,
each with a name, instructions and one terminator. The first block holds the stack slots of the
temporaries and nothing else. A block is referred to by its index, a result by the number under
which it was made.
-/

namespace ThreeAddress.Llvm

/-- What a load reads and a store writes. -/
inductive Place
  /-- The global of a variable. -/
  | global (name : String)
  /-- The stack slot of a temporary. -/
  | slot (name : String)
  deriving DecidableEq, Repr

/-- What an instruction reads. -/
inductive Value
  | const (value : Int64)
  | result (number : Nat)
  deriving DecidableEq, Repr

/-- The comparisons. -/
inductive Predicate
  | eq
  | ne
  | lt
  | gt
  | le
  | ge
  deriving DecidableEq, Repr

/-- The arithmetic operations. -/
inductive Operation
  | add
  | sub
  | mul
  | div
  | rem
  deriving DecidableEq, Repr

/-- An instruction. -/
inductive Inst
  /-- Makes the stack slot of a temporary. -/
  | alloca (name : String)
  | load (result : Nat) (place : Place)
  | store (value : Value) (place : Place)
  | compute (result : Nat) (op : Operation) (left right : Value)
  | compare (result : Nat) (predicate : Predicate) (left right : Value)
  /-- The address of a variable's format. -/
  | format (result : Nat) (name : String)
  /-- Prints a value. -/
  | print (result : Nat) (format value : Value)
  deriving DecidableEq, Repr

/-- The end of a block. -/
inductive Terminator
  | jump (block : Nat)
  | branch (test : Value) (holds fails : Nat)
  /-- Returns zero. -/
  | ret
  deriving DecidableEq, Repr

/-- A block, whose end may still be missing. -/
structure Block where
  name : String
  code : Array Inst := #[]
  terminator : Option Terminator := none
  deriving DecidableEq, Repr

/-- A module: its variables and the blocks of its function. -/
structure Module where
  globals : List String
  blocks : List Block
  deriving DecidableEq, Repr

end ThreeAddress.Llvm
