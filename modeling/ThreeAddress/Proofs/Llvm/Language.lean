import Mathlib.Logic.Function.Basic
import ThreeAddress.Llvm.Selection
import ThreeAddress.Proofs.Machine.Target

/-!
# The meaning of LLVM modules

A position in a module is a block and the number of its instructions that are behind it.
`Module.Edge` is the control flow between positions, whatever a branch depends on, and
`Module.WellFormed` says what is required of a module: blocks that end, branches that stay inside,
stack slots that are made in the first block and stored into before they are loaded.

`Module.step` executes an instruction or leaves a block. It has no result where the meaning is open:
for a result that was not computed, a slot that was not made or not stored into, and divisions by
zero and of the least word by -1.
-/

namespace ThreeAddress.Llvm

/-! ## Positions -/

/-- The blocks that an end of a block leads to. -/
def Terminator.targets : Terminator → List Nat
  | jump b => [b]
  | branch _ t f => [t, f]
  | ret => []

namespace Inst

/-- The stack slot that an instruction makes. -/
def allocates? : Inst → Option String
  | alloca name => some name
  | _ => none

/-- The stack slot that an instruction loads. -/
def loads? : Inst → Option String
  | load _ (.slot name) => some name
  | _ => none

/-- The stack slot that an instruction stores into. -/
def stores? : Inst → Option String
  | store _ (.slot name) => some name
  | _ => none

end Inst

/-- A position in a module. -/
structure Position where
  block : Nat
  offset : Nat
  deriving DecidableEq, Repr

namespace Module

/-- The instructions of a block. -/
def code (m : Module) (b : Nat) : List Inst :=
  match m.blocks[b]? with
  | some block => block.code.toList
  | none => []

/-- The end of a block. -/
def exit? (m : Module) (b : Nat) : Option Terminator :=
  match m.blocks[b]? with
  | some block => block.terminator
  | none => none

def instAt? (m : Module) (p : Position) : Option Inst := (m.code p.block)[p.offset]?

/-- Control can go from a position to another: to the next instruction, or from behind the last one
to a block that the end of the block leads to. -/
inductive Edge (m : Module) : Position → Position → Prop
  | next {b o} (ho : o < (m.code b).length) : Edge m ⟨b, o⟩ ⟨b, o + 1⟩
  | leave {b t c} (ht : m.exit? b = some t) (hc : c ∈ t.targets) :
      Edge m ⟨b, (m.code b).length⟩ ⟨c, 0⟩

/-- A walk from the beginning of the first block passes the positions `visited`, in order, and has
come to a position. -/
inductive Walk (m : Module) : List Position → Position → Prop
  | start : Walk m [] ⟨entry, 0⟩
  | step {visited p q} (hwalk : Walk m visited p) (hedge : m.Edge p q) : Walk m (visited ++ [p]) q

/-- What is required of a module. -/
structure WellFormed (m : Module) : Prop where
  /-- Every block has an end. -/
  terminated : ∀ block ∈ m.blocks, block.terminator ≠ none
  /-- Every branch goes to a block, and not to the first one. -/
  targets : ∀ b t, m.exit? b = some t → ∀ c ∈ t.targets, c ≠ entry ∧ c < m.blocks.length
  /-- Stack slots are made in the first block. -/
  allocated : ∀ b, ∀ inst ∈ m.code b, ∀ name, inst.allocates? = some name → b = entry
  /-- No stack slot is made twice. -/
  distinct : ((m.code entry).filterMap Inst.allocates?).Nodup
  /-- Every stack slot that is loaded or stored into is made. -/
  made : ∀ b, ∀ inst ∈ m.code b, ∀ name, inst.loads? = some name ∨ inst.stores? = some name →
    .alloca name ∈ m.code entry
  /-- On every walk a stack slot is stored into before it is loaded. -/
  stored : ∀ visited p inst name, m.Walk visited p → m.instAt? p = some inst →
    inst.loads? = some name →
    ∃ q ∈ visited, ∃ inst', m.instAt? q = some inst' ∧ inst'.stores? = some name

end Module

/-! ## Execution -/

/-- What a result can be. -/
inductive Datum
  | word (w : Int64)
  | truth (b : Bool)
  /-- The address of a variable's format. -/
  | format (name : String)
  deriving DecidableEq, Repr

/-- The state of an execution. -/
structure Frame where
  block : Nat
  offset : Nat := 0
  results : Nat → Option Datum := fun _ => none
  /-- The stack slots that have been made, with their contents where there are some. -/
  slots : String → Option (Option Int64) := fun _ => none
  globals : String → Option Int64
  /-- What has been printed. -/
  output : List Char := []

namespace Frame

/-- What a value stands for. -/
def value? (f : Frame) : Value → Option Datum
  | .const w => some (.word w)
  | .result r => f.results r

/-- The word that a value stands for. -/
def word? (f : Frame) (v : Value) : Option Int64 :=
  match f.value? v with
  | some (.word w) => some w
  | _ => none

/-- The frame behind the next instruction. -/
def advance (f : Frame) : Frame := { f with offset := f.offset + 1 }

/-- The frame behind the next instruction, which has a result. -/
def bind (f : Frame) (r : Nat) (d : Datum) : Frame :=
  { f.advance with results := Function.update f.results r (some d) }

/-- The word at a place. -/
def load? (f : Frame) : Place → Option Int64
  | .global x => f.globals x
  | .slot name => do
    let content ← f.slots name
    content

/-- The frame behind an instruction that stores a word at a place, which must be there. -/
def store? (f : Frame) (w : Int64) : Place → Option Frame
  | .global x => do
    let _ ← f.globals x
    return { f.advance with globals := Function.update f.globals x (some w) }
  | .slot name => do
    let _ ← f.slots name
    return { f.advance with slots := Function.update f.slots name (some (some w)) }

end Frame

/-- The result of an arithmetic operation on words. -/
def Operation.value? : Operation → Int64 → Int64 → Option Int64
  | add, x, y => some (x + y)
  | sub, x, y => some (x - y)
  | mul, x, y => some (x * y)
  | div, x, y => if isUndefinedQuotient x y then none else some (x / y)
  | rem, x, y => if isUndefinedQuotient x y then none else some (x % y)

/-- Whether a signed comparison of words holds. -/
def Predicate.holds : Predicate → Int64 → Int64 → Bool
  | eq, x, y => x = y
  | ne, x, y => x ≠ y
  | lt, x, y => x < y
  | gt, x, y => y < x
  | le, x, y => x ≤ y
  | ge, x, y => y ≤ x

def Inst.exec (m : Module) (f : Frame) : Inst → Option Frame
  | alloca name => some { f.advance with slots := Function.update f.slots name (some none) }
  | load r place => do
    let w ← f.load? place
    return f.bind r (.word w)
  | store v place => do
    let w ← f.word? v
    f.store? w place
  | compute r op left right => do
    let x ← f.word? left
    let y ← f.word? right
    let w ← op.value? x y
    return f.bind r (.word w)
  | compare r p left right => do
    let x ← f.word? left
    let y ← f.word? right
    return f.bind r (.truth (p.holds x y))
  | format r name => if name ∈ m.globals then some (f.bind r (.format name)) else none
  -- Nothing is said about the result of the call.
  | print _ text v =>
    match f.value? text with
    | some (.format name) => do
      let w ← f.word? v
      let line ← formatted? w (formatOf name).toList
      return { f.advance with output := f.output ++ line }
    | _ => none

/-- Leaves a block. -/
def Terminator.exec (f : Frame) : Terminator → Option Frame
  | jump b => some { f with block := b, offset := 0 }
  | branch v t e =>
    match f.value? v with
    | some (.truth holds) => some { f with block := if holds then t else e, offset := 0 }
    | _ => none
  | ret => none

namespace Module

/-- Executes the next instruction, or leaves the block if there is none. -/
def step (m : Module) (f : Frame) : Option Frame :=
  match (m.code f.block)[f.offset]? with
  | some inst => inst.exec m f
  | none => do
    let t ← m.exit? f.block
    t.exec f

/-- What the function returns in a state, if it does. -/
def returned? (m : Module) (f : Frame) : Option Int64 :=
  if f.offset = (m.code f.block).length ∧ m.exit? f.block = some .ret then some 0 else none

/-- The state in which the function is entered. -/
def start (m : Module) : Frame where
  block := entry
  globals x := if x ∈ m.globals then some 0 else none

/-- The function returns a value and has printed a text. -/
def Returns (m : Module) (value : Int64) (output : String) : Prop :=
  ∃ k f, Runs m.step k m.start f ∧ m.returned? f = some value ∧ f.output = output.toList

end Module

end ThreeAddress.Llvm
