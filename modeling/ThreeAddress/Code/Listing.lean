import ThreeAddress.Code.Instr

/-!
# Listings

The text of code, one instruction on a line. An instruction that lacks an argument it should show
has no text; where the text of an instruction is embedded in a message or streamed to a writer, a
note about the missing argument takes its place.
-/

namespace ThreeAddress

def Operand.text : Operand → String
  | const v => toString v.toInt
  | global name => name
  | temp name _ => name
  | label l => l.name

/-- An operand that may be missing, inside an instruction. -/
def Operand.slot : Option Operand → String
  | some v => v.text
  | none => "%!s(<nil>)"

/-- An operand that may be missing, in a message. -/
def Operand.mention : Option Operand → String
  | some v => v.text
  | none => "<nil>"

def Test.text (t : Test) : String :=
  Operand.slot t.left ++ " " ++ t.op.symbol ++ " " ++ Operand.slot t.right

/-- The test of a jump, which may be missing. -/
def Test.slot : Option Test → String
  | some t => t.text
  | none => "<nil>"

/-- The target of a jump, which may be missing. -/
def Label.slot : Option Label → String
  | some l => l.name
  | none => "<nil>"

/-- An argument that an instruction should have and has not: its index and the number of arguments
there are. -/
structure MissingArgument where
  index : Nat
  length : Nat
  deriving DecidableEq, Repr

/-- The note that takes the place of an instruction's text; `verb` is the letter of the format. -/
def MissingArgument.note (m : MissingArgument) (verb : String) : String :=
  "%!" ++ verb ++ "(PANIC=String method: runtime error: index out of range [" ++ toString m.index ++
    "] with length " ++ toString m.length ++ ")"

namespace Instr

def argText (i : Instr) (k : Nat) : Except MissingArgument String :=
  match i.args[k]? with
  | some v => .ok (Operand.slot v)
  | none => .error ⟨k, i.args.length⟩

def text (i : Instr) : Except MissingArgument String :=
  match i.op with
  | .copy => do return Operand.slot i.result ++ " = " ++ (← i.argText 0)
  | .neg => do return Operand.slot i.result ++ " = -" ++ (← i.argText 0)
  | .jumpIf => .ok ("if " ++ Test.slot i.test ++ " goto " ++ Label.slot i.target)
  | .jumpUnless => .ok ("ifFalse " ++ Test.slot i.test ++ " goto " ++ Label.slot i.target)
  | .jump => .ok ("goto " ++ Label.slot i.target)
  | .mark => .ok (Label.slot i.target ++ ":")
  | op =>
    if op.isBinary then do
      let left ← i.argText 0
      let right ← i.argText 1
      return Operand.slot i.result ++ " = " ++ left ++ " " ++ op.symbol ++ " " ++ right
    else .ok ("<invalid " ++ op.symbol ++ ">")

/-- The text of an instruction, or the note that takes its place. -/
def textOrNote (verb : String) (i : Instr) : String :=
  match i.text with
  | .ok s => s
  | .error m => m.note verb

end Instr

/-- The lines of a listing, if every instruction has a text. -/
def listing? (code : List Instr) : Option (List String) :=
  code.mapM fun i => i.text.toOption

def listingText? (code : List Instr) : Option String :=
  (listing? code).map fun lines => String.join (lines.map (· ++ "\n"))

/-! ## Sinks -/

/-- What takes instructions as they are emitted. -/
class Sink (σ : Type) where
  put : σ → Instr → σ

instance : Sink Unit where
  put _ _ := ()

/-- A writer that takes `limit` instructions and then fails, or all of them if there is no limit,
and what it has received: the text, the number of instructions in it, and the number of the
instruction at which writing failed, if it did. -/
structure Stream where
  limit : Option Nat := none
  text : String := ""
  count : Nat := 0
  failedAt : Option Nat := none
  deriving DecidableEq, Repr

/-- Streams an instruction to a writer. After a failure nothing more is written. -/
def Stream.emit (s : Stream) (i : Instr) : Stream :=
  if s.failedAt.isSome then s
  else if s.limit = some s.count then { s with failedAt := some s.count }
  else { s with text := s.text ++ i.textOrNote "v" ++ "\n", count := s.count + 1 }

instance : Sink Stream where
  put := Stream.emit

/-- Streams code, one instruction after the other. -/
def stream (limit : Option Nat) (code : List Instr) : Stream := code.foldl Stream.emit { limit }

/-- What is said about a failed write, for which the writer gave a reason; nothing if none failed.
-/
def Stream.complaint (s : Stream) (reason : String) : String :=
  match s.failedAt with
  | some k => "writing instruction " ++ toString k ++ ": " ++ reason
  | none => ""

end ThreeAddress
