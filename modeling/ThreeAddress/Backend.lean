import ThreeAddress.Llvm.Selection
import ThreeAddress.Llvm.Text
import ThreeAddress.Qbe.Selection
import ThreeAddress.Settings

/-!
# Output forms

A program can be written as a listing of its code, as a QBE module, as an LLVM module, or as
assembly for the target machine. Assembly is made from the QBE module by an assembler outside this
library; what is known here is that it refuses targets it does not have.
-/

namespace ThreeAddress

/-- The output forms. -/
inductive Backend
  | listing
  | qbe
  | llvm
  | assembly
  deriving DecidableEq, Repr

/-- The output form for a name: an executable is made from assembly. -/
def Backend.ofName? (name : String) : Option Backend :=
  match name with
  | "tac" => some .listing
  | "qbe" => some .qbe
  | "llvm" => some .llvm
  | "asm" | "exe" => some .assembly
  | _ => none

/-- Why a program cannot be written in a form. -/
inductive EmitFault
  /-- An instruction lacks a part that its operation needs. -/
  | incomplete
  | unknownBackend (name : String)
  | qbe (fault : Qbe.Fault)
  | llvm (fault : Llvm.Fault)
  /-- The assembler, given a text, does not have the target. -/
  | unknownTarget (target text : String)
  /-- There is no assembler here. -/
  | noAssembler (text : String)
  deriving DecidableEq, Repr

/-- What the assembler's refusal of a text looks like. -/
def assemblerRefusal (text reason : String) : String :=
  "\n--- QBE Compilation Failed ---\nGenerated IR:\n" ++ text ++ "\n\nlibqbe error: " ++ reason

/-- The wording of a fault. -/
def EmitFault.message : EmitFault → String
  | incomplete => "incomplete instruction"
  | unknownBackend name =>
    "unsupported backend '" ++ name ++ "' (want tac, qbe, llvm, asm or exe)"
  | qbe f => f.message
  | llvm f => f.message
  | unknownTarget target text =>
    assemblerRefusal text ("unknown/unsupported target: " ++ Text.quote target)
  | noAssembler text => assemblerRefusal text "no assembler"

/-- The QBE text of a program. -/
def emitQbe (p : Program) : Except EmitFault String :=
  match Qbe.ofProgram p with
  | .ok m => .ok m.text
  | .error .incomplete => .error .incomplete
  | .error f => .error (.qbe f)

/-- The LLVM text of a program. -/
def emitLlvm (p : Program) : Except EmitFault String :=
  match Llvm.ofProgram p with
  | .ok m =>
    match m.text? with
    | some text => .ok text
    | none => .error .incomplete
  | .error .incomplete => .error .incomplete
  | .error f => .error (.llvm f)

/-- The text of a program in a form. -/
def Backend.emit (settings : Settings) (p : Program) : Backend → Except EmitFault String
  | listing =>
    match listingText? p.code with
    | some text => .ok text
    | none => .error .incomplete
  | qbe => emitQbe p
  | llvm => emitLlvm p
  | assembly => do
    let text ← emitQbe p
    if Settings.knownTargets.contains settings.target then .error (.noAssembler text)
    else .error (.unknownTarget settings.target text)

/-- The text of a program in the form with a name. -/
def Program.emitAs (settings : Settings) (name : String) (p : Program) : Except EmitFault String :=
  match Backend.ofName? name with
  | some b => b.emit settings p
  | none => .error (.unknownBackend name)

end ThreeAddress
