import ThreeAddress.Compiler
import ThreeAddress.Text.Utf8

/-!
# The program

The compiler command on the files of the system. `Compiler.command` decides everything; here its
interaction is carried out step by step.
-/

namespace ThreeAddress

/-- The fault that the system reports. -/
def faultOfSystem : IO.Error → FileFault
  | .noFileOrDirectory .. => .missing
  | .permissionDenied .. => .denied
  | .inappropriateType _ _ details =>
    if details.toLower = "is a directory" then .isDirectory else .notDirectory
  | .invalidArgument _ _ "name too long" => .nameTooLong
  | e => .other (toString e)

/-- The error of an operation that the system has refused. A directory can be opened, but not read.
-/
def errorOfSystem (path : String) (reading : Bool) (e : IO.Error) : FileError :=
  let fault := faultOfSystem e
  ⟨if reading && fault = .isDirectory then "read" else "open", path, fault⟩

/-- Carries out an interaction on the system and returns its status. -/
def Interaction.perform : Interaction → IO UInt32
  | finish status => return UInt32.ofNat status
  | print text next => do
    IO.print text
    next.perform
  | complain text next => do
    IO.eprint text
    next.perform
  | readInput next => do
    let bytes ← (← IO.getStdin).readBinToEnd
    (next (Text.decodeUtf8 bytes.toList)).perform
  | readFile path next => do
    match ← (IO.FS.readBinFile path).toBaseIO with
    | .ok bytes => (next (.ok (Text.decodeUtf8 bytes.toList))).perform
    | .error e => (next (.error (errorOfSystem path true e))).perform
  | writeFile path text next => do
    match ← (IO.FS.writeFile path text).toBaseIO with
    | .ok _ => (next (.ok ())).perform
    | .error e => (next (.error (errorOfSystem path false e))).perform

end ThreeAddress

/-- Runs the compiler command on the arguments of the program. -/
def main (arguments : List String) : IO UInt32 :=
  (ThreeAddress.Compiler.command arguments).perform
