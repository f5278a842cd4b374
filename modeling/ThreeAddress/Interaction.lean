import ThreeAddress.Files

/-!
# Interactions

What a command does to the world around it, as a value: it prints, reads its input and files, writes
files, and finishes with a status. What it does next may depend on what it has read and on whether a
file could be written. An interaction can be carried out on a directory tree that is itself a value.
-/

namespace ThreeAddress

/-- An interaction. -/
inductive Interaction
  | finish (status : Nat)
  /-- Prints to the standard output. -/
  | print (text : String) (next : Interaction)
  /-- Prints to the standard error output. -/
  | complain (text : String) (next : Interaction)
  | readInput (next : List Char → Interaction)
  | readFile (path : String) (next : Except FileError (List Char) → Interaction)
  | writeFile (path text : String) (next : Except FileError Unit → Interaction)

/-- What an interaction has done. -/
structure Transcript where
  status : Nat
  stdout : String
  stderr : String
  files : Files

/-- Carries out an interaction on a directory tree, from a working directory and with an input. -/
def Interaction.carryOut (directory : Location) (input : List Char) :
    Interaction → Files → Transcript
  | finish status, fs => ⟨status, "", "", fs⟩
  | print text next, fs =>
    let t := next.carryOut directory input fs
    { t with stdout := text ++ t.stdout }
  | complain text next, fs =>
    let t := next.carryOut directory input fs
    { t with stderr := text ++ t.stderr }
  | readInput next, fs => (next input).carryOut directory input fs
  | readFile path next, fs =>
    (next ((fs.read directory path).map String.toList)).carryOut directory input fs
  | writeFile path text next, fs =>
    match fs.write directory path text with
    | .ok fs => (next (.ok ())).carryOut directory input fs
    | .error e => (next (.error e)).carryOut directory input fs

end ThreeAddress
