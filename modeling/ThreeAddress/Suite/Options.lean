import ThreeAddress.Options.Arguments
import ThreeAddress.Text.Words

/-!
# Options of the test runner

The runner reads its arguments by rules of its own: a flag begins with one or two hyphens, its value
follows an equals sign or is the next argument, and the first argument that is no flag ends the
flags.
-/

namespace ThreeAddress.Suite

/-- What a flag of the runner takes. -/
inductive ValueKind
  | text
  | truth
  | integer
  | duration
  deriving DecidableEq, Repr

/-- A flag of the runner. -/
structure RunnerFlag where
  name : String
  kind : ValueKind
  /-- The default value that the usage page shows, empty if there is none to show. -/
  default : String
  usage : String

/-- The flags of the runner, by name. -/
def runnerFlags : List RunnerFlag :=
  [ ⟨"compiler", .text, "./gtac", "Path to the gtac binary to test."⟩,
    ⟨"compiler-args", .text, "",
      "Extra arguments passed to every compiler invocation (space-separated)."⟩,
    ⟨"dir", .text, "", "Directory to store/read golden JSON files (defaults to source file dir)."⟩,
    ⟨"generate-golden", .text, "",
      "Generate golden .json files for the given source files (space-separated globs)."⟩,
    ⟨"ignore-lines", .text, "", "Comma-separated substrings to ignore during output comparison."⟩,
    ⟨"j", .integer, "4", "Number of parallel test jobs."⟩,
    ⟨"native", .truth, "",
      "Also build an executable and check it prints what the interpreter prints."⟩,
    ⟨"output", .text, ".test_results.json", "Output file for the JSON test report."⟩,
    ⟨"skip-files", .text, "", "Files to skip (space-separated)."⟩,
    ⟨"test-files", .text, "examples/*.tl", "Glob pattern(s) for files to test (space-separated)."⟩,
    ⟨"timeout", .duration, "5s", "Timeout for each command execution."⟩,
    ⟨"v", .truth, "", "Enable verbose logging."⟩ ]

/-! ## Values -/

/-- Why a value is refused. -/
inductive ValueFault
  | malformed
  | outOfRange
  deriving DecidableEq, Repr

/-- The wording of a fault. -/
def ValueFault.message : ValueFault → String
  | malformed => "parse error"
  | outOfRange => "value out of range"

/-- The value of a digit in bases up to sixteen. -/
def digit? (c : Char) : Option Nat :=
  if c.isDigit then some (c.toNat - '0'.toNat)
  else if 'a' ≤ c ∧ c ≤ 'f' then some (c.toNat - 'a'.toNat + 10)
  else if 'A' ≤ c ∧ c ≤ 'F' then some (c.toNat - 'A'.toNat + 10)
  else none

/-- The base of a number and its digits after the mark of the base. -/
def splitBase : List Char → Nat × List Char
  | '0' :: c :: cs =>
    if c = 'x' ∨ c = 'X' then (16, cs)
    else if c = 'b' ∨ c = 'B' then (2, cs)
    else if c = 'o' ∨ c = 'O' then (8, cs)
    else (8, c :: cs)
  | cs => (10, cs)

/-- Whether underscores stand only between digits, or between the mark of a base and a digit. -/
def underscoresFit (afterDigit : Bool) : List Char → Bool
  | [] => true
  | ['_'] => false
  | '_' :: c :: cs => afterDigit && c != '_' && underscoresFit false (c :: cs)
  | _ :: cs => underscoresFit true cs

/-- The number that digits in a base stand for. -/
def readBase (base : Nat) (acc : Nat) : List Char → Except ValueFault Nat
  | [] => .ok acc
  | '_' :: cs => readBase base acc cs
  | c :: cs =>
    match digit? c with
    | some d =>
      if d < base then
        let next := base * acc + d
        if next < UInt64.size then readBase base next cs else .error .outOfRange
      else .error .malformed
    | none => .error .malformed

/-- Reads a number without a sign. -/
def readMagnitude (cs : List Char) : Except ValueFault Nat :=
  let (base, digits) := splitBase cs
  if digits.isEmpty then .error .malformed
  else do
    let n ← readBase base 0 digits
    if !underscoresFit (base != 10) digits then .error .malformed
    else return n

/-- Reads a number with an optional sign; it must fit in 64 bits. -/
def readInteger (s : String) : Except ValueFault Int :=
  match s.toList with
  | '-' :: cs => do
    let n ← readMagnitude cs
    if n ≤ Text.signedBound then return -(n : Int) else .error .outOfRange
  | cs => do
    let n ← readMagnitude (if cs.head? = some '+' then cs.tail else cs)
    if n < Text.signedBound then return n else .error .outOfRange

/-- The units of a duration, in nanoseconds. -/
def durationUnits : List (String × Nat) :=
  [("ns", 1), ("us", 1000), ("µs", 1000), ("μs", 1000), ("ms", 1000000), ("s", 1000000000),
    ("m", 60000000000), ("h", 3600000000000)]

/-- What of a duration is being read: the digits before the point, the digits after it, and the
unit, each with the last character in front. -/
structure DurationPart where
  whole : List Char := []
  point : Bool := false
  fraction : List Char := []
  unit : List Char := []
  deriving DecidableEq, Repr

/-- The number that decimal digits stand for. -/
def decimal (digits : List Char) : Nat :=
  digits.foldl (fun n c => 10 * n + (c.toNat - '0'.toNat)) 0

/-- The length of a part of a duration, if it has digits and a known unit. -/
def DurationPart.length? (p : DurationPart) : Option Nat := do
  let unit ← durationUnits.lookup (String.ofList p.unit.reverse)
  if p.whole.isEmpty ∧ p.fraction.isEmpty then none
  else
    let fraction := decimal p.fraction.reverse * unit / Nat.pow 10 p.fraction.length
    return decimal p.whole.reverse * unit + fraction

/-- The length of a duration from the part that is being read on. -/
def readParts (p : DurationPart) : List Char → Option Nat
  | [] => p.length?
  | c :: cs =>
    if c.isDigit then
      if !p.unit.isEmpty then do
        let length ← p.length?
        let rest ← readParts { whole := [c] } cs
        return length + rest
      else if p.point then readParts { p with fraction := c :: p.fraction } cs
      else readParts { p with whole := c :: p.whole } cs
    else if c = '.' then
      if !p.unit.isEmpty then do
        let length ← p.length?
        let rest ← readParts { point := true } cs
        return length + rest
      else if p.point then none
      else readParts { p with point := true } cs
    else readParts { p with unit := c :: p.unit } cs

/-- Reads a duration in nanoseconds. -/
def readDuration (s : String) : Except ValueFault Int :=
  let (negative, cs) := match s.toList with
    | '-' :: cs => (true, cs)
    | '+' :: cs => (false, cs)
    | cs => (false, cs)
  if cs = ['0'] then .ok 0
  else
    match readParts {} cs with
    | none => .error .malformed
    | some n =>
      if negative then if n ≤ Text.signedBound then .ok (-(n : Int)) else .error .malformed
      else if n < Text.signedBound then .ok n else .error .malformed

/-- Checks a value for a flag. -/
def checkValue : ValueKind → String → Except ValueFault Unit
  | .text, _ => .ok ()
  | .truth, s => if (Text.readBool? s).isSome then .ok () else .error .malformed
  | .integer, s => (readInteger s).map fun _ => ()
  | .duration, s => (readDuration s).map fun _ => ()

/-! ## Arguments -/

/-- Why arguments are refused. -/
inductive UsageError
  | malformed (argument : String)
  | undefined (name : String)
  | needsArgument (name : String)
  | invalidTruth (name value : String) (fault : ValueFault)
  | invalidValue (name value : String) (fault : ValueFault)
  /-- Help is asked for. -/
  | help
  deriving DecidableEq, Repr

/-- The wording of an error. -/
def UsageError.message : UsageError → String
  | malformed argument => "bad flag syntax: " ++ argument ++ "\n"
  | undefined name => "flag provided but not defined: -" ++ name ++ "\n"
  | needsArgument name => "flag needs an argument: -" ++ name ++ "\n"
  | invalidTruth name value fault =>
    "invalid boolean value " ++ Text.quote value ++ " for -" ++ name ++ ": " ++
    fault.message ++ "\n"
  | invalidValue name value fault =>
    "invalid value " ++ Text.quote value ++ " for flag -" ++ name ++ ": " ++ fault.message ++ "\n"
  | help => ""

/-- The values given for flags, the last one in front. -/
abbrev Given := List (String × String)

/-- What an argument is: no flag, the end of the flags, a malformed flag, or a flag with a name and
perhaps a value. -/
inductive RunnerArgument
  | stop
  | malformed
  | flag (name : String) (value : Option String)
  deriving DecidableEq, Repr

/-- What an argument is. -/
def runnerArgument (argument : String) : RunnerArgument :=
  match argument.toList with
  | ['-', '-'] => .stop
  | '-' :: c :: cs =>
    match (if c = '-' then cs else c :: cs) with
    | [] => .malformed
    | first :: rest =>
      if first = '-' ∨ first = '=' then .malformed
      else
        let (more, value) := Options.cutAtEquals rest
        .flag (String.singleton first ++ more) value
  | _ => .stop

def readArguments (given : Given) : List String → Except UsageError Given
  | [] => .ok given
  | argument :: rest =>
    match runnerArgument argument with
    | .stop => .ok given
    | .malformed => .error (.malformed argument)
    | .flag name value =>
      match runnerFlags.find? fun f => f.name == name with
      | none => if name = "help" ∨ name = "h" then .error .help else .error (.undefined name)
      | some f =>
        if f.kind = .truth then
          let value := value.getD "true"
          match checkValue .truth value with
          | .error fault => .error (.invalidTruth name value fault)
          | .ok _ => readArguments ((name, value) :: given) rest
        else
          match value, rest with
          | some value, rest =>
            match checkValue f.kind value with
            | .error fault => .error (.invalidValue name value fault)
            | .ok _ => readArguments ((name, value) :: given) rest
          | none, [] => .error (.needsArgument name)
          | none, value :: rest =>
            match checkValue f.kind value with
            | .error fault => .error (.invalidValue name value fault)
            | .ok _ => readArguments ((name, value) :: given) rest

/-! ## Usage -/

/-- What a value of a flag is called. -/
def ValueKind.name : ValueKind → String
  | text => "string"
  | truth => ""
  | integer => "int"
  | duration => "duration"

/-- The entry of a flag on the usage page. -/
def RunnerFlag.entry (f : RunnerFlag) : String :=
  let heading := "  -" ++ f.name ++ (if f.kind = .truth then "" else " " ++ f.kind.name)
  let default :=
    if f.default = "" then ""
    else if f.kind = .text then " (default " ++ Text.quote f.default ++ ")"
    else " (default " ++ f.default ++ ")"
  heading ++ (if heading.utf8ByteSize ≤ 4 then "\t" else "\n    \t") ++ f.usage ++ default ++ "\n"

def usagePage : String :=
  "Usage of gtest:\n" ++ String.join (runnerFlags.map RunnerFlag.entry)

/-! ## Options -/

/-- The options of a run. -/
structure RunnerOptions where
  compiler : String
  compilerArguments : List String
  generate : String
  testFiles : String
  skipFiles : List String
  output : String
  /-- How long the compiler may take, in nanoseconds. -/
  timeout : Int
  native : Bool
  verbose : Bool
  /-- The directory of the expected results, empty for that of the source. -/
  directory : String
  ignored : List String
  deriving Repr

/-- The value of a flag. -/
def valueOf (given : Given) (name : String) : String :=
  match given.lookup name with
  | some v => v
  | none => ((runnerFlags.find? fun f => f.name == name).map RunnerFlag.default).getD ""

/-- The options that values for flags ask for. -/
def optionsOf (given : Given) : RunnerOptions :=
  { compiler := valueOf given "compiler"
    compilerArguments := Text.words (valueOf given "compiler-args")
    generate := valueOf given "generate-golden"
    testFiles := valueOf given "test-files"
    skipFiles := Text.words (valueOf given "skip-files")
    output := valueOf given "output"
    timeout := (readDuration (valueOf given "timeout")).toOption.getD 0
    native := Text.readBool? (valueOf given "native") = some true
    verbose := Text.readBool? (valueOf given "v") = some true
    directory := valueOf given "dir"
    ignored :=
      let list := valueOf given "ignore-lines"
      if list = "" then [] else list.splitOn "," }

/-- The options that arguments ask for. -/
def readOptions (arguments : List String) : Except UsageError RunnerOptions :=
  (readArguments [] arguments).map optionsOf

end ThreeAddress.Suite
