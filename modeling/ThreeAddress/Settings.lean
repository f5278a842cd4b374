/-!
# Settings

Features change what is read and generated; warnings change what is reported. Both are switched on
and off by name: `-F<name>` and `-Fno-<name>` for features, `-W<name>` and `-Wno-<name>` for
warnings, and `-Wall` and `-Wno-all` for all warnings at once. The settings also name the machine
that assembly output is meant for.
-/

namespace ThreeAddress

/-- What can be switched on and off in reading and generating. -/
inductive Feature
  | lineComments
  | blockComments
  | switchStatements
  | elideSelfCopies
  | verifyLabels
  | typeCheck
  deriving DecidableEq, Repr

namespace Feature

/-- The features in the order of their numbers. -/
def table : List Feature :=
  [lineComments, blockComments, switchStatements, elideSelfCopies, verifyLabels, typeCheck]

/-- The feature with a number, if there is one. -/
def ofNumber? (n : Int) : Option Feature :=
  if n < 0 then none else table[n.toNat]?

/-- The name of a feature in switches. -/
def name : Feature → String
  | lineComments => "c-comments"
  | blockComments => "block-comments"
  | switchStatements => "switch"
  | elideSelfCopies => "elide-self-copy"
  | verifyLabels => "verify"
  | typeCheck => "type-check"

/-- What a feature does, for help pages. -/
def description : Feature → String
  | lineComments => "Recognize C-style '//' line comments."
  | blockComments => "Recognize '/* ... */' block comments."
  | switchStatements => "Allow switch statements."
  | elideSelfCopies => "Drop assignments of a variable to itself."
  | verifyLabels => "Check that every jump target is marked exactly once after generation."
  | typeCheck => "Report every type error before generating code."

/-- The feature with a name, if there is one. -/
def ofName? (s : String) : Option Feature :=
  table.find? fun f => f.name == s

end Feature

/-- What can be reported although it is no error. -/
inductive Warning
  | redeclared
  | unused
  | constantCondition
  | unreachableCode
  | extra
  deriving DecidableEq, Repr

namespace Warning

/-- The warnings in the order of their numbers. -/
def table : List Warning :=
  [redeclared, unused, constantCondition, unreachableCode, extra]

/-- The warning with a number, if there is one. -/
def ofNumber? (n : Int) : Option Warning :=
  if n < 0 then none else table[n.toNat]?

/-- The name of a warning in switches. -/
def name : Warning → String
  | redeclared => "redeclared"
  | unused => "unused"
  | constantCondition => "const-cond"
  | unreachableCode => "unreachable-code"
  | extra => "extra"

/-- What a warning is about, for help pages. -/
def description : Warning → String
  | redeclared => "Warn when a variable is declared twice with the same type."
  | unused => "Warn about declared variables that are never referenced."
  | constantCondition => "Warn about if/while conditions that are a boolean literal."
  | unreachableCode => "Warn about code that will never be executed."
  | extra => "Enable extra miscellaneous warnings."

/-- The warning with a name, if there is one. -/
def ofName? (s : String) : Option Warning :=
  table.find? fun w => w.name == s

end Warning

/-- The settings of a compilation. -/
structure Settings where
  /-- Which features are on. -/
  feature : Feature → Bool := fun _ => true
  /-- Which warnings are on. -/
  warning : Warning → Bool := fun w => w != .constantCondition
  /-- The operating system of the host. -/
  system : String := ""
  /-- The processor of the host. -/
  processor : String := ""
  /-- The machine that assembly output is for. -/
  target : String := ""
  /-- Whether informational messages are held back. -/
  quiet : Bool := false

namespace Settings

instance : Inhabited Settings := ⟨{}⟩

/-- The settings with one feature switched. -/
def setFeature (s : Settings) (f : Feature) (on : Bool) : Settings :=
  { s with feature := fun g => if g = f then on else s.feature g }

/-- The settings with one warning switched. -/
def setWarning (s : Settings) (w : Warning) (on : Bool) : Settings :=
  { s with warning := fun v => if v = w then on else s.warning v }

/-- The settings with all warnings switched. -/
def setAllWarnings (s : Settings) (on : Bool) : Settings :=
  { s with warning := fun _ => on }

/-- Removes a leading `no-` and tells whether there was none, that is, whether the switch turns its
name on. -/
def splitNegation : List Char → List Char × Bool
  | 'n' :: 'o' :: '-' :: name => (name, false)
  | name => (name, true)

/-- The settings after a switch such as `-Wunused` or `-Fno-switch`, whose hyphen may be missing;
none if the switch names nothing. -/
def applySwitch? (s : Settings) (switch : String) : Option Settings :=
  let body := match switch.toList with
    | '-' :: cs => cs
    | cs => cs
  match body with
  | kind :: rest =>
    let (name, on) := splitNegation rest
    let name := String.ofList name
    if kind = 'W' then
      if name = "all" then some (s.setAllWarnings on)
      else (Warning.ofName? name).map fun w => s.setWarning w on
    else if kind = 'F' then (Feature.ofName? name).map fun f => s.setFeature f on
    else none
  | [] => none

/-- The settings after a list of switches, of which those that name nothing are passed over. -/
def applySwitches (s : Settings) (switches : List String) : Settings :=
  switches.foldl (fun s sw => (s.applySwitch? sw).getD s) s

/-! ## The target machine -/

/-- The targets that the assembler knows. -/
def knownTargets : List String :=
  ["amd64_sysv", "amd64_apple", "arm64", "arm64_apple", "rv64"]

/-- The target of a host. -/
def defaultTarget (system processor : String) : String :=
  if system = "darwin" ∧ processor = "amd64" then "amd64_apple"
  else if system = "darwin" ∧ processor = "arm64" then "arm64_apple"
  else if (system = "freebsd" ∨ system = "linux") ∧ processor = "arm64" then "arm64"
  else if system = "linux" ∧ processor = "riscv64" then "rv64"
  else "amd64_sysv"

/-- Chooses the target, the host's own when none is given, and returns the messages about it. -/
def setTarget (s : Settings) (system processor target : String) : Settings × String :=
  let chosen := if target = "" then defaultTarget system processor else target
  let info :=
    if s.quiet then ""
    else if target = "" then
      "gtac: info: no target specified, defaulting to host target '" ++ chosen ++ "'\n"
    else "gtac: info: using specified target '" ++ chosen ++ "'\n"
  let warning :=
    if knownTargets.contains chosen then ""
    else "gtac: warning: unrecognized or unsupported QBE target '" ++ chosen ++ "'.\n"
  ({ s with system, processor, target := chosen }, info ++ warning)

end Settings

end ThreeAddress
