import ThreeAddress.Backend
import ThreeAddress.Code.Reachable
import ThreeAddress.Interaction
import ThreeAddress.Lowering.Program
import ThreeAddress.Machine
import ThreeAddress.Options.App
import ThreeAddress.Options.Switches
import ThreeAddress.Parser.Program
import ThreeAddress.Typing

/-!
# The compiler command

The command reads one source file, checks its types, lowers it, and then writes the code in an
output form or runs it. It stops at the first stage that fails, with status one.
-/

namespace ThreeAddress.Compiler

open Options

/-! ## Command line -/

/-- The plain flags of the command. -/
def plainFlags : List Flag :=
  [ .ofText "output" "o" ""
      "Place the output into <file> (default: stdout, or a.out for --emit=exe)." "file",
    .ofText "emit" "e" "tac" "Output kind: tac, qbe, llvm, asm or exe." "kind",
    .ofText "target" "t" "" "Set the QBE target ABI for asm and exe output." "target",
    .ofList "linker-arg" "L" [] "Pass an argument to the linker." "arg",
    .ofList "set" "s" [] "Seed a variable before --run (name=value)." "name=value",
    .ofTruth "dump-ast" "d" false "Dump the syntax tree and exit.",
    .ofTruth "run" "r" false "Interpret the generated code and print the final variable values.",
    .ofTruth "verbose" "v" false "Report each compilation stage on stderr.",
    .ofTruth "Wall" "" false "Enable all warnings.",
    .ofTruth "Wno-all" "" false "Disable all warnings." ]

/-- All flags of the command. -/
def flagSet : Except DefineFault FlagSet := do
  withSwitches (← ({} : FlagSet).defineAll plainFlags)

/-- The command as an application. -/
def app : App :=
  { name := "gtac"
    synopsis := "[options] <input.tl>"
    description := "Translates programs in a small imperative language into three-address code, " ++
      "with short-circuit boolean control flow, and lowers the result to QBE, LLVM IR, assembly " ++
      "or an executable."
    authors := ["xplshn"]
    repository := "<https://github.com/xplshn/gtac>"
    since := 2025
    flags := flagSet.toOption.getD {} }

/-- What the command is asked to do. -/
structure Request where
  settings : Settings
  output : String
  form : String
  target : String
  seeds : List String
  dump : Bool
  run : Bool
  verbose : Bool

/-- The text that a flag holds. -/
def textOf (fs : FlagSet) (name : String) : String :=
  match fs.value? name with
  | some (.text s) => s
  | _ => ""

/-- The list that a flag holds. -/
def listOf (fs : FlagSet) (name : String) : List String :=
  match fs.value? name with
  | some (.list l) => l
  | _ => []

/-- The settings that flags ask for: first those for all warnings, then the single switches. -/
def settingsOf (fs : FlagSet) : Settings :=
  let s : Settings := {}
  let s := if fs.isOn "Wall" then s.setAllWarnings true else s
  let s := if fs.isOn "Wno-all" then s.setAllWarnings false else s
  { applyGroups fs s with quiet := !fs.isOn "verbose" }

/-- What flags ask for. -/
def requestOf (fs : FlagSet) : Request :=
  { settings := settingsOf fs
    output := textOf fs "output"
    form := textOf fs "emit"
    target := textOf fs "target"
    seeds := listOf fs "set"
    dump := fs.isOn "dump-ast"
    run := fs.isOn "run"
    verbose := fs.isOn "verbose" }

/-! ## Messages -/

/-- Stops with a message that belongs to no place in the source. -/
def fatal (message : String) : Interaction :=
  .complain ("gtac: error: " ++ message ++ "\n") (.finish 1)

/-- Reports a stage, if that is asked for. -/
def stage (r : Request) (message : String) (next : Interaction) : Interaction :=
  if r.verbose then .complain (message ++ "\n") next else next

/-- The status of a run that met an incomplete tree or incomplete code. -/
def brokenStatus : Nat := 2

/-- Stops with a message at a token, or without a place if the token has none. -/
def stopAt (files : List SourceFile) (token : Token) (message : String) : Interaction :=
  if token.line > 0 then .complain (Diagnostic.error files token message) (.finish 1)
  else fatal message

/-- Stops because lowering has stopped. -/
def stopLowering (files : List SourceFile) : Stop → Interaction
  | .incomplete => .finish brokenStatus
  | .fault e => stopAt files e.token e.fault.message

/-! ## Running -/

/-- Why a variable cannot be given a first value. -/
inductive SeedFault
  | malformed (seed : String)
  | undeclared (name : String)
  | notTruth (name text : String)
  | notNumber (name text : String) (fault : Text.NumberFault)
  deriving DecidableEq, Repr

/-- The wording of a fault. -/
def SeedFault.message : SeedFault → String
  | malformed seed => "--set expects name=value, got '" ++ seed ++ "'"
  | undeclared name => "--set: '" ++ name ++ "' is not a declared variable"
  | notTruth name text => "--set " ++ name ++ ": want true or false, got '" ++ text ++ "'"
  | notNumber name text fault =>
    "--set " ++ name ++ ": strconv.ParseInt: parsing " ++ Text.quote text ++ ": " ++ fault.message

/-- The variable and the value of a seed. -/
def readSeed (p : Program) (seed : String) : Except SeedFault (String × Int64) :=
  match cutAtEquals seed.toList with
  | (_, none) => .error (.malformed seed)
  | (name, some text) =>
    match p.globalType? name with
    | none => .error (.undeclared name)
    | some .bool =>
      match Text.readBool? text with
      | some b => .ok (name, if b then 1 else 0)
      | none => .error (.notTruth name text)
    | some .num =>
      match Text.readInt64 text with
      | .ok v => .ok (name, v)
      | .error fault => .error (.notNumber name text fault)

/-- The values that seeds give to variables; a later seed wins. -/
def readSeeds (p : Program) (values : Bindings) : List String → Except SeedFault Bindings
  | [] => .ok values
  | seed :: seeds => do
    let (name, v) ← readSeed p seed
    readSeeds p (values.insert name v) seeds

/-- The lines that show the final values of variables. -/
def valueLines (p : Program) (values : Bindings) : String :=
  String.join (p.globals.map fun g =>
    g.1 ++ " = " ++ toString (values[g.1]?.getD 0).toInt ++ "\n")

/-- Runs a program and prints the final values of its variables. -/
def runProgram (r : Request) (p : Program) : Interaction :=
  match readSeeds p {} r.seeds with
  | .error fault => fatal fault.message
  | .ok values =>
    match run p.code values 0 false with
    | .finished result => .print (valueLines p result.globals) (.finish 0)
    | .stopped result => fatal ("run failed: " ++ stepLimitMessage result)
    | .rejected .incomplete | .failed _ _ .incomplete => .finish brokenStatus
    | .rejected fault => fatal ("run failed: " ++ fault.message)
    | .failed index instr fault => fatal ("run failed: " ++ runFailure index instr fault)

/-! ## Output -/

def writeOutput (path text : String) : Interaction :=
  if path = "" then .print text (.finish 0)
  else .writeFile path text fun
    | .ok _ => .finish 0
    | .error _ => .finish 1

/-- The system and the processor of the host. -/
def host : String × String := ("linux", "amd64")

/-- Whether an output form is made for a target machine. -/
def needsTarget (form : String) : Bool := form = "asm" || form = "exe"

/-- Writes a program in an output form. -/
def emitProgram (r : Request) (p : Program) : Interaction :=
  match Backend.ofName? r.form with
  | none => fatal (EmitFault.unknownBackend r.form).message
  | some backend =>
    let (settings, messages) :=
      if needsTarget r.form then r.settings.setTarget host.1 host.2 r.target else (r.settings, "")
    .complain messages <|
      stage r ("Generating code with '" ++ r.form ++ "' backend...") <|
        match backend.emit settings p with
        | .ok text => writeOutput r.output text
        | .error .incomplete => .finish brokenStatus
        | .error fault => fatal ("backend code generation failed: " ++ fault.message)

/-! ## Stages -/

/-- What is reported about the size of a program, if all its jumps have a target. -/
def sizeReport? (p : Program) : Option String :=
  match reachable p.code with
  | .ok seen =>
    some (toString p.code.length ++ " instructions (" ++ toString (seen.countP id) ++
      " reachable), " ++ toString p.temps ++ " temporaries, " ++ toString p.labels ++ " labels")
  | .error _ => none

/-- Lowers a tree and writes the listing as it is made, so that the part made before a fault is
written too. -/
def streamListing (r : Request) (files : List SourceFile) (t : Tree) : Interaction :=
  let lowered := lower r.settings t (({} : LowerState).into ({} : Stream))
  let text := lowered.state.sink.text
  let rest : Interaction := .complain (Note.report r.settings files lowered.notes) <|
    match lowered.outcome with
    | .ok _ => .finish 0
    | .error stop => stopLowering files stop
  if r.output = "" then .print text rest
  else .writeFile r.output text fun
    | .ok _ => rest
    | .error e => fatal ("could not create '" ++ r.output ++ "': " ++ e.message)

/-- Lowers a tree and then runs the program or writes it in an output form. -/
def lowerTree (r : Request) (files : List SourceFile) (t : Tree) : Interaction :=
  stage r "Generating three-address code..." <|
    if r.form = "tac" ∧ !r.run then streamListing r files t
    else
      let g := generate r.settings {} t
      .complain (Note.report r.settings files g.notes) <|
        match g.outcome with
        | .error (.stopped stop) => stopLowering files stop
        | .error (.unverified fault) =>
          fatal ("generated code failed verification: " ++ fault.message)
        | .ok p =>
          let next := if r.run then stage r "Running..." (runProgram r p) else emitProgram r p
          match sizeReport? p with
          | some report => stage r report next
          | none => next

/-- Checks the types of a tree, if that is asked for, and lowers it. -/
def checkTree (r : Request) (files : List SourceFile) (t : Tree) : Interaction :=
  if r.settings.feature .typeCheck then
    stage r "Type checking..." <|
      match Typing.check t with
      | none => .finish brokenStatus
      | some [] => lowerTree r files t
      | some errors => .complain (Typing.report files errors) (.finish 1)
  else lowerTree r files t

/-- Compiles a source text with a name. -/
def compileSource (r : Request) (name : String) (source : List Char) : Interaction :=
  let files : List SourceFile := [⟨name, source⟩]
  match Tree.ofSource r.settings 0 source with
  | .error e => .complain (Diagnostic.error files e.token e.message) (.finish 1)
  | .ok t => if r.dump then .print t.dump (.finish 0) else checkTree r files t

/-- Compiles the file at a path; a hyphen stands for the input. -/
def compileFile (r : Request) (path : String) : Interaction :=
  stage r ("Reading " ++ path ++ "...") <|
    if path = "-" then .readInput (compileSource r "<stdin>")
    else .readFile path fun
      | .ok source => compileSource r path source
      | .error e => fatal ("could not read file '" ++ path ++ "': " ++ e.message)

/-- The command, given its arguments. -/
def command (arguments : List String) : Interaction :=
  match app.launch arguments with
  | (_, .clash _) => .finish brokenStatus
  | (_, .refused _ page) => .complain page (.finish 1)
  | (_, .help page) => .print page (.finish 0)
  | (a, .action [path]) => compileFile (requestOf a.flags) path
  | (_, .action paths) =>
    fatal ("expected exactly one input file, got " ++ toString paths.length)

end ThreeAddress.Compiler
