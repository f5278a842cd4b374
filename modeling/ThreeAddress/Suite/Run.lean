import ThreeAddress.Compiler
import ThreeAddress.Digest
import ThreeAddress.Files.Pattern
import ThreeAddress.Suite.Compare
import ThreeAddress.Suite.Options
import ThreeAddress.Suite.Stored
import ThreeAddress.Suite.Summary

/-!
# Running tests

The runner expands the patterns for source files, runs the compiler on each file in several stages,
and either writes the results as expected ones or compares them with expected ones and writes a
report. Where a file has no expected results, its entry in the last report stands in for them, if it
passed with the same content. Files with the content of an earlier one are skipped.
-/

namespace ThreeAddress.Suite

/-- What a run of the tests works with. -/
structure Setting where
  options : RunnerOptions
  /-- The working directory. -/
  directory : Location
  /-- The directory in which executables are built. -/
  scratch : String

/-- What a run of the tests has done so far. -/
structure RunState where
  files : Files
  stdout : String := ""
  stderr : String := ""

/-- A step of a run of the tests. -/
abbrev Run := StateM RunState

/-- Prints to the standard output. -/
def say (text : String) : Run Unit := modify fun w => { w with stdout := w.stdout ++ text }

/-- Prints to the standard error output. -/
def log (text : String) : Run Unit := modify fun w => { w with stderr := w.stderr ++ text }

def logError (text : String) : Run Unit := log (red "[ERROR]" ++ " " ++ text ++ "\n")

def logWarning (text : String) : Run Unit := log (yellow "[WARN]" ++ " " ++ text ++ "\n")

def writeFile (s : Setting) (path content : String) : Run (Except FileError Unit) := do
  match (← get).files.write s.directory path content with
  | .ok files => do
    modify fun w => { w with files }
    return .ok ()
  | .error e => return .error e

/-- Makes a directory and the directories on the way to it. -/
def makeDirectory (s : Setting) (path : String) : Run (Except FileError Unit) := do
  match (← get).files.makeDirectory s.directory path with
  | .ok files => do
    modify fun w => { w with files }
    return .ok ()
  | .error e => return .error e

/-! ## Files -/

/-- A pattern that is not well formed. -/
structure PatternFault where
  pattern : String

/-- The wording of a fault. -/
def PatternFault.message (f : PatternFault) : String :=
  "bad pattern " ++ f.pattern ++ ": syntax error in pattern"

/-- Adds the files among paths that have not been found before. -/
def addFiles (fs : Files) (directory : Location) (found : List String) : List String → List String
  | [] => found
  | path :: paths =>
    let path := Path.absolute directory path
    let isFile := match fs.stat directory path with
      | .ok (.file _) | .ok .compiler => true
      | _ => false
    addFiles fs directory
      (if isFile && !found.contains path then found ++ [path] else found) paths

/-- The files that match patterns, each once, in the order of the patterns. -/
def expandPatterns (fs : Files) (directory : Location) (found : List String) :
    List String → Except PatternFault (List String)
  | [] => .ok found
  | pattern :: patterns =>
    match Pattern.expand? fs directory pattern with
    | none => .error ⟨pattern⟩
    | some paths => expandPatterns fs directory (addFiles fs directory found paths) patterns

/-- The path of the expected results of a source file. -/
def expectedPath (o : RunnerOptions) (file : String) : String :=
  Path.join (if o.directory = "" then Path.directory file else o.directory)
    ("." ++ Path.base file ++ ".json")

def reportPath (o : RunnerOptions) : String :=
  if o.directory = "" then o.output else Path.join o.directory o.output

/-! ## Stages -/

/-- The shortest time in which the compiler can be started, in nanoseconds. -/
def startTime : Int := 1000000

/-- Why a command cannot be executed; none if it is the compiler. -/
def commandFault? (fs : Files) (directory : Location) (command : String) : Option String :=
  if command = "" then some "exec: no command"
  else if !command.contains '/' then
    some ("exec: " ++ Text.quote command ++ ": executable file not found in $PATH")
  else
    match fs.stat directory command with
    | .ok .compiler => none
    | .ok _ => some ("fork/exec " ++ command ++ ": permission denied")
    | .error f => some ("fork/exec " ++ command ++ ": " ++ f.message)

/-- Executes the compiler with arguments. -/
def execute (s : Setting) (arguments : List String) : Run Execution := do
  let w ← get
  if s.options.timeout < startTime then return { exitCode := -1, timedOut := true }
  else
    match commandFault? w.files s.directory s.options.compiler with
    | some fault => return { exitCode := -2, stderr := "\nExecution error: " ++ fault }
    | none => do
      let t := (Compiler.command arguments).carryOut s.directory [] w.files
      set { w with files := t.files }
      return { stdout := t.stdout, stderr := t.stderr, exitCode := t.status }

/-- Runs stages on a file. -/
def runEach (s : Setting) (file : String) : List (String × List String) → Run (List StageRun)
  | [] => return []
  | (name, arguments) :: rest => do
    let arguments := arguments ++ s.options.compilerArguments ++ [file]
    let result ← execute s arguments
    let more ← runEach s file rest
    return { name, arguments, result } :: more

/-- Runs all stages on a file with a digest. -/
def runStages (s : Setting) (file digest : String) : Run TargetResult := do
  let plan := if s.options.native then
      stages ++ [("build", ["--emit", "exe", "-o", Path.join s.scratch digest])]
    else stages
  let results ← runEach s file plan
  return { digest, stages := some results }

/-! ## Expected results -/

/-- Writes the results of files as expected ones. -/
def generateEach (s : Setting) : List String → Run Unit
  | [] => return ()
  | file :: files => do
    match (← get).files.read s.directory file with
    | .error e => logError ("Could not hash " ++ file ++ ": " ++ e.message)
    | .ok content => do
      let result ← runStages s file (Digest.ofText content)
      let path := expectedPath s.options file
      match ← writeFile s path result.toJson.text with
      | .ok _ => say (green "[OK]" ++ " Golden file written to " ++ path ++ "\n")
      | .error e => logError ("Failed to write golden file " ++ path ++ ": " ++ e.message)
    generateEach s files

/-- Makes the directory of the expected results, if one is given. -/
def makeExpectedDirectory (s : Setting) : Run Bool := do
  if s.options.directory = "" then return true
  else
    match ← makeDirectory s s.options.directory with
    | .ok _ => return true
    | .error e => do
      logError ("Failed to create dir " ++ s.options.directory ++ ": " ++ e.message)
      return false

/-- Writes expected results, and returns the status of the command. -/
def generateExpected (s : Setting) : Run Nat := do
  let fs := (← get).files
  match expandPatterns fs s.directory [] (Text.words s.options.generate) with
  | .error f => do
    logError f.message
    return 1
  | .ok [] => do
    logError ("No files match " ++ Text.quote s.options.generate)
    return 1
  | .ok files => do
    if ← makeExpectedDirectory s then
      generateEach s files
      return 0
    else return 1

/-! ## Tests -/

/-- The expected results of a file with a digest, or what the test comes to without them. -/
def expectedResults (s : Setting) (earlier : Report) (file digest : String) :
    Run (Except TestResult TargetResult) := do
  let path := expectedPath s.options file
  match (← get).files.read s.directory path with
  | .ok text =>
    match parseTarget text with
    | .ok expected => return .ok expected
    | .error f =>
      let message := "could not parse golden file " ++ path ++ ": " ++ f.message
      return .error { file, status := .error, message }
  | .error e =>
    if e.fault = .missing then
      match earlier.lookup file with
      | some ⟨"PASS", some actual⟩ =>
        if actual.digest = digest then do
          if s.options.verbose then
            log ("[" ++ file ++ "] No golden file, comparing against the previous report\n")
          return .ok actual
        else return .error (missing file)
      | _ => return .error (missing file)
    else return .error { file, status := .error, message := e.message }
where
  missing (file : String) : TestResult :=
    { file, status := .skip
      message := "No golden file and no previous passing result for this content" }

def testFile (s : Setting) (earlier : Report) (file digest : String) : Run TestResult := do
  match ← expectedResults s earlier file digest with
  | .error result => return result
  | .ok expected => do
    let actual ← runStages s file digest
    let result := compareResults s.options.ignored s.options.native file expected actual
    if expected.digest ≠ "" ∧ expected.digest ≠ digest ∧ result.status = .pass then
      return { result with
        message := result.message ++ " (source changed since the golden file was written)" }
    else return result

/-- Tests files, given the digests of those tested before. -/
def testEach (s : Setting) (earlier : Report) (skipped : List String)
    (seen : List (String × String)) : List String → Run (List TestResult)
  | [] => return []
  | file :: files => do
    if skipped.contains file then
      let rest ← testEach s earlier skipped seen files
      return { file, status := .skip, message := "Explicitly skipped" } :: rest
    else
      match (← get).files.read s.directory file with
      | .error e => do
        let rest ← testEach s earlier skipped seen files
        return { file, status := .error
                 message := "Failed to read file for hashing: " ++ e.message } :: rest
      | .ok content => do
        let digest := Digest.ofText content
        match seen.lookup digest with
        | some first => do
          let rest ← testEach s earlier skipped seen files
          return { file, status := .skip, message := "Content is identical to " ++ first } :: rest
        | none => do
          let result ← testFile s earlier file digest
          let rest ← testEach s earlier skipped ((digest, file) :: seen) files
          return result :: rest

/-- The last report, if there is one that can be read. -/
def earlierReport (s : Setting) : Run Report := do
  let path := reportPath s.options
  match (← get).files.read s.directory path with
  | .error _ => return []
  | .ok text =>
    match parseReport text with
    | .ok report => return report
    | .error _ => do
      logWarning ("Could not parse previous report " ++ path ++
        ". It will not be used as a fallback.")
      return []

def writeReport (s : Setting) (results : List TestResult) : Run Unit := do
  let _ ← makeExpectedDirectory s
  let path := reportPath s.options
  match ← writeFile s path (reportJson results).text with
  | .ok _ => say ("Full test report saved to " ++ path ++ "\n")
  | .error e => logError ("Failed to write JSON report to " ++ path ++ ": " ++ e.message)

/-- Runs the tests, and returns the status of the command. -/
def runTests (s : Setting) : Run Nat := do
  let fs := (← get).files
  match expandPatterns fs s.directory [] (Text.words s.options.testFiles) with
  | .error f => do
    logError f.message
    return 1
  | .ok [] => do
    logWarning ("No test files found matching pattern(s): " ++ s.options.testFiles)
    return 0
  | .ok files => do
    let earlier ← earlierReport s
    let skipped := s.options.skipFiles.map (Path.absolute s.directory)
    let results ← testEach s earlier skipped [] files
    let results := results.mergeSort fun a b => decide (a.file ≤ b.file)
    say (summary s.options.verbose (Path.base s.options.compiler) results)
    writeReport s results
    return if results.any fun r => r.status = .fail || r.status = .error then 1 else 0

/-- The command that runs the tests, on a directory tree, from a working directory and with a
directory for executables. -/
def command (directory : Location) (scratch : String) (arguments : List String) (files : Files) :
    Transcript :=
  match readOptions arguments with
  | .error e => ⟨if e = .help then 0 else 2, "", e.message ++ usagePage, files⟩
  | .ok options =>
    let s : Setting := { options, directory, scratch }
    let (status, w) := (if options.generate = "" then runTests s else generateExpected s) { files }
    ⟨status, w.stdout, w.stderr, w.files⟩

end ThreeAddress.Suite
