import ThreeAddress.Json.Value

/-!
# Results of tests

A test runs the compiler in several stages on a source file. The results are compared with expected
ones, which are kept in JSON, and so is the report of a whole run.
-/

namespace ThreeAddress.Suite

/-- What came of executing a command. -/
structure Execution where
  stdout : String := ""
  stderr : String := ""
  exitCode : Int := 0
  /-- The time it took, in nanoseconds. -/
  duration : Int := 0
  timedOut : Bool := false
  deriving DecidableEq, Repr

/-- A stage of a test. -/
structure StageRun where
  name : String := ""
  arguments : List String := []
  result : Execution := {}
  deriving DecidableEq, Repr

/-- The results of a source file with a digest; there may be no list of stages at all. -/
structure TargetResult where
  digest : String := ""
  stages : Option (List StageRun) := none
  deriving DecidableEq, Repr

/-- The first stage with a name. -/
def TargetResult.stage? (r : TargetResult) (name : String) : Option StageRun :=
  (r.stages.getD []).find? fun s => s.name == name

/-- What a test comes to. -/
inductive Status
  | pass
  | fail
  | skip
  | error
  deriving DecidableEq, Repr

/-- The word for a status. -/
def Status.name : Status → String
  | pass => "PASS"
  | fail => "FAIL"
  | skip => "SKIP"
  | error => "ERROR"

/-- The result of a test. -/
structure TestResult where
  file : String
  status : Status
  message : String
  difference : String := ""
  expected : Option TargetResult := none
  actual : Option TargetResult := none
  deriving DecidableEq, Repr

/-! ## Writing -/

def Execution.toJson (e : Execution) : JsonValue :=
  .object
    [("stdout", .string e.stdout), ("stderr", .string e.stderr), ("exitCode", .ofInt e.exitCode),
      ("duration", .ofInt e.duration), ("timed_out", .bool e.timedOut)]

def StageRun.toJson (s : StageRun) : JsonValue :=
  .object ([("name", .string s.name)] ++
    (if s.arguments.isEmpty then [] else [("args", .array (s.arguments.map .string))]) ++
    [("result", s.result.toJson)])

/-- The results of a source file in JSON. -/
def TargetResult.toJson (r : TargetResult) : JsonValue :=
  .object [("hash", .string r.digest),
    ("stages", match r.stages with
      | some stages => .array (stages.map StageRun.toJson)
      | none => .null)]

/-- The result of a test in JSON. -/
def TestResult.toJson (r : TestResult) : JsonValue :=
  let optional (name : String) (v : Option TargetResult) : List (String × JsonValue) :=
    (v.map fun v => (name, v.toJson)).toList
  .object ([("file", .string r.file), ("status", .string r.status.name)] ++
    (if r.message = "" then [] else [("message", .string r.message)]) ++
    (if r.difference = "" then [] else [("diff", .string r.difference)]) ++
    optional "golden" r.expected ++ optional "actual" r.actual)

/-- The report of a run in JSON, by file. -/
def reportJson (results : List TestResult) : JsonValue :=
  .object (results.map fun r => (r.file, r.toJson))

end ThreeAddress.Suite
