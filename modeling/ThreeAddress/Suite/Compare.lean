import ThreeAddress.Suite.Result
import ThreeAddress.Text.Search

/-!
# Comparing results

Two executions agree when they agree in whether they timed out, in the exit code, and in both
outputs after the lines that are to be ignored have been removed.
-/

namespace ThreeAddress.Suite

/-- The names of the stages that are compared, and the arguments that the compiler gets in them. -/
def stages : List (String × List String) :=
  [("tac", ["--emit", "tac"]), ("run", ["--run"])]

/-- Whether a line is to be ignored. -/
def isIgnored (ignored : List String) (line : String) : Bool :=
  ignored.any fun part => part != "" && Text.contains line part

/-- A text without the lines that are to be ignored. -/
def filterLines (ignored : List String) (text : String) : String :=
  if ignored.isEmpty || text = "" then text
  else "\n".intercalate ((text.splitOn "\n").filter fun line => !isIgnored ignored line)

/-- How two texts differ. -/
def textDifference (expected actual : String) : String :=
  "  string(\n- \t" ++ Text.quote expected ++ ",\n+ \t" ++ Text.quote actual ++ ",\n  )\n"

/-- The lines that tell about two values that differ. -/
def valueDifference (stage what expected actual : String) : String :=
  "Stage '" ++ stage ++ "' " ++ what ++ " mismatch:\n  - Golden: " ++ expected ++
    "\n  - Actual: " ++ actual ++ "\n"

def truthText (b : Bool) : String := if b then "true" else "false"

/-- How two executions differ; the text is empty if they agree. -/
def executionDifference (stage : String) (ignored : List String) (expected actual : Execution) :
    String :=
  (if expected.timedOut = actual.timedOut then ""
    else valueDifference stage "timeout" (truthText expected.timedOut)
      (truthText actual.timedOut)) ++
  (if expected.exitCode = actual.exitCode then ""
    else valueDifference stage "exit code" (toString expected.exitCode)
      (toString actual.exitCode)) ++
  (if filterLines ignored expected.stdout = filterLines ignored actual.stdout then ""
    else "Stage '" ++ stage ++ "' STDOUT mismatch:\n" ++
      textDifference expected.stdout actual.stdout) ++
  (if filterLines ignored expected.stderr = filterLines ignored actual.stderr then ""
    else "Stage '" ++ stage ++ "' STDERR mismatch:\n" ++
      textDifference expected.stderr actual.stderr)

/-- How the results differ in a stage; what was not expected is not compared. -/
def stageDifference (ignored : List String) (expected actual : TargetResult) (stage : String) :
    String :=
  match expected.stage? stage with
  | none => ""
  | some e =>
    match actual.stage? stage with
    | none => "Stage '" ++ stage ++ "' missing in actual results.\n"
    | some a => executionDifference stage ignored e.result a.result

/-- How an executable differs from the interpreter: it must be built whenever the interpreter
succeeds, and print the same. -/
def nativeDifference (ignored : List String) (actual : TargetResult) : String :=
  let run := ((actual.stage? "run").map StageRun.result).getD {}
  (match actual.stage? "build" with
    | some build =>
      if build.result.exitCode ≠ 0 ∧ run.exitCode = 0 then
        "Native build failed:\n" ++ build.result.stderr ++ "\n"
      else ""
    | none => "") ++
  (match actual.stage? "native" with
    | some native =>
      let expected := filterLines ignored run.stdout
      let actual := filterLines ignored native.result.stdout
      if expected = actual then ""
      else "Native output differs from interpreter:\n" ++ textDifference expected actual
    | none => "")

/-- Compares results with expected ones. -/
def compareResults (ignored : List String) (native : Bool) (file : String)
    (expected actual : TargetResult) : TestResult :=
  let difference := String.join (stages.map fun s => stageDifference ignored expected actual s.1) ++
    (if native then nativeDifference ignored actual else "")
  if difference = "" then
    { file, status := .pass, message := "All stages matched", expected := some expected,
      actual := some actual }
  else
    { file, status := .fail, message := "Output or exit code mismatch", difference,
      expected := some expected, actual := some actual }

end ThreeAddress.Suite
