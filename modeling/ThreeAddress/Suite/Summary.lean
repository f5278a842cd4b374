import ThreeAddress.Suite.Result
import ThreeAddress.Text.Words

/-!
# Summaries of test runs
-/

namespace ThreeAddress.Suite

/-! ## Colours -/

def red (s : String) : String := "\x1b[91m" ++ s ++ "\x1b[0m"

def yellow (s : String) : String := "\x1b[93m" ++ s ++ "\x1b[0m"

def green (s : String) : String := "\x1b[92m" ++ s ++ "\x1b[0m"

def cyan (s : String) : String := "\x1b[96m" ++ s ++ "\x1b[0m"

def bold (s : String) : String := "\x1b[1m" ++ s ++ "\x1b[0m"

/-- The colour of a status. -/
def Status.paint : Status → String → String
  | pass => green
  | fail | error => red
  | skip => yellow

/-! ## Durations -/

/-- A text filled up with spaces on the left. -/
def padLeft (width : Nat) (s : String) : String :=
  String.ofList (List.replicate (width - s.length) ' ') ++ s

def stageTime (nanoseconds : Int) : String :=
  if nanoseconds < 1000000 then padLeft 6 (toString (nanoseconds.tdiv 1000)) ++ "µs"
  else padLeft 6 (toString (nanoseconds.tdiv 1000000)) ++ "ms"

/-- Nanoseconds as seconds, without zeros at the end of the fraction. -/
def seconds (nanoseconds : Nat) : String :=
  let fraction := toString (1000000000 + nanoseconds % 1000000000)
  let digits := ((fraction.toList.drop 1).reverse.dropWhile (· = '0')).reverse
  toString (nanoseconds / 1000000000) ++
    (if digits.isEmpty then "" else "." ++ String.ofList digits) ++ "s"

/-! ## Pages -/

/-- A line between tests. -/
def rule : String := "----------------------------------------------------------------------\n"

/-- How a line of a difference is shown: in the colour of its sign. -/
def differenceLine (line : String) : String :=
  let colour := match line.toList.dropWhile Text.isBlank with
    | '-' :: _ => "\x1b[91m"
    | '+' :: _ => "\x1b[92m"
    | _ => ""
  colour ++ "    " ++ line ++ "\x1b[0m\n"

/-- How a difference is shown. -/
def differencePart (difference : String) : String :=
  if difference = "" then ""
  else "    --- Diff ---\n" ++ String.join ((difference.splitOn "\n").map differenceLine)

def stageLine (s : StageRun) : String :=
  "    " ++ Text.padRight 8 s.name ++ " exit " ++ Text.padRight 3
    (toString s.result.exitCode) ++ " " ++ stageTime s.result.duration ++ "\n"

/-- The part of the summary about a test. -/
def testPart (verbose : Bool) (r : TestResult) : String :=
  rule ++ "Testing " ++ cyan r.file ++ "...\n" ++
    "  [" ++ r.status.paint r.status.name ++ "] " ++ r.message ++ "\n" ++
    (if r.status = .fail then differencePart r.difference ++ "\n" else "") ++
    (if verbose then
      String.join (((r.actual.bind TargetResult.stages).getD []).map stageLine) else "")

/-- How many tests have a status. -/
def countOf (results : List TestResult) (s : Status) : String :=
  toString (results.countP fun r => r.status = s)

/-- The time that the stages of all tests took. -/
def totalTime (results : List TestResult) : Int :=
  let stages := results.flatMap fun r => (r.actual.bind TargetResult.stages).getD []
  stages.foldl (fun total s => total + s.result.duration) 0

/-- The summary of a test run. -/
def summary (verbose : Bool) (compiler : String) (results : List TestResult) : String :=
  String.join (results.map (testPart verbose)) ++ rule ++ bold "Test Summary:" ++ " " ++
    green (countOf results .pass ++ " Passed") ++ ", " ++
    red (countOf results .fail ++ " Failed") ++ ", " ++
    yellow (countOf results .skip ++ " Skipped") ++ ", " ++
    red (countOf results .error ++ " Errored") ++ ", " ++ toString results.length ++ " Total\n" ++
    (if verbose then
      "Time spent in " ++ compiler ++ ": " ++ seconds (totalTime results).toNat ++ "\n" else "")

end ThreeAddress.Suite
