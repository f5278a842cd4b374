import ThreeAddress.Json.Reader
import ThreeAddress.Suite.Result
import ThreeAddress.Text.Decimal

/-!
# Stored results

Expected results and the report of an earlier run are read leniently: fields may be missing,
unknown, null, or in another case, and a field that is given twice is read into what was there
before. A value of a wrong kind is an error, and the first one is reported.

A list that is read into a longer one keeps the items that it leaves behind: a third reading that is
longer again finds them in their places. So while results are read, every list carries the items
left behind, and they are dropped at the end.
-/

namespace ThreeAddress.Suite

/-! ## Faults -/

/-- A value of a wrong kind. -/
structure KindFault where
  found : String
  /-- The type of record that it was found in, and the fields on the way to it. -/
  record : String
  path : List String
  wanted : String
  deriving DecidableEq, Repr

/-- The wording of a fault. -/
def KindFault.message (f : KindFault) : String :=
  "json: cannot unmarshal " ++ f.found ++ " into Go " ++
    (if f.path.isEmpty then "value"
      else "struct field " ++ f.record ++ "." ++ ".".intercalate f.path) ++
    " of type " ++ f.wanted

/-- Where in a document a value stands. -/
structure Place where
  record : String := ""
  path : List String := []
  deriving DecidableEq, Repr

/-- The place of a field of a record. -/
def Place.field (p : Place) (record name : String) : Place := ⟨record, p.path ++ [name]⟩

/-- Something read, with the faults met. -/
structure Read (α : Type) where
  value : α
  faults : List KindFault := []

/-- A value of a wrong kind, which changes nothing. -/
def Read.fault {α : Type} (p : Place) (before : α) (found wanted : String) : Read α :=
  ⟨before, [⟨found, p.record, p.path, wanted⟩]⟩

/-! ## Single values -/

def readText (p : Place) (before : String) : JsonValue → Read String
  | .null => ⟨before, []⟩
  | .string s => ⟨s, []⟩
  | v => .fault p before v.kind "string"

def readTruth (p : Place) (before : Bool) : JsonValue → Read Bool
  | .null => ⟨before, []⟩
  | .bool b => ⟨b, []⟩
  | v => .fault p before v.kind "bool"

/-- Reads an integer; `wanted` is what its type is called. -/
def readNumber (p : Place) (wanted : String) (before : Int) : JsonValue → Read Int
  | .null => ⟨before, []⟩
  | .number text =>
    match Text.readInt64 text with
    | .ok n => ⟨n.toInt, []⟩
    | .error _ => .fault p before ("number " ++ text) wanted
  | v => .fault p before v.kind wanted

/-! ## Lists -/

/-- A list while it is read: its items, and the items that a longer list has left behind them. -/
structure Slots (α : Type) where
  items : List α := []
  behind : List α := []
  deriving DecidableEq, Repr

/-- Reads items into those in their places; what is left of these stays behind. -/
def readItems {α : Type} (read : α → JsonValue → Read α) (empty : α) :
    List α → List JsonValue → Read (Slots α)
  | before, [] => ⟨⟨[], before⟩, []⟩
  | before, v :: vs =>
    let item := read (before.headD empty) v
    let rest := readItems read empty before.tail vs
    ⟨⟨item.value :: rest.value.items, rest.value.behind⟩, item.faults ++ rest.faults⟩

/-- Reads a list. An empty list leaves nothing behind. -/
def Slots.read {α : Type} (read : α → JsonValue → Read α) (empty : α) (before : Slots α)
    (items : List JsonValue) : Read (Slots α) :=
  if items.isEmpty then ⟨{}, []⟩ else readItems read empty (before.items ++ before.behind) items

/-! ## Records -/

/-- A character without regard to case: two letters outside of ASCII count as the ones they look
like. -/
def foldChar (c : Char) : Char :=
  if 'A' ≤ c ∧ c ≤ 'Z' then c.toLower
  else if c.toNat = 0x17f then 's'
  else if c.toNat = 0x212a then 'k'
  else c

/-- A name without regard to case. -/
def foldName (s : String) : String := String.ofList (s.toList.map foldChar)

/-- Reads the fields of a record one after the other. -/
def readFields {α : Type} (read : α → String → JsonValue → Read α) :
    α → List (String × JsonValue) → Read α
  | before, [] => ⟨before, []⟩
  | before, (name, v) :: rest =>
    let first := read before (foldName name) v
    let more := readFields read first.value rest
    ⟨more.value, first.faults ++ more.faults⟩

/-- Puts what was read into a larger value. -/
def Read.into {α β : Type} (r : Read α) (f : α → β) : Read β := ⟨f r.value, r.faults⟩

def Execution.read (p : Place) (before : Execution) : JsonValue → Read Execution
  | .null => ⟨before, []⟩
  | .object fields =>
    readFields (fun (e : Execution) name v =>
      let under (field : String) : Place := p.field "Execution" field
      match name with
      | "stdout" => (readText (under "stdout") e.stdout v).into fun x => { e with stdout := x }
      | "stderr" => (readText (under "stderr") e.stderr v).into fun x => { e with stderr := x }
      | "exitcode" =>
        (readNumber (under "exitCode") "int" e.exitCode v).into fun x => { e with exitCode := x }
      | "duration" =>
        (readNumber (under "duration") "time.Duration" e.duration v).into fun x =>
          { e with duration := x }
      | "timed_out" => (readTruth (under "timed_out") e.timedOut v).into fun x =>
          { e with timedOut := x }
      | _ => ⟨e, []⟩) before fields
  | v => .fault p before v.kind "main.Execution"

def readTexts (p : Place) (before : Slots String) : JsonValue → Read (Slots String)
  | .null => ⟨{}, []⟩
  | .array items => before.read (readText p) "" items
  | v => .fault p before v.kind "[]string"

/-- A stage while it is read. -/
structure StoredStage where
  name : String := ""
  arguments : Slots String := {}
  result : Execution := {}
  deriving DecidableEq, Repr

/-- The stage that has been read. -/
def StoredStage.toStage (s : StoredStage) : StageRun :=
  { name := s.name, arguments := s.arguments.items, result := s.result }

def StoredStage.read (p : Place) (before : StoredStage) : JsonValue → Read StoredStage
  | .null => ⟨before, []⟩
  | .object fields =>
    readFields (fun (s : StoredStage) name v =>
      let under (field : String) : Place := p.field "StageRun" field
      match name with
      | "name" => (readText (under "name") s.name v).into fun x => { s with name := x }
      | "args" => (readTexts (under "args") s.arguments v).into fun x => { s with arguments := x }
      | "result" => (Execution.read (under "result") s.result v).into fun x =>
          { s with result := x }
      | _ => ⟨s, []⟩) before fields
  | v => .fault p before v.kind "main.StageRun"

def readStages (p : Place) (before : Option (Slots StoredStage)) :
    JsonValue → Read (Option (Slots StoredStage))
  | .null => ⟨none, []⟩
  | .array items => ((before.getD {}).read (StoredStage.read p) {} items).into some
  | v => .fault p before v.kind "[]main.StageRun"

/-- The results of a source file while they are read. -/
structure StoredTarget where
  digest : String := ""
  stages : Option (Slots StoredStage) := none
  deriving DecidableEq, Repr

/-- The results that have been read. -/
def StoredTarget.toResult (r : StoredTarget) : TargetResult :=
  { digest := r.digest, stages := r.stages.map fun l => l.items.map StoredStage.toStage }

/-- Reads the results of a source file. -/
def StoredTarget.read (p : Place) (before : StoredTarget) : JsonValue → Read StoredTarget
  | .null => ⟨before, []⟩
  | .object fields =>
    readFields (fun (r : StoredTarget) name v =>
      let under (field : String) : Place := p.field "TargetResult" field
      match name with
      | "hash" => (readText (under "hash") r.digest v).into fun x => { r with digest := x }
      | "stages" => (readStages (under "stages") r.stages v).into fun x => { r with stages := x }
      | _ => ⟨r, []⟩) before fields
  | v => .fault p before v.kind "main.TargetResult"

/-- Reads results that may be absent. -/
def readOptional (p : Place) (before : Option StoredTarget) : JsonValue → Read (Option StoredTarget)
  | .null => ⟨none, []⟩
  | v => (StoredTarget.read p (before.getD {}) v).into some

/-- An entry of an earlier report, as far as it is needed. -/
structure Earlier where
  status : String := ""
  actual : Option TargetResult := none
  deriving DecidableEq, Repr

/-- An entry of an earlier report while it is read. -/
structure StoredEntry where
  status : String := ""
  actual : Option StoredTarget := none
  deriving DecidableEq, Repr

/-- The entry that has been read. -/
def StoredEntry.toEarlier (e : StoredEntry) : Earlier :=
  { status := e.status, actual := e.actual.map StoredTarget.toResult }

/-- Reads an entry of an earlier report, which may be absent. -/
def StoredEntry.read? (p : Place) : JsonValue → Read (Option StoredEntry)
  | .null => ⟨none, []⟩
  | .object fields =>
    (readFields (fun (e : StoredEntry) name v =>
      let under (field : String) : Place := p.field "FileTestResult" field
      match name with
      | "status" => (readText (under "status") e.status v).into fun x => { e with status := x }
      | "file" => (readText (under "file") "" v).into fun _ => e
      | "message" => (readText (under "message") "" v).into fun _ => e
      | "diff" => (readText (under "diff") "" v).into fun _ => e
      | "golden" => (readOptional (under "golden") none v).into fun _ => e
      | "actual" => (readOptional (under "actual") e.actual v).into fun x => { e with actual := x }
      | _ => ⟨e, []⟩) {} fields).into some
  | v => .fault p none v.kind "main.FileTestResult"

/-! ## Documents -/

/-- Why expected results cannot be read. -/
inductive ReadFault
  | notJson (fault : JsonFault)
  | wrongKind (fault : KindFault)
  deriving DecidableEq, Repr

/-- The wording of a fault. -/
def ReadFault.message : ReadFault → String
  | notJson fault => fault.message
  | wrongKind fault => fault.message

/-- A value without faults, or its first fault. -/
def Read.result {α : Type} (r : Read α) : Except ReadFault α :=
  match r.faults with
  | [] => .ok r.value
  | f :: _ => .error (.wrongKind f)

/-- Reads expected results from their text. -/
def parseTarget (text : String) : Except ReadFault TargetResult :=
  match JsonValue.parse text with
  | .error f => .error (.notJson f)
  | .ok v => ((StoredTarget.read {} {} v).into StoredTarget.toResult).result

/-- An earlier report: its entries by file. -/
abbrev Report := List (String × Earlier)

/-- Reads the entries of an earlier report; an entry that is given twice starts anew. -/
def readEntries : List (String × JsonValue) → Read Report
  | [] => ⟨[], []⟩
  | (file, v) :: rest =>
    let first := StoredEntry.read? {} v
    let more := readEntries rest
    ⟨(if (more.value.lookup file).isSome then more.value
      else match first.value with
        | some e => (file, e.toEarlier) :: more.value
        | none => more.value), first.faults ++ more.faults⟩

/-- Reads an earlier report from its text. -/
def parseReport (text : String) : Except ReadFault Report :=
  match JsonValue.parse text with
  | .error f => .error (.notJson f)
  | .ok .null => .ok []
  | .ok (.object fields) => (readEntries fields).result
  | .ok v => .error (.wrongKind ⟨v.kind, "", [], "main.TestSuiteResults"⟩)

end ThreeAddress.Suite
