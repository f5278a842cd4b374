import ThreeAddress.Options.Arguments
import ThreeAddress.Text.Words

/-!
# Applications

An application has a name, a set of flags, and texts for its pages. The usage page lists the plain
flags, the help page also the groups. Pages have two columns; the left one is as wide as its longest
entry in bytes, and the right one is wrapped. Widths are 64-bit words.
-/

namespace ThreeAddress.Options

/-- An application. -/
structure App where
  name : String
  synopsis : String := ""
  description : String := ""
  authors : List String := []
  repository : String := ""
  since : Int := 0
  flags : FlagSet := {}
  deriving DecidableEq, Repr

/-! ## Entries -/

/-- The left column of a flag. -/
def Flag.heading (f : Flag) : String :=
  let argument := if !f.value.isTruth && f.argument != "" then " <" ++ f.argument ++ ">" else ""
  if f.shorthand = "" then "--" ++ f.name ++ argument
  else "-" ++ f.shorthand ++ argument ++ ", --" ++ f.name ++ argument

/-- The mark that shows the default value of a flag. -/
def Flag.mark (f : Flag) : String :=
  if f.value.isTruth || f.default = "" then "" else "|" ++ f.default ++ "|"

def indent : String := "        "

/-- An entry of a page that is `width` wide and has a left column of `column`. -/
def entry (width : Int64) (column : Nat) (left usage right : String) : String :=
  let room := width - 8 - Int64.ofNat column - 1 - Int64.ofNat right.utf8ByteSize - 2
  let available := max room.toInt 10
  let (first, more) := match Text.wrap usage available with
    | [] => ("", [])
    | line :: lines => (line, lines)
  indent ++ Text.padRight column left ++ " " ++
    (if right = "" then first else Text.padRight available first ++ "  " ++ right) ++ "\n" ++
    String.join (more.map fun line => indent ++ Text.padRight column "" ++ " " ++ line ++ "\n")

/-- The left column for switching on. -/
def onHeading (stem kind : String) : String := "-" ++ stem ++ "<" ++ kind ++ ">"

/-- The left column for switching off. -/
def offHeading (stem kind : String) : String := "-" ++ stem ++ "no-<" ++ kind ++ ">"

namespace App

def isGroupFlag (a : App) (name : String) : Bool :=
  a.flags.groups.any fun g => g.switches.any fun s => name == s.onName || name == s.offName

/-- The flags outside of groups, by name. -/
def plainFlags (a : App) : List Flag :=
  (a.flags.flags.filter fun f => !a.isGroupFlag f.name).mergeSort fun f g =>
    decide (f.name ≤ g.name)

def columnWidth (a : App) : Nat :=
  let headings := a.plainFlags.map Flag.heading ++
    a.flags.groups.flatMap fun g => g.switches.flatMap fun s => [s.name, offHeading s.stem g.kind]
  (headings.map String.utf8ByteSize).foldl max 0

def plainEntries (a : App) (width : Int64) : String :=
  if a.plainFlags.isEmpty then ""
  else
    "\n    Options\n" ++
      String.join (a.plainFlags.map fun f => entry width a.columnWidth f.heading f.usage f.mark)

def usagePage (a : App) (width : Int64) : String :=
  "Usage: " ++ a.name ++ " " ++ a.synopsis ++ "\n" ++ a.plainEntries width ++
    "\nRun '" ++ a.name ++ " --help' for all available options and flags.\n"

/-- The entry of a switch, with a mark that tells whether it is on. -/
def switchEntry (a : App) (width : Int64) (s : Switch) : String :=
  entry width a.columnWidth s.name s.usage
    (if s.on?.isSome && a.flags.isOn s.onName then "|x|" else "|-|")

/-- The part of the help page about a group. -/
def groupPart (a : App) (width : Int64) (g : FlagGroup) : String :=
  match g.switches with
  | [] => ""
  | s :: _ =>
    "\n    " ++ g.name ++ "\n" ++
      entry width a.columnWidth (onHeading s.stem g.kind) ("Enable a specific " ++ g.kind) "" ++
      entry width a.columnWidth (offHeading s.stem g.kind) ("Disable a specific " ++ g.kind) "" ++
      (if g.header = "" then "" else "    " ++ g.header ++ "\n") ++
      String.join ((g.switches.mergeSort fun s t => decide (s.name ≤ t.name)).map
        (a.switchEntry width))

def helpPage (a : App) (width : Int64) : String :=
  (if a.authors.isEmpty then "" else
    "\n    Copyright (c) " ++ toString a.since ++ ": " ++ ", ".intercalate a.authors ++
      " and contributors\n") ++
  (if a.repository = "" then "" else
    "    For more details refer to " ++ a.repository ++ "\n") ++
  (if a.synopsis = "" then "" else
    "\n    Synopsis\n        " ++ a.name ++ " " ++ a.synopsis ++ "\n") ++
  (if a.description = "" then "" else
    "\n    Description\n" ++
      String.join ((Text.wrap a.description (width - 8).toInt).map fun line =>
        indent ++ line ++ "\n")) ++
  a.plainEntries width ++
  String.join ((a.flags.groups.mergeSort fun g h => decide (g.name ≤ h.name)).map
    (a.groupPart width))

end App

/-! ## Starting -/

/-- The width of pages that no terminal shows. -/
def pageWidth : Int64 := 80

/-- What starting an application comes to. -/
inductive Launch
  /-- The flag for help cannot be defined. -/
  | clash (fault : DefineFault)
  /-- The arguments are refused; the page goes with the error. -/
  | refused (error : FlagError) (page : String)
  | help (page : String)
  /-- The application is to do its work with the positional arguments. -/
  | action (positional : List String)
  deriving DecidableEq, Repr

/-- Starts an application: adds the flag for help and reads the arguments. -/
def App.launch (a : App) (arguments : List String) : App × Launch :=
  match a.flags.define (Flag.ofTruth "help" "h" false "Display this information") with
  | (flags, some fault) => ({ a with flags }, .clash fault)
  | (flags, none) =>
    let p := parse flags arguments
    let a := { a with flags := p.flags }
    match p.error with
    | some e => (a, .refused e (e.message ++ "\n" ++ a.usagePage pageWidth))
    | none =>
      if p.flags.isOn "help" then (a, .help (a.helpPage pageWidth))
      else (a, .action p.positional)

end ThreeAddress.Options
