import ThreeAddress.Text.Decimal

/-!
# Flags

A flag holds a text, a truth value or a list of texts. It has a long name and may have a shorthand
of one character. A group is a family of switches, each with two flags: one that switches it on and
one that switches it off.
-/

namespace ThreeAddress.Options

/-- What a flag holds. -/
inductive FlagValue
  | text (value : String)
  | truth (value : Bool)
  | list (values : List String)
  deriving DecidableEq, Repr

/-- Whether a flag holds a truth value, so that it can stand without an argument. -/
def FlagValue.isTruth : FlagValue → Bool
  | truth _ => true
  | _ => false

/-- The value after an argument: a text is replaced, a list grows, and a truth value is read from
the argument, which may be empty for true. -/
def FlagValue.set? (argument : String) : FlagValue → Option FlagValue
  | text _ => some (text argument)
  | truth _ => if argument = "" then some (truth true) else (Text.readBool? argument).map truth
  | list values => some (list (values ++ [argument]))

/-- A flag with its current value. -/
structure Flag where
  name : String
  /-- The short name, empty if there is none. -/
  shorthand : String := ""
  usage : String := ""
  /-- What kind of argument the flag takes, for help pages. -/
  argument : String := ""
  /-- The default value that help pages show. -/
  default : String := ""
  value : FlagValue
  deriving DecidableEq, Repr

def Flag.ofText (name shorthand default usage argument : String) : Flag :=
  { name, shorthand, usage, argument, default, value := .text default }

/-- A flag for a truth value. -/
def Flag.ofTruth (name shorthand : String) (default : Bool) (usage : String) : Flag :=
  { name, shorthand, usage, default := if default then "true" else "false",
    value := .truth default }

def Flag.ofList (name shorthand : String) (default : List String)
    (usage argument : String) : Flag :=
  { name, shorthand, usage, argument, value := .list default }

/-- A switch of a group. -/
structure Switch where
  name : String
  /-- What the names of its flags begin with. -/
  stem : String
  usage : String := ""
  /-- The first value of the flag that switches it on, if there is such a flag. -/
  on? : Option Bool := none
  /-- The first value of the flag that switches it off, if there is such a flag. -/
  off? : Option Bool := none
  deriving DecidableEq, Repr

/-- The name of the flag that switches on. -/
def Switch.onName (s : Switch) : String := s.stem ++ s.name

/-- The name of the flag that switches off. -/
def Switch.offName (s : Switch) : String := s.stem ++ "no-" ++ s.name

def Switch.flags (s : Switch) : List Flag :=
  (s.on?.map fun v => Flag.ofTruth s.onName "" v s.usage).toList ++
    (s.off?.map fun v => Flag.ofTruth s.offName "" v ("Disable '" ++ s.name ++ "'")).toList

/-- A group of switches. -/
structure FlagGroup where
  name : String
  description : String := ""
  /-- What a switch of the group is called. -/
  kind : String := ""
  /-- The line above the switches on help pages. -/
  header : String := ""
  switches : List Switch := []
  deriving DecidableEq, Repr

/-- Flags in order of definition, and groups. -/
structure FlagSet where
  flags : List Flag := []
  groups : List FlagGroup := []
  deriving DecidableEq, Repr

/-- Why a flag cannot be defined. -/
inductive DefineFault
  | emptyName
  | redefined (name : String)
  | shorthandRedefined (shorthand : String)
  deriving DecidableEq, Repr

/-- The wording of a fault. -/
def DefineFault.message : DefineFault → String
  | emptyName => "flag name cannot be empty"
  | redefined name => "flag redefined: " ++ name
  | shorthandRedefined s => "shorthand flag redefined: " ++ s

namespace FlagSet

/-- The flag with a long name. -/
def find? (fs : FlagSet) (name : String) : Option Flag :=
  fs.flags.find? fun f => f.name == name

/-- The flag with a shorthand; where two have it, the one defined first. -/
def findShorthand? (fs : FlagSet) (shorthand : String) : Option Flag :=
  fs.flags.find? fun f => f.shorthand == shorthand

/-- Gives the flag with a name a value. -/
def setValue (fs : FlagSet) (name : String) (value : FlagValue) : FlagSet :=
  { fs with flags := fs.flags.map fun f => if f.name = name then { f with value } else f }

/-- The value of the flag with a name. -/
def value? (fs : FlagSet) (name : String) : Option FlagValue :=
  (fs.find? name).map Flag.value

/-- Whether the flag with a name holds true. -/
def isOn (fs : FlagSet) (name : String) : Bool :=
  fs.value? name == some (.truth true)

/-- Defines a flag. A flag whose shorthand is taken is defined all the same, without the
shorthand. -/
def define (fs : FlagSet) (f : Flag) : FlagSet × Option DefineFault :=
  if f.name = "" then (fs, some .emptyName)
  else if (fs.find? f.name).isSome then (fs, some (.redefined f.name))
  else
    ({ fs with flags := fs.flags ++ [f] },
      if f.shorthand ≠ "" ∧ (fs.findShorthand? f.shorthand).isSome then
        some (.shorthandRedefined f.shorthand)
      else none)

/-- Defines flags one after the other, up to the first that cannot be defined. -/
def defineAll (fs : FlagSet) : List Flag → Except DefineFault FlagSet
  | [] => .ok fs
  | f :: rest =>
    match fs.define f with
    | (fs, none) => fs.defineAll rest
    | (_, some fault) => .error fault

/-- Adds a group and defines its flags. -/
def addGroup (fs : FlagSet) (g : FlagGroup) : Except DefineFault FlagSet := do
  let fs ← fs.defineAll (g.switches.flatMap Switch.flags)
  return { fs with groups := fs.groups ++ [g] }

/-- Adds groups one after the other. -/
def addGroups (fs : FlagSet) : List FlagGroup → Except DefineFault FlagSet
  | [] => .ok fs
  | g :: rest => do
    let fs ← fs.addGroup g
    fs.addGroups rest

end FlagSet

end ThreeAddress.Options
