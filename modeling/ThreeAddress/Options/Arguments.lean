import ThreeAddress.Options.Flag

/-!
# Arguments

An argument that begins with a hyphen and is longer than the hyphen is a flag: `--name`, `-name`,
either with `=value`, or a shorthand directly followed by its value. A long name wins over a
shorthand. A flag without a value takes the next argument, unless it holds a truth value. `--` ends
the flags, and all other arguments are positional.
-/

namespace ThreeAddress.Options

/-- Why arguments are refused. -/
inductive FlagError
  | unknown (argument : String)
  | needsArgument (name : String)
  | invalidTruth (name argument : String)
  deriving DecidableEq, Repr

/-- The wording of an error. -/
def FlagError.message : FlagError → String
  | unknown argument => "unknown flag: " ++ argument
  | needsArgument name => "flag needs an argument: -" ++ name
  | invalidTruth name argument =>
    "flag -" ++ name ++ ": invalid boolean value '" ++ argument ++
      "': strconv.ParseBool: parsing " ++ Text.quote argument ++ ": invalid syntax"

/-- What an argument is. -/
inductive ArgumentForm
  | positional
  | terminator
  | unknown
  /-- A flag, the name under which messages mention it, and its value if it has one. -/
  | flag (flag : Flag) (mention : String) (value : Option String)
  deriving DecidableEq, Repr

/-- A text up to its first equals sign, and what follows the sign if there is one. -/
def cutAtEquals (cs : List Char) : String × Option String :=
  match cs.dropWhile (· != '=') with
  | [] => (String.ofList cs, none)
  | _ :: value => (String.ofList (cs.takeWhile (· != '=')), some (String.ofList value))

/-- A shorthand and what follows it. -/
def shorthandForm (fs : FlagSet) (c : Char) (rest : List Char) : ArgumentForm :=
  match fs.findShorthand? (String.singleton c) with
  | none => .unknown
  | some f =>
    if c.toNat ≥ 128 then .unknown
    else if rest.isEmpty then .flag f (String.singleton c) none
    else if f.value.isTruth then .unknown
    else .flag f (String.singleton c) (some (String.ofList rest))

/-- What an argument is, given the flags. -/
def formOf (fs : FlagSet) (argument : String) : ArgumentForm :=
  match argument.toList with
  | ['-', '-'] => .terminator
  | '-' :: c :: cs =>
    let (name, value) := cutAtEquals (if c = '-' then cs else c :: cs)
    match fs.find? name with
    | some f => .flag f name value
    | none => if c = '-' then .unknown else shorthandForm fs c cs
  | _ => .positional

/-- Gives a flag an argument. -/
def assign (fs : FlagSet) (f : Flag) (mention argument : String) : Except FlagError FlagSet :=
  match f.value.set? argument with
  | some value => .ok (fs.setValue f.name value)
  | none => .error (.invalidTruth mention argument)

/-- What reading arguments comes to: the flags with their values, the positional arguments, and the
error at which reading stopped, if it did. -/
structure Parsed where
  flags : FlagSet
  positional : List String
  error : Option FlagError
  deriving DecidableEq, Repr

/-- Puts a positional argument in front. -/
def Parsed.cons (argument : String) (p : Parsed) : Parsed :=
  { p with positional := argument :: p.positional }

/-- Reads arguments. -/
def parse (fs : FlagSet) : List String → Parsed
  | [] => ⟨fs, [], none⟩
  | argument :: rest =>
    match formOf fs argument with
    | .positional => (parse fs rest).cons argument
    | .terminator => ⟨fs, rest, none⟩
    | .unknown => ⟨fs, [], some (.unknown argument)⟩
    | .flag f mention (some value) =>
      match assign fs f mention value with
      | .ok fs => parse fs rest
      | .error e => ⟨fs, [], some e⟩
    | .flag f mention none =>
      if f.value.isTruth then
        match assign fs f mention "" with
        | .ok fs => parse fs rest
        | .error e => ⟨fs, [], some e⟩
      else
        match rest with
        | [] => ⟨fs, [], some (.needsArgument mention)⟩
        | value :: rest =>
          match assign fs f mention value with
          | .ok fs => parse fs rest
          | .error e => ⟨fs, [], some e⟩

end ThreeAddress.Options
