import ThreeAddress.Json.Value

/-!
# Reading JSON

The reader takes one character at a time and keeps what is still open on a stack. It stops at the
first character that cannot stand where it is. The end of the text counts as a blank, so that a
number at the end is complete and a word or number cut short is reported at that blank.
-/

namespace ThreeAddress

/-- Why a text is not JSON. -/
inductive JsonFault
  | unexpectedEnd
  /-- A character and the place in which it cannot stand. -/
  | invalid (c : Char) (place : String)
  deriving DecidableEq, Repr

namespace JsonFault

/-- The first byte of a character, as a character of its own. -/
def firstByte (c : Char) : Char :=
  match (String.singleton c).toUTF8.data.toList with
  | b :: _ => Char.ofNat b.toNat
  | [] => c

/-- A character between single quotes. -/
def charText (c : Char) : String :=
  if c = '\'' then "'\\''"
  else if c = '"' then "'\"'"
  else String.ofList ('\'' :: Text.escape (firstByte c) ++ ['\''])

/-- The wording of a fault. -/
def message : JsonFault → String
  | unexpectedEnd => "unexpected end of JSON input"
  | invalid c place => "invalid character " ++ charText c ++ " " ++ place

end JsonFault

namespace JsonReader

/-- A value that is still open, with what it holds so far, the last item in front. -/
inductive Frame
  | array (done : List JsonValue)
  /-- An object and the name of the field that is being read. -/
  | object (done : List (String × JsonValue)) (name : String)
  deriving Inhabited

/-- How far a number has come. -/
inductive NumberPhase
  | sign
  | zero
  | digits
  | point
  | fraction
  | exponent
  | exponentSign
  | exponentDigits
  deriving DecidableEq, Repr

/-- How far an escape in a text has come. -/
inductive EscapePhase
  | none
  | started
  /-- Hexadecimal digits, their value and the number of digits to come. -/
  | hex (value left : Nat)
  deriving DecidableEq, Repr

/-- What the reader is in the middle of. -/
inductive Mode
  /-- A value has to follow; if `orClose`, the array may also end. -/
  | value (orClose : Bool)
  /-- A name has to follow; if `orClose`, the object may also end. -/
  | name (orClose : Bool) (done : List (String × JsonValue))
  /-- A text: its code units so far, the last in front. A name belongs to an object with fields. -/
  | text (units : List Nat) (escape : EscapePhase) (owner : Option (List (String × JsonValue)))
  | number (chars : List Char) (phase : NumberPhase)
  /-- A word: all of it, what is left of it, and its value. -/
  | word (all : String) (left : List Char) (value : JsonValue)
  /-- A colon has to follow a name. -/
  | colon (done : List (String × JsonValue)) (name : String)
  /-- A comma or a bracket has to follow a value. -/
  | after
  /-- The whole text has been read. -/
  | done (value : JsonValue)

/-- The state of the reader. -/
structure State where
  mode : Mode := .value false
  stack : List Frame := []

/-- White space between values. -/
def isSpace (c : Char) : Bool := c = ' ' || c = '\t' || c = '\r' || c = '\n'

/-- How many values can be open at once. -/
def maxDepth : Nat := 10000

/-- The state after a complete value. -/
def complete (v : JsonValue) : List Frame → State
  | [] => ⟨.done v, []⟩
  | .array done :: rest => ⟨.after, .array (v :: done) :: rest⟩
  | .object done name :: rest => ⟨.after, .object ((name, v) :: done) name :: rest⟩

/-- Opens a value. -/
def opened (c : Char) (mode : Mode) (depth : Nat) (stack : List Frame) : Except JsonFault State :=
  if depth > maxDepth then .error (.invalid c "exceeded max depth") else .ok ⟨mode, stack⟩

/-- The state after the first character of a value. -/
def beginValue (stack : List Frame) (c : Char) : Except JsonFault State :=
  match c with
  | '\x7b' => opened c (.name true []) (stack.length + 1) stack
  | '[' => opened c (.value true) (stack.length + 1) (.array [] :: stack)
  | '"' => .ok ⟨.text [] .none none, stack⟩
  | '-' => .ok ⟨.number [c] .sign, stack⟩
  | '0' => .ok ⟨.number [c] .zero, stack⟩
  | 't' => .ok ⟨.word "true" ['r', 'u', 'e'] (.bool true), stack⟩
  | 'f' => .ok ⟨.word "false" ['a', 'l', 's', 'e'] (.bool false), stack⟩
  | 'n' => .ok ⟨.word "null" ['u', 'l', 'l'] .null, stack⟩
  | c =>
    if c.isDigit then .ok ⟨.number [c] .digits, stack⟩
    else .error (.invalid c "looking for beginning of value")

/-- The state after a character that follows a complete value. -/
def afterValue (s : State) (c : Char) : Except JsonFault State :=
  match s.mode with
  | .done _ => if isSpace c then .ok s else .error (.invalid c "after top-level value")
  | _ =>
    if isSpace c then .ok s
    else
      match s.stack with
      | [] => .error (.invalid c "after top-level value")
      | .array done :: rest =>
        if c = ',' then .ok { s with mode := .value false }
        else if c = ']' then .ok (complete (.array done.reverse) rest)
        else .error (.invalid c "after array element")
      | .object done _ :: rest =>
        if c = ',' then .ok ⟨.name false done, rest⟩
        else if c = '\x7d' then .ok (complete (.object done.reverse) rest)
        else .error (.invalid c "after object key:value pair")

/-- The phase of a number after a character, if the character belongs to it. -/
def numberStep (phase : NumberPhase) (c : Char) : Except JsonFault (Option NumberPhase) :=
  let ending : Except JsonFault (Option NumberPhase) := .ok none
  match phase with
  | .sign =>
    if c = '0' then .ok (some .zero)
    else if c.isDigit then .ok (some .digits)
    else .error (.invalid c "in numeric literal")
  | .zero =>
    if c = '.' then .ok (some .point)
    else if c = 'e' ∨ c = 'E' then .ok (some .exponent)
    else ending
  | .digits =>
    if c.isDigit then .ok (some .digits)
    else if c = '.' then .ok (some .point)
    else if c = 'e' ∨ c = 'E' then .ok (some .exponent)
    else ending
  | .point =>
    if c.isDigit then .ok (some .fraction)
    else .error (.invalid c "after decimal point in numeric literal")
  | .fraction =>
    if c.isDigit then .ok (some .fraction)
    else if c = 'e' ∨ c = 'E' then .ok (some .exponent)
    else ending
  | .exponent =>
    if c = '+' ∨ c = '-' then .ok (some .exponentSign)
    else if c.isDigit then .ok (some .exponentDigits)
    else .error (.invalid c "in exponent of numeric literal")
  | .exponentSign =>
    if c.isDigit then .ok (some .exponentDigits)
    else .error (.invalid c "in exponent of numeric literal")
  | .exponentDigits => if c.isDigit then .ok (some .exponentDigits) else ending

def hexValue? (c : Char) : Option Nat :=
  if c.isDigit then some (c.toNat - '0'.toNat)
  else if 'a' ≤ c ∧ c ≤ 'f' then some (c.toNat - 'a'.toNat + 10)
  else if 'A' ≤ c ∧ c ≤ 'F' then some (c.toNat - 'A'.toNat + 10)
  else none

/-- The code unit of an escape letter. -/
def escapeUnit? : Char → Option Nat
  | 'b' => some 0x08
  | 'f' => some 0x0c
  | 'n' => some 0x0a
  | 'r' => some 0x0d
  | 't' => some 0x09
  | '\\' => some 0x5c
  | '/' => some 0x2f
  | '"' => some 0x22
  | _ => none

/-- The characters of code units: two surrogates that fit together are one character, others are
replaced. -/
def charsOfUnits : List Nat → List Char
  | [] => []
  | [u] => [Char.ofNat (if 0xd800 ≤ u ∧ u < 0xe000 then 0xfffd else u)]
  | u :: v :: rest =>
    if 0xd800 ≤ u ∧ u < 0xdc00 ∧ 0xdc00 ≤ v ∧ v < 0xe000 then
      Char.ofNat (0x10000 + (u - 0xd800) * 0x400 + (v - 0xdc00)) :: charsOfUnits rest
    else Char.ofNat (if 0xd800 ≤ u ∧ u < 0xe000 then 0xfffd else u) :: charsOfUnits (v :: rest)

/-- The state after a character inside a text. -/
def textStep (stack : List Frame) (units : List Nat) (escape : EscapePhase)
    (owner : Option (List (String × JsonValue))) (c : Char) : Except JsonFault State :=
  match escape with
  | .none =>
    if c = '"' then
      let s := String.ofList (charsOfUnits units.reverse)
      match owner with
      | none => .ok (complete (.string s) stack)
      | some done => .ok ⟨.colon done s, stack⟩
    else if c = '\\' then .ok ⟨.text units .started owner, stack⟩
    else if c.toNat < 0x20 then .error (.invalid c "in string literal")
    else .ok ⟨.text (c.toNat :: units) .none owner, stack⟩
  | .started =>
    if c = 'u' then .ok ⟨.text units (.hex 0 4) owner, stack⟩
    else
      match escapeUnit? c with
      | some u => .ok ⟨.text (u :: units) .none owner, stack⟩
      | none => .error (.invalid c "in string escape code")
  | .hex value left =>
    match hexValue? c with
    | none => .error (.invalid c "in \\u hexadecimal character escape")
    | some d =>
      let value := 16 * value + d
      if left ≤ 1 then .ok ⟨.text (value :: units) .none owner, stack⟩
      else .ok ⟨.text units (.hex value (left - 1)) owner, stack⟩

/-- The state after a character. -/
def step (s : State) (c : Char) : Except JsonFault State :=
  match s.mode with
  | .value orClose =>
    if isSpace c then .ok s
    else if orClose ∧ c = ']' then
      match s.stack with
      | .array done :: rest => .ok (complete (.array done.reverse) rest)
      | stack => beginValue stack c
    else beginValue s.stack c
  | .name orClose done =>
    if isSpace c then .ok s
    else if orClose ∧ c = '\x7d' then .ok (complete (.object done.reverse) s.stack)
    else if c = '"' then .ok { s with mode := .text [] .none (some done) }
    else .error (.invalid c "looking for beginning of object key string")
  | .text units escape owner => textStep s.stack units escape owner c
  | .number chars phase => do
    match ← numberStep phase c with
    | some phase => return { s with mode := .number (c :: chars) phase }
    | none => afterValue (complete (.number (String.ofList chars.reverse)) s.stack) c
  | .word all left value =>
    match left with
    | [] => .ok s
    | expected :: left =>
      if c = expected then
        if left.isEmpty then .ok (complete value s.stack)
        else .ok { s with mode := .word all left value }
      else
        .error (.invalid c ("in literal " ++ all ++ " (expecting '" ++
          String.singleton expected ++ "')"))
  | .colon done name =>
    if isSpace c then .ok s
    else if c = ':' then .ok ⟨.value false, .object done name :: s.stack⟩
    else .error (.invalid c "after object key")
  | .after | .done _ => afterValue s c

/-- The state after several characters. -/
def run (s : State) : List Char → Except JsonFault State
  | [] => .ok s
  | c :: cs => do
    let s ← step s c
    run s cs

end JsonReader

/-- Reads a JSON text. -/
def JsonValue.parse (text : String) : Except JsonFault JsonValue := do
  let s ← JsonReader.run {} text.toList
  match s.mode with
  | .done v => return v
  | _ => do
    let s ← JsonReader.step s ' '
    match s.mode with
    | .done v => return v
    | _ => .error .unexpectedEnd

end ThreeAddress
