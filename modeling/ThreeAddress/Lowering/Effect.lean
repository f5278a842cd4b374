import ThreeAddress.Code.Listing
import ThreeAddress.Diagnostic
import ThreeAddress.SymbolTable

/-!
# Effects of lowering

Lowering a part of a tree emits instructions, makes notes for warnings, mints names for temporaries
and labels, counts the uses of variables, and may stop. All of this is a value: a `Lowering σ α`
takes the state before and returns the state after, together with the instructions and notes of this
part alone and either a result or the reason for stopping. What was emitted before a stop is kept.

Each instruction also goes to a sink at the moment it is emitted. The sink, of a type `σ`, is a part
of the state. A `Lower α` has none.
-/

namespace ThreeAddress

/-- How many temporaries and labels have been minted. -/
@[ext]
structure Names where
  temps : Nat := 0
  labels : Nat := 0
  deriving DecidableEq, Repr

/-- What lowering carries from one part of a tree to the next. -/
@[ext]
structure LoweringState (σ : Type) where
  names : Names := {}
  symbols : SymbolTable := {}
  sink : σ := by exact ()
  deriving DecidableEq, Repr

/-- The state of lowering without a sink. -/
abbrev LowerState : Type := LoweringState Unit

/-- Why lowering stops. -/
inductive Stop
  /-- A node is absent where the rules have to look at it. -/
  | incomplete
  | fault (error : LowerError)
  deriving DecidableEq, Repr

/-- What a warning is about. -/
inductive NoteSubject
  | alreadyDeclared (name : String)
  | neverUsed (name : String)
  | selfAssigned (name : String)
  | constantCondition (value : String)
  | neverExecuted
  | duplicateCase (value : Int64)
  deriving DecidableEq, Repr

/-- A reason for a warning and the token it is about. -/
structure Note where
  token : Token
  subject : NoteSubject
  deriving DecidableEq, Repr

namespace Note

/-- The warning that a note belongs to. -/
def warning (n : Note) : Warning :=
  match n.subject with
  | .alreadyDeclared _ => .redeclared
  | .neverUsed _ => .unused
  | .selfAssigned _ | .duplicateCase _ => .extra
  | .constantCondition _ => .constantCondition
  | .neverExecuted => .unreachableCode

/-- The wording of a note. -/
def message (n : Note) : String :=
  match n.subject with
  | .alreadyDeclared name => "'" ++ name ++ "' is already declared"
  | .neverUsed name => "variable '" ++ name ++ "' declared but never used"
  | .selfAssigned name => "'" ++ name ++ "' is assigned to itself"
  | .constantCondition value => "condition is always " ++ value
  | .neverExecuted => "code will never be executed"
  | .duplicateCase value => "duplicate case value " ++ toString value.toInt ++ " is never selected"

/-- Notes as diagnostics, those of switched-off warnings left out. -/
def report (settings : Settings) (files : List SourceFile) (notes : List Note) : String :=
  String.join (notes.map fun n => Diagnostic.warning settings files n.warning n.token n.message)

/-- Notes as diagnostics, if all of them can be shown. -/
def report? (settings : Settings) (files : List SourceFile) (notes : List Note) : Option String :=
  (notes.mapM fun n => Diagnostic.warning? settings files n.warning n.token n.message).map
    String.join

end Note

/-- What lowering a part of a tree comes to. -/
@[ext]
structure LoweringResult (σ α : Type) where
  outcome : Except Stop α
  code : List Instr
  notes : List Note
  state : LoweringState σ

/-- What lowering a part of a tree without a sink comes to. -/
abbrev Lowered : Type → Type := LoweringResult Unit

/-- The lowering of a part of a tree into a sink. -/
def Lowering (σ α : Type) : Type := LoweringState σ → LoweringResult σ α

/-- The lowering of a part of a tree without a sink. -/
abbrev Lower : Type → Type := Lowering Unit

/-- A state with another sink. -/
def LoweringState.into {σ τ : Type} (s : LoweringState σ) (sink : τ) : LoweringState τ :=
  { names := s.names, symbols := s.symbols, sink }

namespace Lowering

variable {σ : Type}

/-- Nothing but a result. -/
protected def pure {α : Type} (a : α) : Lowering σ α := fun s => ⟨.ok a, [], [], s⟩

/-- One part after another; the second is left out when the first stops. -/
protected def bind {α β : Type} (x : Lowering σ α) (f : α → Lowering σ β) : Lowering σ β := fun s =>
  match x s with
  | ⟨.ok a, code, notes, s⟩ =>
    let y := f a s
    ⟨y.outcome, code ++ y.code, notes ++ y.notes, y.state⟩
  | ⟨.error e, code, notes, s⟩ => ⟨.error e, code, notes, s⟩

instance : Monad (Lowering σ) where
  pure := Lowering.pure
  bind := Lowering.bind

/-- Stops at an absent node. -/
def incomplete {α : Type} : Lowering σ α := fun s => ⟨.error .incomplete, [], [], s⟩

/-- Stops with a fault at a token. -/
def fail {α : Type} (token : Token) (fault : LowerFault) : Lowering σ α := fun s =>
  ⟨.error (.fault ⟨token, fault⟩), [], [], s⟩

def emit [Sink σ] (i : Instr) : Lowering σ Unit := fun s =>
  ⟨.ok (), [i], [], { s with sink := Sink.put s.sink i }⟩

def note (token : Token) (subject : NoteSubject) : Lowering σ Unit := fun s =>
  ⟨.ok (), [], [⟨token, subject⟩], s⟩

def tempOf (k : Nat) : Operand := .temp ("_t" ++ toString k) k

def labelOf (k : Nat) : Label := ⟨"_L" ++ toString k, k⟩

def freshTemp : Lowering σ Operand := fun s =>
  ⟨.ok (tempOf s.names.temps), [], [], { s with names.temps := s.names.temps + 1 }⟩

def freshLabel : Lowering σ Label := fun s =>
  ⟨.ok (labelOf s.names.labels), [], [], { s with names.labels := s.names.labels + 1 }⟩

/-- The symbols declared so far. -/
def symbols : Lowering σ SymbolTable := fun s => ⟨.ok s.symbols, [], [], s⟩

def setSymbols (t : SymbolTable) : Lowering σ Unit := fun s =>
    ⟨.ok (), [], [], { s with symbols := t }⟩

/-- The type of a name at a token, without counting a use. -/
def typeOfName (token : Token) (name : String) : Lowering σ ValueType := do
  match (← symbols).lookup name with
  | .ok type => return type
  | .error fault => fail token fault

/-- The type of a name at a token; the use is counted. -/
def useName (token : Token) (name : String) : Lowering σ ValueType := do
  let type ← typeOfName token name
  setSymbols ((← symbols).use name)
  return type

/-- Emits a jump to a label, if there is one. -/
def jumpTo [Sink σ] : Option Label → Lowering σ Unit
  | some l => emit (.jump l)
  | none => return ()

/-- Emits the mark of a label, if there is one. -/
def markAt [Sink σ] : Option Label → Lowering σ Unit
  | some l => emit (.mark l)
  | none => return ()

/-- Emits jumps on a comparison: to one label when it holds, to the other when it does not. Where
there is no label, control falls through. -/
def branch [Sink σ] (op : Opcode) (left right : Operand) : Option Label →
    Option Label → Lowering σ Unit
  | some t, some f => do
    emit (.jumpIf op left right t)
    emit (.jump f)
  | some t, none => emit (.jumpIf op left right t)
  | none, some f => emit (.jumpUnless op left right f)
  | none, none => return ()

end Lowering

end ThreeAddress
