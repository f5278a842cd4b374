import ThreeAddress.Code.Labels
import ThreeAddress.Lowering.Statement

/-!
# Lowering programs

The declarations of a program are collected first, wherever they stand in the tree; then its
statements are lowered, and a note is made about every variable that is never used.

Lowering starts from the names minted and the symbols left by earlier calls, so that names are never
minted twice. The symbols are replaced by those of the program, unless the tree is no program at
all.
-/

namespace ThreeAddress

open Lowering

variable {σ : Type} [Sink σ]

/-- Declares the variable of a declaration. -/
def collect : Tree → Lowering σ Unit
  | .node _ _ keyword _ [.node .identifier token name _ _] => do
    let before ← symbols
    let (declared, after) := before.declare name keyword token
    setSymbols after
    match declared with
    | .error fault => fail token fault
    | .ok _ => if before.has name then note token (.alreadyDeclared name)
  | .node _ _ _ _ [.absent] => incomplete
  | t => fail t.token .declarationShape

/-- Declares the variables of several declarations. -/
def collectAll : List Tree → Lowering σ Unit
  | [] => return ()
  | d :: ds => do
    collect d
    collectAll ds

/-- Makes a note about every symbol without uses. -/
def noteUnused : List Symbol → Lowering σ Unit
  | [] => return ()
  | s :: rest => do
    if s.uses = 0 then note s.token (.neverUsed s.name)
    noteUnused rest

/-- Lowers a program. -/
def lower (settings : Settings) (root : Tree) : Lowering σ Unit :=
  match root with
  | .node .program _ _ _ _ => do
    setSymbols {}
    collectAll root.declarations
    statement settings root
    noteUnused (← symbols).order
  | root => fail root.token .notAProgram

/-- Why there is no program. -/
inductive GenerateError
  | stopped (stop : Stop)
  /-- The labels of the generated code are faulty. -/
  | unverified (fault : CodeFault)
  deriving DecidableEq, Repr

/-- What generating a program comes to. -/
structure Generated where
  outcome : Except GenerateError Program
  notes : List Note
  state : LowerState

/-- Lowers a program from a state and checks its labels, if that is asked for. -/
def generate (settings : Settings) (state : LowerState) (root : Tree) : Generated :=
  let lowered := lower settings root state
  let outcome := match lowered.outcome with
    | .error stop => .error (.stopped stop)
    | .ok _ =>
      let program : Program :=
        { globals := lowered.state.symbols.order.map fun s => (s.name, s.type)
          code := lowered.code
          temps := lowered.state.names.temps
          labels := lowered.state.names.labels }
      if settings.feature .verifyLabels then
        match checkLabels lowered.code with
        | .ok _ => .ok program
        | .error fault => .error (.unverified fault)
      else .ok program
  { outcome, notes := lowered.notes, state := lowered.state }

end ThreeAddress
