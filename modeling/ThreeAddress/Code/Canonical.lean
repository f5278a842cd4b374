import Std.Data.TreeMap
import ThreeAddress.Code.Listing

/-!
# Canonical listings

Temporaries and labels are renamed in the order in which they first appear, so that two listings
that differ only in those names come out the same. In an instruction the test is looked at first,
then the arguments, the result, and the target.
-/

namespace ThreeAddress

/-- The numbers of the names met so far, in order of first appearance. -/
structure Renaming where
  temps : Std.TreeMap String Nat := {}
  labels : Std.TreeMap String Nat := {}

namespace Renaming

/-- The number of a name, and the numbers with that of the name added if it is new. -/
def numberOf (numbers : Std.TreeMap String Nat) (name : String) : Nat × Std.TreeMap String Nat :=
  match numbers[name]? with
  | some k => (k, numbers)
  | none => (numbers.size, numbers.insert name numbers.size)

def label (r : Renaming) (l : Label) : Label × Renaming :=
  let (k, labels) := numberOf r.labels l.name
  (⟨"L" ++ toString k, k⟩, { r with labels })

def operand (r : Renaming) : Option Operand → Option Operand × Renaming
  | some (.temp name _) =>
    let (k, temps) := numberOf r.temps name
    (some (.temp ("t" ++ toString k) k), { r with temps })
  | some (.label l) =>
    let (l, r) := r.label l
    (some (.label l), r)
  | v => (v, r)

/-- Renames a list of operands from the left. -/
def operands (r : Renaming) : List (Option Operand) → List (Option Operand) × Renaming
  | [] => ([], r)
  | v :: vs =>
    let (v, r) := r.operand v
    let (vs, r) := r.operands vs
    (v :: vs, r)

def test (r : Renaming) : Option Test → Option Test × Renaming
  | none => (none, r)
  | some t =>
    let (left, r) := r.operand t.left
    let (right, r) := r.operand t.right
    (some { t with left, right }, r)

def target (r : Renaming) : Option Label → Option Label × Renaming
  | none => (none, r)
  | some l =>
    let (l, r) := r.label l
    (some l, r)

/-- Renames an instruction. -/
def instr (r : Renaming) (i : Instr) : Instr × Renaming :=
  let (test, r) := r.test i.test
  let (args, r) := r.operands i.args
  let (result, r) := r.operand i.result
  let (target, r) := r.target i.target
  ({ i with test, args, result, target }, r)

def code (r : Renaming) : List Instr → List Instr
  | [] => []
  | i :: is =>
    let (i, r) := r.instr i
    i :: r.code is

end Renaming

/-- The lines of the canonical listing of code, if every instruction has a text. -/
def canonical? (code : List Instr) : Option (List String) :=
  listing? (({} : Renaming).code code)

end ThreeAddress
