import Std.Data.TreeMap
import ThreeAddress.Llvm.Module
import ThreeAddress.Llvm.Numeral

/-!
# The text of LLVM modules

Names made of letters, digits and a few signs are written as they are, others in quotes. Results,
and blocks and slots whose name is empty, are numbered in the order in which they are printed.
-/

namespace ThreeAddress.Llvm

/-! ## Names -/

/-- The bytes that a name may have without being quoted. -/
def isPlain (b : UInt8) : Bool :=
  (97 ≤ b && b ≤ 122) || (65 ≤ b && b ≤ 90) || (48 ≤ b && b ≤ 57) ||
    b == 36 || b == 46 || b == 95 || b == 45

/-- A digit of a byte written in hexadecimal. -/
def hexDigit (n : Nat) : Char :=
  ("0123456789ABCDEF".toList)[n]?.getD '0'

def quotedByte (b : UInt8) : List Char :=
  if 32 ≤ b && b ≤ 126 && b != 34 && b != 92 then [Char.ofNat b.toNat]
  else ['\\', hexDigit (b.toNat / 16), hexDigit (b.toNat % 16)]

def quoted (bytes : List UInt8) : String :=
  String.ofList ('"' :: bytes.flatMap quotedByte ++ ['"'])

/-- Whether a name reads as a number that could stand for something without a name. -/
def isNumber (name : String) : Bool :=
  let cs := name.toList
  !cs.isEmpty && cs.all Char.isDigit &&
    cs.foldl (fun n c => 10 * n + (c.toNat - '0'.toNat)) 0 < UInt64.size

def nameText (name : String) : String :=
  let bytes := name.toUTF8.data.toList
  if bytes.all isPlain && !isNumber name then name else quoted bytes

/-! ## Numbers -/

/-- What has no name of its own. -/
inductive Unnamed
  | block (index : Nat)
  | slot
  | result (number : Nat)
  deriving DecidableEq, Repr

/-- What an instruction makes without naming it. -/
def Inst.unnamed : Inst → List Unnamed
  | alloca name => if name = "" then [.slot] else []
  | load r _ | compute r .. | compare r .. | format r _ | print r .. => [.result r]
  | store .. => []

/-- What blocks make without naming it, in the order of printing; `index` is the index of the first
block. -/
def unnamedFrom (index : Nat) : List Block → List Unnamed
  | [] => []
  | b :: bs =>
    (if b.name = "" then [.block index] else []) ++ b.code.toList.flatMap Inst.unnamed ++
      unnamedFrom (index + 1) bs

/-- The numbers of what has no name. -/
structure Numbering where
  blocks : Std.TreeMap Nat Nat := {}
  slot : Nat := 0
  results : Std.TreeMap Nat Nat := {}

namespace Numbering

/-- Gives something a number. -/
def add (n : Numbering) (number : Nat) : Unnamed → Numbering
  | .block index => { n with blocks := n.blocks.insert index number }
  | .slot => { n with slot := number }
  | .result r => { n with results := n.results.insert r number }

/-- Numbers a list of things in order, from a number on. -/
def addAll (n : Numbering) (next : Nat) : List Unnamed → Numbering
  | [] => n
  | u :: us => (n.add next u).addAll (next + 1) us

/-- The number of something without a name. -/
def number (n : Numbering) : Unnamed → String
  | .block index => toString (n.blocks[index]?.getD 0)
  | .slot => toString n.slot
  | .result r => toString (n.results[r]?.getD 0)

end Numbering

/-! ## Instructions -/

def Value.text (n : Numbering) : Value → String
  | const v => numeral v
  | result r => "%" ++ n.number (.result r)

def Place.text (n : Numbering) : Place → String
  | global name => "@" ++ nameText ("v." ++ name)
  | slot name => "%" ++ (if name = "" then n.number .slot else nameText name)

def Operation.name : Operation → String
  | add => "add"
  | sub => "sub"
  | mul => "mul"
  | div => "sdiv"
  | rem => "srem"

def Predicate.name : Predicate → String
  | eq => "eq"
  | ne => "ne"
  | lt => "slt"
  | gt => "sgt"
  | le => "sle"
  | ge => "sge"

def formatBytes (name : String) : List UInt8 :=
  (name ++ " = %ld\n\x00").toUTF8.data.toList

def formatType (name : String) : String :=
  "[" ++ toString (formatBytes name).length ++ " x i8]"

def formatName (name : String) : String :=
  "@" ++ nameText (".fmt." ++ name)

/-- The part of an instruction that binds its result. -/
def bind (n : Numbering) (r : Nat) : String :=
  Value.text n (.result r) ++ " = "

def Inst.text (n : Numbering) : Inst → String
  | alloca name => (Place.slot name).text n ++ " = alloca i64"
  | load r p => bind n r ++ "load i64, i64* " ++ p.text n
  | store v p => "store i64 " ++ v.text n ++ ", i64* " ++ p.text n
  | compute r op x y => bind n r ++ op.name ++ " i64 " ++ x.text n ++ ", " ++ y.text n
  | compare r p x y => bind n r ++ "icmp " ++ p.name ++ " i64 " ++ x.text n ++ ", " ++ y.text n
  | format r name =>
    bind n r ++ "getelementptr " ++ formatType name ++ ", " ++ formatType name ++ "* " ++
      formatName name ++ ", i32 0, i32 0"
  | print r f v =>
    bind n r ++ "call i32 (i8*, ...) @printf(i8* " ++ f.text n ++ ", i64 " ++ v.text n ++ ")"

/-! ## Blocks -/

/-- The labels of the blocks from an index on, without sigils. -/
def blockLabels (n : Numbering) (index : Nat) : List Block → List String
  | [] => []
  | b :: bs =>
    (if b.name = "" then n.number (.block index) else nameText b.name) ::
    blockLabels n (index + 1) bs

/-- The label of the block with an index, among those of all blocks. -/
def labelAt (labels : Array String) (index : Nat) : String := labels[index]?.getD ""

/-- The end of a block as text. -/
def Terminator.text (n : Numbering) (labels : Array String) : Terminator → String
  | jump b => "br label %" ++ labelAt labels b
  | branch v t f =>
    "br i1 " ++ v.text n ++ ", label %" ++ labelAt labels t ++ ", label %" ++ labelAt labels f
  | ret => "ret i32 0"

/-- The text of the block with an index, if it has an end. -/
def blockText? (n : Numbering) (labels : Array String) (index : Nat) (b : Block) : Option String :=
  b.terminator.map fun t =>
    labelAt labels index ++ ":\n" ++ String.join (b.code.toList.map fun i =>
      "\t" ++ i.text n ++ "\n") ++ "\t" ++ t.text n labels ++ "\n"

/-- The texts of the blocks from an index on. -/
def blockTexts? (n : Numbering) (labels : Array String) (index : Nat) :
    List Block → Option (List String)
  | [] => some []
  | b :: bs => do
    let text ← blockText? n labels index b
    let texts ← blockTexts? n labels (index + 1) bs
    return text :: texts

/-! ## Modules -/

/-- The global of a variable. -/
def variableText (name : String) : String :=
  "@" ++ nameText ("v." ++ name) ++ " = global i64 0\n"

/-- The format of a variable. -/
def formatText (name : String) : String :=
  formatName name ++ " = constant " ++ formatType name ++ " c" ++ quoted (formatBytes name) ++ "\n"

/-- A module as text, if all its blocks have an end. -/
def Module.text? (m : Module) : Option String := do
  let n := ({} : Numbering).addAll 0 (unnamedFrom 0 m.blocks)
  let blocks ← blockTexts? n (blockLabels n 0 m.blocks).toArray 0 m.blocks
  let declarations := String.join (m.globals.map variableText) ++
    String.join (m.globals.map formatText)
  return declarations ++ (if m.globals.isEmpty then "" else "\n") ++
    "declare i32 @printf(i8* %format, ...)\n\ndefine i32 @main() \x7b\n" ++
    "\n".intercalate blocks ++ "\x7d\n"

end ThreeAddress.Llvm
