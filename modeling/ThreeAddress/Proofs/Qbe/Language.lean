import ThreeAddress.Proofs.Machine.Target

/-!
# The intermediate language of QBE

As much of the language as a module of one function needs: data that holds 64-bit words and texts,
and a function `main` of labels, loads and stores of data words, computations on temporaries, jumps,
calls of `printf`, and returns. A name is whatever follows its sigil up to the next sign or white
space.

`Il.read` reads a text: its characters make tokens (`lexFrom`), the tokens of a line make an item
(`Item.ofTokens?`), and the items make a module (`assemble?`), whose lines must form blocks with a
label each (`Module.Valid`). `Module.step` executes a line. It has no result where the language
leaves the meaning open: for a temporary that was not assigned, for a label or data that is not
there, and for divisions by zero and of the least word by -1.
-/

namespace ThreeAddress.Il

/-! ## Tokens -/

/-- The words with a fixed meaning. -/
inductive Keyword
  | data
  | exported
  | function
  /-- The class of 64-bit words. -/
  | long
  /-- The class of 32-bit words. -/
  | word
  | byte
  | loadl
  | storel
  | jmp
  | jnz
  | ret
  | call
  /-- The sign before the variable arguments of a call. -/
  | dots
  | operation (op : Opcode)
  deriving DecidableEq, Repr

/-- How the keywords are written. -/
def keywords : List (String × Keyword) :=
  [("data", .data), ("export", .exported), ("function", .function), ("l", .long),
    ("w", .word), ("b", .byte),
    ("loadl", .loadl), ("storel", .storel), ("jmp", .jmp), ("jnz", .jnz),
    ("ret", .ret), ("call", .call),
    ("...", .dots), ("copy", .operation .copy), ("neg", .operation .neg), ("add", .operation .add),
    ("sub", .operation .sub), ("mul", .operation .mul), ("div", .operation .div),
    ("rem", .operation .rem),
    ("ceql", .operation .eq), ("cnel", .operation .ne), ("csltl", .operation .lt),
    ("csgtl", .operation .gt), ("cslel", .operation .le), ("csgel", .operation .ge)]

/-- The tokens of a text. -/
inductive Token
  | temp (name : String)
  | symbol (name : String)
  | label (name : String)
  | keyword (keyword : Keyword)
  | number (value : Int64)
  /-- A text in double quotes. -/
  | quoted (text : String)
  /-- A sign of one character, or the end of a line. -/
  | sign (c : Char)
  /-- What is none of these. -/
  | broken
  deriving DecidableEq, Repr

/-- The token of a word: the first character can be a sigil. -/
def Token.ofWord : List Char → Token
  | '%' :: cs => .temp (.ofList cs)
  | '$' :: cs => .symbol (.ofList cs)
  | '@' :: cs => .label (.ofList cs)
  | cs =>
    match keywords.lookup (.ofList cs) with
    | some k => .keyword k
    | none =>
      match Text.readInt64 (.ofList cs) with
      | .ok w => .number w
      | .error _ => .broken

/-- What a character makes that cannot stand in a word: nothing if it is blank, else a sign. -/
def separator? (c : Char) : Option (List Token) :=
  if c = ' ' ∨ c = '\t' then some []
  else if c = '\n' ∨ c = '=' ∨ c = ',' ∨ c = '(' ∨ c = ')' ∨ c = '{' ∨ c = '}' then some [.sign c]
  else none

/-- What is under way when a text is read, with its characters so far, the last one in front. -/
inductive Mode
  | between
  | word (before : List Char)
  | quoted (before : List Char)
  /-- After a backslash in a quoted text. -/
  | escaped (before : List Char)
  deriving DecidableEq, Repr

/-- The character that an escape stands for. -/
def unescape : Char → Char
  | 'n' => '\n'
  | 't' => '\t'
  | c => c

/-- The tokens of a text from a place on. -/
def lexFrom : Mode → List Char → List Token
  | .between, [] => []
  | .word before, [] => [.ofWord before.reverse]
  | .quoted _, [] | .escaped _, [] => [.broken]
  | .between, c :: cs =>
    match separator? c with
    | some tokens => tokens ++ lexFrom .between cs
    | none => if c = '"' then lexFrom (.quoted []) cs else lexFrom (.word [c]) cs
  | .word before, c :: cs =>
    match separator? c with
    | some tokens => .ofWord before.reverse :: (tokens ++ lexFrom .between cs)
    | none => lexFrom (.word (c :: before)) cs
  | .quoted before, c :: cs =>
    if c = '"' then .quoted (.ofList before.reverse) :: lexFrom .between cs
    else if c = '\\' then lexFrom (.escaped before) cs
    else lexFrom (.quoted (c :: before)) cs
  | .escaped before, c :: cs => lexFrom (.quoted (unescape c :: before)) cs

/-! ## Modules -/

/-- What an operation reads. -/
inductive Value
  | const (value : Int64)
  | temp (name : String)
  deriving DecidableEq, Repr

/-- A line of the function. -/
inductive Line
  | label (name : String)
  | load (dst symbol : String)
  | store (value : Value) (symbol : String)
  /-- An operation on 64-bit words. -/
  | compute (dst : String) (op : Opcode) (args : List Value)
  /-- A comparison of 64-bit words. -/
  | compare (dst : String) (op : Opcode) (left right : Value)
  | jump (label : String)
  | branch (test : Value) (nonzero zero : String)
  /-- A call of `printf` with a format and one argument. -/
  | print (format : String) (value : Value)
  | ret (value : Value)
  deriving DecidableEq, Repr

/-- What a symbol stands for. -/
inductive Data
  | word (value : Int64)
  | text (content : String)
  deriving DecidableEq, Repr

/-- A module: its data and the lines of its function. -/
structure Module where
  data : List (String × Data)
  body : List Line
  deriving DecidableEq, Repr

/-- The value that a token stands for. -/
def Value.ofToken? : Token → Option Value
  | .temp t => some (.temp t)
  | .number w => some (.const w)
  | _ => none

/-- Values with commas between them. -/
def Value.listOf? : List Token → Option (List Value)
  | [v] => do
    let value ← Value.ofToken? v
    return [value]
  | v :: .sign ',' :: rest => do
    let value ← Value.ofToken? v
    let values ← listOf? rest
    return value :: values
  | _ => none

/-- The line of the function that tokens stand for. -/
def Line.ofTokens? : List Token → Option Line
  | [.label l] => some (.label l)
  | [.temp t, .sign '=', .keyword .long, .keyword .loadl, .symbol x] => some (.load t x)
  | [.keyword .storel, v, .sign ',', .symbol x] => do
    let value ← Value.ofToken? v
    return .store value x
  | .temp t :: .sign '=' :: .keyword .long :: .keyword (.operation op) :: args => do
    let values ← Value.listOf? args
    return .compute t op values
  | [.temp t, .sign '=', .keyword .word, .keyword (.operation op), v, .sign ',', w] => do
    let left ← Value.ofToken? v
    let right ← Value.ofToken? w
    return .compare t op left right
  | [.keyword .jmp, .label l] => some (.jump l)
  | [.keyword .jnz, v, .sign ',', .label t, .sign ',', .label f] => do
    let value ← Value.ofToken? v
    return .branch value t f
  | [.keyword .call, .symbol "printf", .sign '(', .keyword .long, .symbol format,
      .sign ',', .keyword .dots, .sign ',', .keyword .long, v, .sign ')'] => do
    let value ← Value.ofToken? v
    return .print format value
  | [.keyword .ret, v] => do
    let value ← Value.ofToken? v
    return .ret value
  | _ => none

/-- What a line of a text contributes to a module. -/
inductive Item
  | data (symbol : String) (data : Data)
  | opening
  | line (line : Line)
  | closing
  deriving DecidableEq, Repr

/-- The item that the tokens of a line stand for; an empty line has none. -/
def Item.ofTokens? : List Token → Option (List Item)
  | [] => some []
  | [.keyword .data, .symbol x, .sign '=', .sign '{', .keyword .long, .number w, .sign '}'] =>
    some [.data x (.word w)]
  | [.keyword .data, .symbol x, .sign '=', .sign '{', .keyword .byte, .quoted s,
      .sign ',', .keyword .byte,
      .number w, .sign '}'] => if w = 0 then some [.data x (.text s)] else none
  | [.keyword .exported, .keyword .function, .keyword .word, .symbol "main", .sign '(',
      .sign ')', .sign '{'] =>
    some [.opening]
  | [.sign '}'] => some [.closing]
  | tokens => do
    let line ← Line.ofTokens? tokens
    return [.line line]

/-- The items of a text whose tokens on the line under way, the last one in front, are given. -/
def itemsFrom (before : List Token) : List Token → Option (List Item)
  | [] => if before = [] then some [] else none
  | .sign '\n' :: tokens => do
    let items ← Item.ofTokens? before.reverse
    let rest ← itemsFrom [] tokens
    return items ++ rest
  | token :: tokens => itemsFrom (token :: before) tokens

/-- The lines up to the end of the function, which is the end of the module. -/
def bodyOf? : List Item → Option (List Line)
  | [.closing] => some []
  | .line l :: items => (bodyOf? items).map (l :: ·)
  | _ => none

/-- The module that items make: data, and then the function. -/
def assemble? : List Item → Option Module
  | .data x d :: items => (assemble? items).map fun m => { m with data := (x, d) :: m.data }
  | .opening :: items => (bodyOf? items).map fun body => { data := [], body }
  | _ => none

/-- Whether a block is under way after a line; a line that cannot stand there has no result. -/
def Line.follow? (inBlock : Bool) : Line → Option Bool
  | .label _ => some true
  | .jump _ | .branch _ _ _ | .ret _ => if inBlock then some false else none
  | .load _ _ | .store _ _ | .compute _ _ _ | .compare _ _ _ _ | .print _ _ =>
    if inBlock then some true else none

/-- The label of a line. -/
def Line.label? : Line → Option String
  | .label l => some l
  | _ => none

/-- The labels that a line can lead to. -/
def Line.targets : Line → List String
  | .jump l => [l]
  | .branch _ nonzero zero => [nonzero, zero]
  | _ => []

/-- The rules for the labels and the blocks of a function. -/
structure Module.Valid (m : Module) : Prop where
  /-- Every line stands in a block, which ends with a jump or a return or leads into the next. -/
  blocks : m.body.foldlM Line.follow? false = some false
  labels : (m.body.filterMap Line.label?).Nodup
  /-- Jumps go to blocks other than the first. -/
  targets : ∀ l ∈ m.body, ∀ t ∈ l.targets, .label t ∈ m.body.tail

instance (m : Module) : Decidable m.Valid :=
  decidable_of_iff (m.body.foldlM Line.follow? false = some false ∧
    (m.body.filterMap Line.label?).Nodup ∧
    ∀ l ∈ m.body, ∀ t ∈ l.targets, .label t ∈ m.body.tail)
    ⟨fun ⟨blocks, labels, targets⟩ => ⟨blocks, labels, targets⟩, fun h =>
      ⟨h.blocks, h.labels, h.targets⟩⟩

/-- The module that a text stands for, if it keeps the rules. -/
def read (text : String) : Option Module := do
  let items ← itemsFrom [] (lexFrom .between text.toList)
  let m ← assemble? items
  if m.Valid then some m else none

/-! ## Execution -/

/-- The state of an execution. -/
structure State where
  /-- The index of the next line. -/
  next : Nat := 0
  temps : String → Option Int64 := fun _ => none
  /-- The words of the data. -/
  memory : String → Option Int64
  /-- What has been printed. -/
  output : List Char := []

/-- A function with another value for a name. -/
def set (f : String → Option Int64) (name : String) (w : Int64) : String → Option Int64 := fun x =>
  if x = name then some w else f x

/-- The value of an operand. -/
def State.value? (s : State) : Value → Option Int64
  | .const w => some w
  | .temp t => s.temps t

/-- The values of several operands. -/
def State.values? (s : State) : List Value → Option (List Int64)
  | [] => some []
  | v :: vs => do
    let x ← s.value? v
    let xs ← s.values? vs
    return x :: xs

/-- The result of an operation on 64-bit words. -/
def operate? : Opcode → List Int64 → Option Int64
  | .copy, [x] => some x
  | .neg, [x] => some (-x)
  | .add, [x, y] => some (x + y)
  | .sub, [x, y] => some (x - y)
  | .mul, [x, y] => some (x * y)
  | .div, [x, y] => if isUndefinedQuotient x y then none else some (x / y)
  | .rem, [x, y] => if isUndefinedQuotient x y then none else some (x % y)
  | _, _ => none

/-- Whether a signed comparison of 64-bit words holds. -/
def relate? : Opcode → Int64 → Int64 → Option Bool
  | .eq, x, y => some (x = y)
  | .ne, x, y => some (x ≠ y)
  | .lt, x, y => some (x < y)
  | .gt, x, y => some (y < x)
  | .le, x, y => some (x ≤ y)
  | .ge, x, y => some (y ≤ x)
  | _, _, _ => none

/-- The place of a label. -/
def Module.place? (m : Module) (label : String) : Option Nat := m.body.findIdx? (· = .label label)

/-- The text that a symbol stands for. -/
def Module.text? (m : Module) (symbol : String) : Option String :=
  match m.data.lookup symbol with
  | some (.text s) => some s
  | _ => none

/-- Executes a line that does not return. -/
def Line.exec (m : Module) (s : State) : Line → Option State
  | .label _ => some { s with next := s.next + 1 }
  | .load t x => do
    let w ← s.memory x
    return { s with next := s.next + 1, temps := set s.temps t w }
  | .store v x => do
    let w ← s.value? v
    let _ ← s.memory x
    return { s with next := s.next + 1, memory := set s.memory x w }
  | .compute t op args => do
    let xs ← s.values? args
    let w ← operate? op xs
    return { s with next := s.next + 1, temps := set s.temps t w }
  | .compare t op left right => do
    let x ← s.value? left
    let y ← s.value? right
    let holds ← relate? op x y
    return { s with next := s.next + 1, temps := set s.temps t (if holds then 1 else 0) }
  | .jump l => do
    let place ← m.place? l
    return { s with next := place }
  | .branch v nonzero zero => do
    let w ← s.value? v
    -- Only the lower half of the word counts.
    let place ← m.place? (if w.toInt32 ≠ 0 then nonzero else zero)
    return { s with next := place }
  | .print format v => do
    let w ← s.value? v
    let text ← m.text? format
    let output ← formatted? w text.toList
    return { s with next := s.next + 1, output := s.output ++ output }
  | .ret _ => none

namespace Module

/-- Executes the next line. -/
def step (m : Module) (s : State) : Option State := do
  let line ← m.body[s.next]?
  line.exec m s

/-- What the function returns in a state, if it does. -/
def returned? (m : Module) (s : State) : Option Int64 := do
  let line ← m.body[s.next]?
  match line with
  | .ret v => s.value? v
  | _ => none

/-- The state in which the function is entered. -/
def start (m : Module) : State where
  memory symbol :=
    match m.data.lookup symbol with
    | some (.word w) => some w
    | _ => none

/-- The function returns a value and has printed a text. -/
def Returns (m : Module) (value : Int64) (output : String) : Prop :=
  ∃ k s, Runs m.step k m.start s ∧ m.returned? s = some value ∧ s.output = output.toList

/-- The function can execute any number of lines. -/
def RunsForever (m : Module) : Prop := ∀ k, ∃ s, Runs m.step k m.start s

end Module

end ThreeAddress.Il
