import ThreeAddress.Parser.Error

/-!
# Reading tokens by position

A cursor walks over an array of tokens. It holds an index, the token there and the token before it,
and it stays on the last token once it has got there. That token marks the end of the file: where
the tokens lack such a mark, one is added behind them.

A reading moves a cursor. It ends with a result or it halts: at a syntax error, where a token is
asked for outside the array, or where a loop has gone round too often. Loops, and calls that lead
back to themselves, are given a number of rounds; there is a round for every token, and each goes
past one.
-/

namespace ThreeAddress

/-- How a reading ends without a result. -/
inductive Halt
  | fault (e : ParseError)
  /-- A token was asked for at an index where there is none. -/
  | outOfRange
  /-- The rounds of a loop, or the calls inside a call, are used up. -/
  | exhausted
  deriving DecidableEq, Repr

/-- A place in an array of tokens. -/
structure Cursor where
  tokens : Array Token
  pos : Nat := 0
  current : Token
  previous : Token := {}

/-- The token at an index. -/
def tokenAt (tokens : Array Token) (i : Nat) : Except Halt Token :=
  match tokens[i]? with
  | some t => .ok t
  | none => .error .outOfRange

/-- Whether the last token marks the end of the file. -/
def isTerminated (tokens : Array Token) : Except Halt Bool := do
  if tokens.isEmpty then return false
  else return (← tokenAt tokens (tokens.size - 1)).kind = .endOfFile

/-- The place of the first token. -/
def Cursor.start (tokens : Array Token) : Except Halt Cursor := do
  let tokens := if ← isTerminated tokens then tokens else tokens.push {}
  return { tokens, current := ← tokenAt tokens 0 }

/-- A reading of tokens. -/
abbrev Read := StateT Cursor (Except Halt)

namespace Read

/-- Halts at a token with something wrong about it. -/
def fail {α : Type} (t : Token) (fault : ParseFault) : Read α :=
  throw (.fault ⟨t, fault⟩)

/-- Halts where no rounds are left. -/
def exhausted {α : Type} : Read α :=
  throw .exhausted

/-- Halts if the current token is illegal. -/
def refuseIllegal : Read Unit := do
  let t := (← get).current
  if t.kind = .illegal then fail t (.illegal t.value)

/-- Goes on to the next token, if there is one. -/
def advance : Read Unit := do
  let p ← get
  if p.pos < p.tokens.size - 1 then
    let next ← tokenAt p.tokens (p.pos + 1)
    set { p with pos := p.pos + 1, current := next, previous := p.current }
  refuseIllegal

/-- Whether the current token is of certain kinds. -/
def check (kinds : TokenKind → Bool) : Read Bool := do
  refuseIllegal
  return kinds (← get).current.kind

/-- Goes past the current token if it is of a kind, and tells whether it is. -/
def accept (kind : TokenKind) : Read Bool := do
  if ← check (· = kind) then
    advance
    return true
  else return false

/-- Goes past the current token, which has to be of a kind, and returns it. -/
def expect (kind : TokenKind) (fault : ParseFault) : Read Token := do
  if ← check (· = kind) then
    advance
    return (← get).previous
  else fail (← get).current fault

end Read

end ThreeAddress
