import ThreeAddress.Text.Quoted

/-!
# Numbers and truth values in text

A decimal number is an optional sign and at least one ASCII digit, and must fit in 64 signed bits.
The digits are read from the left, so a text whose digits already exceed 64 bits is out of range
whatever stands after them.
-/

namespace ThreeAddress.Text

/-- Why a text is not a 64-bit decimal number. -/
inductive NumberFault
  | malformed
  | outOfRange
  deriving DecidableEq, Repr

/-- The wording of a fault in a number. -/
def NumberFault.message : NumberFault → String
  | .malformed => "invalid syntax"
  | .outOfRange => "value out of range"

/-- The least number that 64 signed bits cannot hold. -/
abbrev signedBound : Nat := 9223372036854775808

/-- Reads digits from the left into 64 unsigned bits. -/
def readDigits (acc : Nat) : List Char → Except NumberFault Nat
  | [] => .ok acc
  | c :: cs =>
    if c.isDigit then
      let next := 10 * acc + (c.toNat - '0'.toNat)
      if next < UInt64.size then readDigits next cs else .error .outOfRange
    else .error .malformed

/-- Reads at least one digit. -/
def readNatural : List Char → Except NumberFault Nat
  | [] => .error .malformed
  | c :: cs => readDigits 0 (c :: cs)

/-- Reads a signed 64-bit decimal number. -/
def readInt64 (s : String) : Except NumberFault Int64 :=
  match s.toList with
  | '-' :: cs =>
    match readNatural cs with
    | .ok n => if n ≤ signedBound then .ok (Int64.ofInt (-(n : Int))) else .error .outOfRange
    | .error e => .error e
  | cs =>
    match readNatural (if cs.head? = some '+' then cs.tail else cs) with
    | .ok n => if n < signedBound then .ok (Int64.ofNat n) else .error .outOfRange
    | .error e => .error e

/-- Reads a truth value: one of the usual spellings of true and false. -/
def readBool? (s : String) : Option Bool :=
  if ["1", "t", "T", "TRUE", "true", "True"].contains s then some true
  else if ["0", "f", "F", "FALSE", "false", "False"].contains s then some false
  else none

end ThreeAddress.Text
