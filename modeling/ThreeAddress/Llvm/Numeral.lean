/-!
# Numerals of LLVM constants

A constant is written in decimal, unless it is large and its hexadecimal digits are much more
uniform than its decimal ones; then it is written as `u0x` and the hexadecimal digits.
-/

namespace ThreeAddress.Llvm

/-- The digits of a number in a base up to sixteen, in upper case. -/
def digits (base n : Nat) : List Char :=
  (Nat.toDigits base n).map Char.toUpper

/-- How varied digits are: the number of different ones over the largest number that there could be.
-/
def entropy (base : Nat) (ds : List Char) : Float :=
  ds.eraseDups.length.toFloat / (min ds.length base).toFloat

/-- How varied the hexadecimal digits of a number with `count` of them may be. -/
def hexEntropyLimit (count : Nat) : Float :=
  if count < 7 then 2 / count.toFloat
  else if count < 11 then 3 / count.toFloat
  else 4 / (min count 16).toFloat

/-- Whether a number is written in hexadecimal. -/
def prefersHex (n : Nat) : Bool :=
  let hex := digits 16 n
  let h := entropy 16 hex
  4096 ≤ n && h ≤ hexEntropyLimit hex.length + 0.01 && entropy 10 (digits 10 n) ≥ h + 0.2

/-- A constant as text. -/
def numeral (v : Int64) : String :=
  if 0 ≤ v && prefersHex v.toInt.toNat then "u0x" ++ String.ofList (digits 16 v.toInt.toNat)
  else toString v.toInt

end ThreeAddress.Llvm
