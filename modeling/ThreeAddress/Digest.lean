/-!
# Digests

The 64-bit xxHash of a list of bytes, with seed zero. Bytes are read eight at a time, the first in
the lowest place. Four words at a time go into four lanes, which are then merged; what is left over
goes in one by one.
-/

namespace ThreeAddress.Digest

def prime1 : UInt64 := 11400714785074694791

def prime2 : UInt64 := 14029467366897019727

def prime3 : UInt64 := 1609587929392839161

def prime4 : UInt64 := 9650029242287828579

def prime5 : UInt64 := 2870177450012600261

/-- Rotates a word to the left, by less than 64. -/
def rotate (x n : UInt64) : UInt64 :=
  (x <<< n) ||| (x >>> (64 - n))

/-- The number that bytes stand for, the first in the lowest place. -/
def littleEndian : List UInt8 → UInt64
  | [] => 0
  | b :: bs => b.toUInt64 ||| (littleEndian bs <<< 8)

/-- The words of eight bytes, and the bytes left over. -/
def words : List UInt8 → List UInt64 × List UInt8
  | a :: b :: c :: d :: e :: f :: g :: h :: rest =>
    let (ws, left) := words rest
    (littleEndian [a, b, c, d, e, f, g, h] :: ws, left)
  | bytes => ([], bytes)

/-- Takes a word into a lane. -/
def round (lane word : UInt64) : UInt64 :=
  rotate (lane + word * prime2) 31 * prime1

/-- The four lanes. -/
structure Lanes where
  a : UInt64 := prime1 + prime2
  b : UInt64 := prime2
  c : UInt64 := 0
  d : UInt64 := 0 - prime1

/-- Takes words into the lanes, four at a time, and returns the words left over. -/
def stripes (l : Lanes) : List UInt64 → Lanes × List UInt64
  | w :: x :: y :: z :: rest => stripes ⟨round l.a w, round l.b x, round l.c y, round l.d z⟩ rest
  | ws => (l, ws)

/-- Merges a lane into the digest. -/
def mergeLane (h lane : UInt64) : UInt64 :=
  (h ^^^ round 0 lane) * prime1 + prime4

def Lanes.merge (l : Lanes) : UInt64 :=
  let h := rotate l.a 1 + rotate l.b 7 + rotate l.c 12 + rotate l.d 18
  mergeLane (mergeLane (mergeLane (mergeLane h l.a) l.b) l.c) l.d

/-- Takes in a word that no lane took. -/
def takeWord (h word : UInt64) : UInt64 :=
  rotate (h ^^^ round 0 word) 27 * prime1 + prime4

def takeHalf (h half : UInt64) : UInt64 :=
  rotate (h ^^^ (half * prime1)) 23 * prime2 + prime3

def takeByte (h : UInt64) (b : UInt8) : UInt64 :=
  rotate (h ^^^ (b.toUInt64 * prime5)) 11 * prime1

/-- Takes in fewer than eight bytes. -/
def takeBytes (h : UInt64) : List UInt8 → UInt64
  | a :: b :: c :: d :: rest => rest.foldl takeByte (takeHalf h (littleEndian [a, b, c, d]))
  | bytes => bytes.foldl takeByte h

/-- Spreads the bits of the digest. -/
def finish (h : UInt64) : UInt64 :=
  let h := (h ^^^ (h >>> 33)) * prime2
  let h := (h ^^^ (h >>> 29)) * prime3
  h ^^^ (h >>> 32)

def ofBytes (bytes : List UInt8) : UInt64 :=
  let (ws, left) := words bytes
  let (lanes, ws) := stripes {} ws
  let start := if bytes.length < 32 then prime5 else lanes.merge
  finish (takeBytes (ws.foldl takeWord (start + bytes.length.toUInt64)) left)

/-- The digest of a text in hexadecimal, without leading zeros. -/
def ofText (s : String) : String :=
  String.ofList (Nat.toDigits 16 (ofBytes s.toUTF8.data.toList).toNat)

end ThreeAddress.Digest
