/-!
# Bytes as text

Decoding of UTF-8 in which every byte that is not part of a well-formed sequence becomes one
replacement character. Overlong forms, surrogates and values above U+10FFFF are not well formed.
-/

namespace ThreeAddress.Text

/-- The character that stands for a byte that could not be decoded. -/
def replacementChar : Char := Char.ofNat 0xfffd

def isContinuation (b : UInt8) : Bool := 0x80 ≤ b && b ≤ 0xbf

/-- The six payload bits of a continuation byte. -/
def payload (b : UInt8) : Nat := b.toNat - 0x80

/-- Whether two bytes form a well-formed sequence. -/
def isPair (a b : UInt8) : Bool :=
  0xc2 ≤ a && a ≤ 0xdf && isContinuation b

/-- Whether two bytes begin a well-formed sequence of three bytes. -/
def beginsTriple (a b : UInt8) : Bool :=
  0xe0 ≤ a && a ≤ 0xef && (if a == 0xe0 then 0xa0 else 0x80) ≤ b &&
    b ≤ (if a == 0xed then 0x9f else 0xbf)

/-- Whether two bytes begin a well-formed sequence of four bytes. -/
def beginsQuad (a b : UInt8) : Bool :=
  0xf0 ≤ a && a ≤ 0xf4 && (if a == 0xf0 then 0x90 else 0x80) ≤ b &&
    b ≤ (if a == 0xf4 then 0x8f else 0xbf)

/-- The characters that a list of bytes encodes. -/
def decodeUtf8 : List UInt8 → List Char
  | a :: b :: c :: d :: rest =>
    if a < 0x80 then Char.ofNat a.toNat :: decodeUtf8 (b :: c :: d :: rest)
    else if isPair a b then
      Char.ofNat ((a.toNat - 0xc0) * 64 + payload b) :: decodeUtf8 (c :: d :: rest)
    else if beginsTriple a b && isContinuation c then
      Char.ofNat (((a.toNat - 0xe0) * 64 + payload b) * 64 + payload c) :: decodeUtf8 (d :: rest)
    else if beginsQuad a b && isContinuation c && isContinuation d then
      Char.ofNat ((((a.toNat - 0xf0) * 64 + payload b) * 64 + payload c) * 64 + payload d) ::
        decodeUtf8 rest
    else replacementChar :: decodeUtf8 (b :: c :: d :: rest)
  | a :: b :: c :: [] =>
    if a < 0x80 then Char.ofNat a.toNat :: decodeUtf8 [b, c]
    else if isPair a b then Char.ofNat ((a.toNat - 0xc0) * 64 + payload b) :: decodeUtf8 [c]
    else if beginsTriple a b && isContinuation c then
      [Char.ofNat (((a.toNat - 0xe0) * 64 + payload b) * 64 + payload c)]
    else replacementChar :: decodeUtf8 [b, c]
  | a :: b :: [] =>
    if a < 0x80 then Char.ofNat a.toNat :: decodeUtf8 [b]
    else if isPair a b then [Char.ofNat ((a.toNat - 0xc0) * 64 + payload b)]
    else replacementChar :: decodeUtf8 [b]
  | a :: [] => [if a < 0x80 then Char.ofNat a.toNat else replacementChar]
  | [] => []

/-- The first character that a list of bytes encodes, and the bytes after it. -/
def decodeFirst? (bytes : List UInt8) : Option (Char × List UInt8) :=
  match decodeUtf8 (bytes.take 4) with
  | [] => none
  | c :: _ =>
    if c == replacementChar && bytes.take 3 != [0xef, 0xbf, 0xbd] then some (c, bytes.drop 1)
    else some (c, bytes.drop c.utf8Size)

end ThreeAddress.Text
