import ThreeAddress.Files.Path
import ThreeAddress.Text.Utf8

/-!
# Patterns for paths

In a pattern a star stands for any bytes, a question mark for one character, a class in brackets for
one character, and a backslash takes away the meaning of what follows it. Slashes divide a pattern
into components, each of which is matched with the names in a directory. A star may skip single
bytes, so matching works on bytes.
-/

namespace ThreeAddress

/-- A part of a pattern. -/
inductive PatternItem
  | star
  | any
  | byte (value : UInt8)
  | oneOf (negated : Bool) (ranges : List (Char × Char))
  deriving DecidableEq, Repr

namespace Pattern

/-- The byte of an ASCII character. -/
def ascii (c : Char) : UInt8 := c.toNat.toUInt8

/-- What of a pattern is being read. -/
inductive Reading
  | plain
  /-- After a backslash. -/
  | escaped
  /-- In a class, at the beginning of a range; `first` if a circumflex would negate it. -/
  | range (first negated : Bool) (ranges : List (Char × Char))
  /-- In a class, after a backslash at the beginning of a range. -/
  | rangeEscaped (negated : Bool) (ranges : List (Char × Char))
  /-- In a class, after the lower end of a range. -/
  | rangeLow (low : Char) (negated : Bool) (ranges : List (Char × Char))
  /-- In a class, after the hyphen of a range. -/
  | rangeHyphen (low : Char) (negated : Bool) (ranges : List (Char × Char))
  /-- In a class, after a backslash at the upper end of a range. -/
  | rangeHighEscaped (low : Char) (negated : Bool) (ranges : List (Char × Char))
  /-- In a class, after the upper end of a range. -/
  | rangeHigh (negated : Bool) (ranges : List (Char × Char))
  deriving DecidableEq, Repr

/-- What a character adds to a pattern and what is being read after it; none if it cannot stand
there. -/
def readChar : Reading → Char → Option (List PatternItem × Reading)
  | .plain, c =>
    if c = '*' then some ([.star], .plain)
    else if c = '?' then some ([.any], .plain)
    else if c = '\\' then some ([], .escaped)
    else if c = '[' then some ([], .range true false [])
    else some ((String.singleton c).toUTF8.data.toList.map .byte, .plain)
  | .escaped, c => some ((String.singleton c).toUTF8.data.toList.map .byte, .plain)
  | .range first negated ranges, c =>
    if first ∧ c = '^' then some ([], .range false true ranges)
    else if c = ']' ∧ !ranges.isEmpty then some ([.oneOf negated ranges], .plain)
    else if c = ']' ∨ c = '-' then none
    else if c = '\\' then some ([], .rangeEscaped negated ranges)
    else some ([], .rangeLow c negated ranges)
  | .rangeEscaped negated ranges, c => some ([], .rangeLow c negated ranges)
  | .rangeLow low negated ranges, c =>
    if c = '-' then some ([], .rangeHyphen low negated ranges)
    else if c = ']' then some ([.oneOf negated ((low, low) :: ranges)], .plain)
    else if c = '\\' then some ([], .rangeEscaped negated ((low, low) :: ranges))
    else some ([], .rangeLow c negated ((low, low) :: ranges))
  | .rangeHyphen low negated ranges, c =>
    if c = ']' ∨ c = '-' then none
    else if c = '\\' then some ([], .rangeHighEscaped low negated ranges)
    else some ([], .rangeHigh negated ((low, c) :: ranges))
  | .rangeHighEscaped low negated ranges, c => some ([], .rangeHigh negated ((low, c) :: ranges))
  | .rangeHigh negated ranges, c =>
    if c = ']' then some ([.oneOf negated ranges], .plain)
    else if c = '-' then none
    else if c = '\\' then some ([], .rangeEscaped negated ranges)
    else some ([], .rangeLow c negated ranges)

/-- The parts of a pattern, if it is well formed. -/
def readFrom? (r : Reading) : List Char → Option (List PatternItem)
  | [] => if r = .plain then some [] else none
  | c :: cs => do
    let (items, r) ← readChar r c
    let rest ← readFrom? r cs
    return items ++ rest

/-- The parts of a pattern, if it is well formed. -/
def parse? (pattern : String) : Option (List PatternItem) :=
  readFrom? .plain pattern.toList

/-- All ends of a list, the longest first. -/
def ends : List UInt8 → List (List UInt8)
  | [] => [[]]
  | b :: bytes => (b :: bytes) :: ends bytes

/-- What can be left of a name after one more part of a pattern, given what can be left before it,
the longest first in both. -/
def advance (left : List (List UInt8)) : PatternItem → List (List UInt8)
  | .star =>
    match left with
    | [] => []
    | longest :: _ => ends longest
  | .any => left.filterMap fun name => (Text.decodeFirst? name).map Prod.snd
  | .byte b => left.filterMap fun
    | c :: rest => if b = c then some rest else none
    | [] => none
  | .oneOf negated ranges => left.filterMap fun name => do
    let (c, rest) ← Text.decodeFirst? name
    if (ranges.any fun r => decide (r.1 ≤ c ∧ c ≤ r.2)) = negated then none else some rest

/-- Whether the name of an entry, in which there is no slash, matches the parts of a pattern. -/
def isMatch (items : List PatternItem) (name : List UInt8) : Bool :=
  (items.foldl advance [name]).any List.isEmpty

/-- Whether a text contains anything special to patterns. -/
def isSpecial (s : String) : Bool :=
  s.toList.any fun c => c = '*' || c = '?' || c = '[' || c = '\\'

/-- The paths of the names in a directory that match. -/
def matchesIn (fs : Files) (workingDirectory : Location) (items : List PatternItem)
    (directory : String) : List String :=
  ((fs.names workingDirectory directory).filter fun n => isMatch items n.toUTF8.data.toList).map
    (Path.join directory)

/-- The directory that components stand for. -/
def directoryText : List String → String
  | [] => "."
  | components =>
    let text := "/".intercalate components
    if text = "" then "/" else text

/-- How many components a pattern may have from its first special one on. -/
def maxComponents : Nat := 10000

/-- The paths that match a pattern, by name; none if one of its components is not well formed or it
has too many of them. The components before the first special one are taken as they are. -/
def expand? (fs : Files) (workingDirectory : Location) (pattern : String) :
    Option (List String) := do
  let components := pattern.splitOn "/"
  let plain := components.takeWhile fun c => !isSpecial c
  let special ← (components.dropWhile fun c => !isSpecial c).mapM parse?
  if special.isEmpty then
    return if (fs.stat workingDirectory pattern).isOk then [pattern] else []
  else if special.length > maxComponents then none
  else
    return special.foldl
      (fun directories items => directories.flatMap (matchesIn fs workingDirectory items))
      [directoryText plain]

end Pattern

end ThreeAddress
