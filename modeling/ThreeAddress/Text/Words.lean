/-!
# Words and lines

The words of a text are its longest runs of characters other than white space. Wrapping puts the
words on lines greedily: a word stays on the current line as long as the line, measured in bytes,
does not grow beyond the width.
-/

namespace ThreeAddress.Text

/-- White space in the sense of Unicode. -/
def isBlank (c : Char) : Bool :=
  let n := c.toNat
  (0x09 ≤ n && n ≤ 0x0d) || n == 0x20 || n == 0x85 || n == 0xa0 || n == 0x1680 ||
    (0x2000 ≤ n && n ≤ 0x200a) || n == 0x2028 || n == 0x2029 || n == 0x202f || n == 0x205f ||
    n == 0x3000

/-- Puts a word in front of the words after it, unless it is empty. -/
def consWord (w : List Char) (ws : List String) : List String :=
  if w.isEmpty then ws else String.ofList w :: ws

/-- The word that begins a text, possibly empty, and the words after it. -/
def splitWords : List Char → List Char × List String
  | [] => ([], [])
  | c :: cs =>
    let (w, ws) := splitWords cs
    if isBlank c then ([], consWord w ws) else (c :: w, ws)

/-- The words of a text, in order. -/
def words (s : String) : List String :=
  let (w, ws) := splitWords s.toList
  consWord w ws

/-- The lines made of an unfinished line and the words that follow it. -/
def fillLines (width : Int) (line : String) : List String → List String
  | [] => [line]
  | w :: ws =>
    if (line.utf8ByteSize : Int) + 1 + w.utf8ByteSize > width then line :: fillLines width w ws
    else fillLines width (line ++ " " ++ w) ws

/-- The words of a text on lines of at most `width` bytes; a longer word has a line of its own. A
width that is not positive puts every word on its own line. -/
def wrap (s : String) (width : Int) : List String :=
  match words s with
  | [] => []
  | w :: ws => if width ≤ 0 then w :: ws else fillLines width w ws

/-- The greatest width that a text is filled up to. -/
def widestColumn : Int := 1000000

/-- A text filled up with spaces on the right to a number of characters. A width that is too great
is not used and a note says so. -/
def padRight (width : Int) (s : String) : String :=
  if width > widestColumn then "%!(BADWIDTH)" ++ s
  else s ++ String.ofList (List.replicate (width - s.length).toNat ' ')

end ThreeAddress.Text
