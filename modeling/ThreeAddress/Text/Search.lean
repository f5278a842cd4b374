/-!
# Searching in text
-/

namespace ThreeAddress.Text

/-- Whether one list of characters occurs in another. -/
def occursIn (part : List Char) : List Char → Bool
  | [] => part.isEmpty
  | c :: cs => part.isPrefixOf (c :: cs) || occursIn part cs

/-- Whether one text occurs in another. -/
def contains (s part : String) : Bool :=
  occursIn part.toList s.toList

end ThreeAddress.Text
