/-!
# Types of variables

A variable holds a number or a truth value.
-/

namespace ThreeAddress

/-- The type of a variable or an expression. -/
inductive ValueType
  | num
  | bool
  deriving DecidableEq, Repr, Inhabited

namespace ValueType

/-- The keyword of a type. -/
def name : ValueType → String
  | num => "num"
  | bool => "bool"

/-- The type that a declaration names: `bool` is the type of truth values, and every other word
means a number. -/
def ofKeyword (s : String) : ValueType :=
  if s = "bool" then bool else num

end ValueType

end ThreeAddress
