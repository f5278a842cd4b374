/-!
# Tokens

A token has a kind, the text it carries (the name of an identifier, the digits of a number, the
message of an illegal token; nothing for the others), and its place: the file, the line and column
of its first character counted from one, and its length in characters.

Kinds are numbered. A number outside the table is a kind too, which no source text produces and
which is spelled `unknown`.
-/

namespace ThreeAddress

/-- The kinds of token. -/
inductive TokenKind
  | endOfFile
  | illegal
  | identifier
  | number
  | kwNum
  | kwBool
  | kwTrue
  | kwFalse
  | kwIf
  | kwElse
  | kwWhile
  | kwSwitch
  | kwCase
  | kwDefault
  | leftParen
  | rightParen
  | leftBrace
  | rightBrace
  | semicolon
  | comma
  | colon
  | assign
  | plus
  | minus
  | star
  | slash
  | percent
  | equal
  | notEqual
  | less
  | greater
  | lessEqual
  | greaterEqual
  | andAnd
  | orOr
  | bang
  | unknown (number : Int)
  deriving DecidableEq, Repr, Inhabited

namespace TokenKind

/-- The kinds with a number of their own, in the order of their numbers. -/
def table : List TokenKind :=
  [endOfFile, illegal, identifier, number, kwNum, kwBool, kwTrue, kwFalse, kwIf, kwElse, kwWhile,
    kwSwitch, kwCase, kwDefault, leftParen, rightParen, leftBrace, rightBrace,
    semicolon, comma, colon,
    assign, plus, minus, star, slash, percent, equal, notEqual, less, greater,
    lessEqual, greaterEqual,
    andAnd, orOr, bang]

/-- The kind with a given number. -/
def ofNumber (n : Int) : TokenKind :=
  if n < 0 then unknown n else (table[n.toNat]?).getD (unknown n)

/-- The number of a kind. -/
def toNumber : TokenKind → Int
  | unknown n => n
  | k => (table.idxOf k : Nat)

/-- How a kind is spelled: keywords and signs as in source text, the others by a description. -/
def spelling : TokenKind → String
  | endOfFile => "end of file"
  | illegal => "illegal token"
  | identifier => "identifier"
  | number => "number"
  | kwNum => "num"
  | kwBool => "bool"
  | kwTrue => "true"
  | kwFalse => "false"
  | kwIf => "if"
  | kwElse => "else"
  | kwWhile => "while"
  | kwSwitch => "switch"
  | kwCase => "case"
  | kwDefault => "default"
  | leftParen => "("
  | rightParen => ")"
  | leftBrace => "\x7b"
  | rightBrace => "\x7d"
  | semicolon => ";"
  | comma => ","
  | colon => ":"
  | assign => "="
  | plus => "+"
  | minus => "-"
  | star => "*"
  | slash => "/"
  | percent => "%"
  | equal => "=="
  | notEqual => "!="
  | less => "<"
  | greater => ">"
  | lessEqual => "<="
  | greaterEqual => ">="
  | andAnd => "&&"
  | orOr => "||"
  | bang => "!"
  | unknown _ => "unknown"

/-- The kinds of the keywords. -/
def keywords : List TokenKind :=
  [kwNum, kwBool, kwTrue, kwFalse, kwIf, kwElse, kwWhile, kwSwitch, kwCase, kwDefault]

/-- The keyword that a word spells, if it spells one. -/
def ofKeyword? (word : String) : Option TokenKind :=
  keywords.find? fun k => k.spelling == word

/-- A comparison sign. -/
def isRelation : TokenKind → Bool
  | equal | notEqual | less | greater | lessEqual | greaterEqual => true
  | _ => false

/-- A sign that joins the terms of a sum. -/
def isAdditive : TokenKind → Bool
  | plus | minus => true
  | _ => false

/-- A sign that joins the factors of a product. -/
def isMultiplicative : TokenKind → Bool
  | star | slash | percent => true
  | _ => false

/-- A sign that joins the conditions of a logical chain. -/
def isLogical : TokenKind → Bool
  | orOr | andAnd => true
  | _ => false

end TokenKind

/-- A token with its text and its place. -/
structure Token where
  kind : TokenKind := .endOfFile
  value : String := ""
  file : Int := 0
  line : Int := 0
  column : Int := 0
  length : Int := 0
  deriving DecidableEq, Repr, Inhabited

end ThreeAddress
