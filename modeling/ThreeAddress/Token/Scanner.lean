import ThreeAddress.Settings
import ThreeAddress.Text.Alphabet
import ThreeAddress.Token

/-!
# Scanning

A source text is read from left to right. At each place where no lexeme is under way, `Lexeme.read`
looks at the text ahead and finds either a gap (white space or a comment) or a word that makes a
token, with the number of characters it takes; those characters are then passed over one by one, and
the position moves with every one of them. The last token marks the end of the text.

Malformed text makes an illegal token that carries the message. A block comment that is never closed
is an illegal token of the length of its opening sign, and takes all the text that is left.
-/

namespace ThreeAddress

/-- A place in a text, counted from one. -/
structure Position where
  line : Nat := 1
  column : Nat := 1
  deriving DecidableEq, Repr

/-- The place after a character. -/
def Position.next (p : Position) (c : Char) : Position :=
  if c = '\n' then { line := p.line + 1, column := 1 } else { p with column := p.column + 1 }

/-- What stands at a place of a text. -/
inductive Lexeme
  /-- White space or a comment. -/
  | gap (width : Nat)
  /-- The characters of one token. -/
  | word (kind : TokenKind) (value : String) (width : Nat)
  /-- A block comment without an end. -/
  | unclosed
  deriving DecidableEq, Repr

namespace Lexeme

/-- The number of characters up to the end of a block comment, that end included. -/
def commentEnd? : List Char → Option Nat
  | [] => none
  | '*' :: '/' :: _ => some 2
  | _ :: cs => (commentEnd? cs).map (· + 1)

/-- The word of letters, digits and underscores that starts with a letter. -/
def name (c : Char) (rest : List Char) : Lexeme :=
  let text := c :: rest.takeWhile Text.isWordChar
  let value := String.ofList text
  match TokenKind.ofKeyword? value with
  | some k => word k "" text.length
  | none => word .identifier value text.length

/-- The digits of a number; letters or underscores may not follow them directly. -/
def number (c : Char) (rest : List Char) : Lexeme :=
  let digits := c :: rest.takeWhile Text.isDigit
  match (rest.dropWhile Text.isDigit).head? with
  | some d =>
    if Text.isWordChar d then
      let text := c :: rest.takeWhile Text.isWordChar
      word .illegal ("invalid number literal: " ++ String.ofList text) text.length
    else word .number (String.ofList digits) digits.length
  | none => word .number (String.ofList digits) digits.length

/-- A sign that a second character may turn into another one. -/
def pair (second : Char) (joined single : TokenKind) (rest : List Char) : Lexeme :=
  if rest.head? = some second then word joined "" 2 else word single "" 1

/-- A sign that must be written twice. -/
def doubled (c : Char) (kind : TokenKind) (rest : List Char) : Lexeme :=
  if rest.head? = some c then word kind "" 2
  else
    let sign := String.singleton c
    word .illegal ("expected '" ++ sign ++ sign ++ "', found a single '" ++ sign ++ "'") 1

/-- The operators and the punctuation, and what is none of these. -/
def sign (c : Char) (rest : List Char) : Lexeme :=
  match c with
  | '(' => word .leftParen "" 1
  | ')' => word .rightParen "" 1
  | '{' => word .leftBrace "" 1
  | '}' => word .rightBrace "" 1
  | ';' => word .semicolon "" 1
  | ',' => word .comma "" 1
  | ':' => word .colon "" 1
  | '+' => word .plus "" 1
  | '-' => word .minus "" 1
  | '*' => word .star "" 1
  | '/' => word .slash "" 1
  | '%' => word .percent "" 1
  | '=' => pair '=' .equal .assign rest
  | '!' => pair '=' .notEqual .bang rest
  | '<' => pair '=' .lessEqual .less rest
  | '>' => pair '=' .greaterEqual .greater rest
  | '&' => doubled '&' .andAnd rest
  | '|' => doubled '|' .orOr rest
  | c => word .illegal ("unexpected character: '" ++ String.singleton c ++ "'") 1

/-- The lexeme at the head of a text that begins with `c`. -/
def read (s : Settings) (c : Char) (rest : List Char) : Lexeme :=
  if c = ' ' ∨ c = '\t' ∨ c = '\n' ∨ c = '\r' then gap 1
  else if c = '/' ∧ rest.head? = some '/' ∧ s.feature .lineComments then
    gap (1 + (rest.takeWhile (· != '\n')).length)
  else if c = '/' ∧ rest.head? = some '*' ∧ s.feature .blockComments then
    match commentEnd? rest.tail with
    | some n => gap (2 + n)
    | none => unclosed
  else if Text.isLetter c then name c rest
  else if Text.isDigit c then number c rest
  else sign c rest

end Lexeme

namespace Token

/-- The tokens of a text from a place on, when the next `skip` characters belong to a lexeme that
has been dealt with. -/
def scanFrom (s : Settings) (file : Int) (p : Position) : Nat → List Char → List Token
  | _, [] => [{ kind := .endOfFile, file, line := p.line, column := p.column }]
  | skip + 1, c :: cs => scanFrom s file (p.next c) skip cs
  | 0, c :: cs =>
    match Lexeme.read s c cs with
    | .gap width => scanFrom s file (p.next c) (width - 1) cs
    | .word kind value width =>
      { kind, value, file, line := p.line, column := p.column, length := width } ::
        scanFrom s file (p.next c) (width - 1) cs
    | .unclosed =>
      { kind := .illegal, value := "unterminated block comment", file, line := p.line,
        column := p.column, length := 2 } :: scanFrom s file (p.next c) cs.length cs

/-- The tokens of a source text; the last one marks its end. -/
def scan (s : Settings) (file : Int) (source : List Char) : List Token :=
  scanFrom s file {} 0 source

end Token

end ThreeAddress
