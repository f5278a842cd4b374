import ThreeAddress.Settings
import ThreeAddress.Token

/-!
# Diagnostics

A diagnostic is shown as a header with the file, the line and the column of a token, followed by the
source line with a mark under the token. The line is left out when the token lies in no known file
or has no line number. A line number below one shows the first line, one beyond the end the last.

A diagnostic cannot be shown when its mark would be longer than any text can be. This does not
happen to the tokens of a source text.
-/

namespace ThreeAddress

/-- A source file, for showing the lines of diagnostics. -/
structure SourceFile where
  name : String
  content : List Char

namespace SourceFile

/-- The text from the beginning of a line on, with lines counted from zero; after the last line
there is only the last line again. -/
def fromLine : Nat → List Char → List Char
  | 0, cs => cs
  | n + 1, cs =>
    match cs.dropWhile (· != '\n') with
    | [] => cs
    | _ :: rest => fromLine n rest

/-- The text of a line, with lines counted from one. -/
def line (f : SourceFile) (n : Int) : String :=
  String.ofList ((fromLine (n - 1).toNat f.content).takeWhile (· != '\n'))

end SourceFile

namespace Diagnostic

/-- How serious a diagnostic is. -/
inductive Severity
  | error
  | warning
  deriving DecidableEq, Repr

/-- The word for a severity. -/
def Severity.name : Severity → String
  | error => "error"
  | warning => "warning"

/-- The file in which a token lies. -/
def file? (files : List SourceFile) (t : Token) : Option SourceFile :=
  if t.file < 0 then none else files[t.file.toNat]?

/-- The mark under a token: it is at least one character long. -/
def mark (t : Token) : String :=
  String.ofList (List.replicate (t.column - 1).toNat ' ' ++
    '^' :: List.replicate (t.length - 1).toNat '~')

/-- The source line of a token and the mark under it, if they can be shown. -/
def excerpt (files : List SourceFile) (t : Token) : String :=
  match file? files t with
  | some f => if t.line = 0 then "" else "  " ++ f.line t.line ++ "\n  " ++ mark t ++ "\n"
  | none => ""

/-- A diagnostic as text. -/
def render (files : List SourceFile) (severity : Severity) (t : Token)
    (message : String) : String :=
  let name := match file? files t with
    | some f => f.name
    | none => "unknown"
  name ++ ":" ++ toString t.line ++ ":" ++ toString t.column ++ ": " ++ severity.name ++ ": " ++
    message ++ "\n" ++ excerpt files t

/-- The greatest number of characters that a part of a mark can have. -/
def longestMark : Int := 281474976710656

/-- The least column number; the number before it is the greatest. -/
def leastColumn : Int := Int64.minValue.toInt

/-- Whether a mark can be made: neither its part before the token nor its part under the token is
too long. -/
def isMarkable (t : Token) : Bool :=
  leastColumn < t.column && t.column - 1 ≤ longestMark && t.length - 1 ≤ longestMark

/-- Whether a diagnostic about a token can be shown. -/
def isShowable (files : List SourceFile) (t : Token) : Bool :=
  (file? files t).isNone || t.line == 0 || isMarkable t

def error (files : List SourceFile) (t : Token) (message : String) : String :=
  render files .error t message

/-- An error as text, if it can be shown. -/
def error? (files : List SourceFile) (t : Token) (message : String) : Option String :=
  if isShowable files t then some (error files t message) else none

/-- A warning as text, which is empty when the warning is switched off. -/
def warning (settings : Settings) (files : List SourceFile) (w : Warning) (t : Token)
    (message : String) : String :=
  if settings.warning w then render files .warning t (message ++ " [-W" ++ w.name ++ "]") else ""

/-- A warning as text, if it is switched off or can be shown. -/
def warning? (settings : Settings) (files : List SourceFile) (w : Warning) (t : Token)
    (message : String) : Option String :=
  if !settings.warning w || isShowable files t then
    some (warning settings files w t message)
  else none

end Diagnostic

end ThreeAddress
