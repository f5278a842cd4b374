import ThreeAddress.Files

/-!
# Paths in text

Operations that look only at the text of a path, not at what stands there.
-/

namespace ThreeAddress.Path

/-- Whether a path starts at the root. -/
def isAbsolute (path : String) : Bool := path.startsWith "/"

/-- The components that are left of a list of components, given those kept before with the last in
front: empty ones and single dots are dropped, and two dots cancel the component before them. -/
def reduce (absolute : Bool) : List String → List String → List String
  | kept, [] => kept.reverse
  | kept, c :: cs =>
    if c = "" ∨ c = "." then reduce absolute kept cs
    else if c = ".." then
      match kept with
      | [] => if absolute then reduce absolute [] cs else reduce absolute [".."] cs
      | k :: rest =>
        if k = ".." then reduce absolute (".." :: k :: rest) cs else reduce absolute rest cs
    else reduce absolute (c :: kept) cs

/-- The shortest path that means the same. -/
def clean (path : String) : String :=
  let cs := reduce (isAbsolute path) [] (path.splitOn "/")
  if isAbsolute path then "/" ++ "/".intercalate cs
  else if cs.isEmpty then "."
  else "/".intercalate cs

/-- One path below another. -/
def join (directory name : String) : String :=
  if directory = "" then (if name = "" then "" else clean name)
  else if name = "" then clean directory
  else clean (directory ++ "/" ++ name)

/-- The last component of a path. -/
def base (path : String) : String :=
  if path = "" then "."
  else
    match ((path.splitOn "/").reverse).dropWhile (· = "") with
    | [] => "/"
    | c :: _ => c

/-- A path without its last component. -/
def directory (path : String) : String :=
  match (path.splitOn "/").reverse with
  | [] | [_] => "."
  | _ :: parents => clean ("/".intercalate parents.reverse ++ "/")

/-- The path of a place. -/
def ofLocation (loc : Location) : String := "/" ++ "/".intercalate loc

/-- A path from the root, for a path in a working directory. -/
def absolute (workingDirectory : Location) (path : String) : String :=
  if isAbsolute path then clean path else join (ofLocation workingDirectory) path

end ThreeAddress.Path
