/-!
# Directories of files

A directory tree is an entry that is a directory, whose entries have names. Paths in text are
resolved from a working directory, one component after the other, so `a/../b` needs `a` to be a
directory.
-/

namespace ThreeAddress

/-- Why a path cannot be used. -/
inductive FileFault
  | missing
  | isDirectory
  | notDirectory
  | nameTooLong
  | occupied
  | denied
  /-- Any other fault, in the words of the system. -/
  | other (details : String)
  deriving DecidableEq, Repr

/-- The wording of a fault. -/
def FileFault.message : FileFault → String
  | missing => "no such file or directory"
  | isDirectory => "is a directory"
  | notDirectory => "not a directory"
  | nameTooLong => "file name too long"
  | occupied => "file exists"
  | denied => "permission denied"
  | other details => details

/-- A fault of an operation on a path. -/
structure FileError where
  operation : String
  path : String
  fault : FileFault
  deriving DecidableEq, Repr

/-- The wording of an error. -/
def FileError.message (e : FileError) : String :=
  e.operation ++ " " ++ e.path ++ ": " ++ e.fault.message

/-- The names on the way to a place in the tree, from its root. -/
abbrev Location := List String

/-- What can stand at a place. -/
inductive Entry
  | file (content : String)
  /-- The compiler, as a file that can be executed. -/
  | compiler
  /-- A file that is always empty and takes any text. -/
  | sink
  | directory (entries : List (String × Entry))
  deriving Repr

namespace Entry

def isDirectory : Entry → Bool
  | directory _ => true
  | _ => false

/-- What stands at a location below an entry. -/
def find? (e : Entry) : Location → Option Entry
  | [] => some e
  | name :: rest =>
    match e with
    | directory entries => (entries.lookup name).bind fun child => child.find? rest
    | _ => none

/-- Gives a name an entry, in the stead of the entry that it had. -/
def set (name : String) (e : Entry) : List (String × Entry) → List (String × Entry)
  | [] => [(name, e)]
  | (n, old) :: rest => if n = name then (n, e) :: rest else (n, old) :: set name e rest

/-- Puts an entry at a location below a directory; directories on the way are made. -/
def put (e new : Entry) : Location → Entry
  | [] => new
  | name :: rest =>
    match e with
    | directory entries =>
      let child := (entries.lookup name).getD (directory [])
      directory (set name (child.put new rest) entries)
    | e => e

mutual

/-- The files below an entry at a location, with their contents. -/
def files (loc : Location) : Entry → List (Location × String)
  | file content => [(loc, content)]
  | directory entries => filesAmong loc entries
  | _ => []

/-- The files among the entries of a directory at a location. -/
def filesAmong (loc : Location) : List (String × Entry) → List (Location × String)
  | [] => []
  | (name, e) :: rest => e.files (loc ++ [name]) ++ filesAmong loc rest

end

end Entry

/-- A directory tree. -/
structure Files where
  root : Entry := .directory []
  deriving Repr

namespace Files

/-- The first bytes of a file that can be executed, which stand for all of it. -/
def compilerContent : String := "\x7fELF"

/-- Puts an entry at a location. -/
def put (fs : Files) (loc : Location) (e : Entry) : Files := ⟨fs.root.put e loc⟩

/-- The tree with given entries. -/
def ofList : List (Location × Entry) → Files
  | [] => {}
  | (loc, e) :: rest => (ofList rest).put loc e

/-- The files of a tree, with their contents. -/
def toList (fs : Files) : List (Location × String) := fs.root.files []

/-! ## Places -/

/-- A place that has been reached: the names on the way to it and the directories above it, the
nearest first, and what stands there. -/
structure Position where
  names : List String := []
  above : List Entry := []
  entry : Option Entry

def Position.location (p : Position) : Location := p.names.reverse

/-- Whether there is a directory at a place. -/
def Position.isDirectory (p : Position) : Bool := p.entry.any Entry.isDirectory

/-- The greatest number of bytes in the name of an entry. -/
def longestName : Nat := 255

/-- The greatest number of bytes in a path. -/
def longestPath : Nat := 4095

/-- The place after one more component, which has to start from a directory. -/
def Position.enter (p : Position) (component : String) : Except FileFault Position :=
  match p.entry with
  | none => .error .missing
  | some (.directory entries) =>
    if component = "" ∨ component = "." then .ok p
    else if component = ".." then
      match p.names, p.above with
      | _ :: names, parent :: above => .ok ⟨names, above, some parent⟩
      | _, _ => .ok p
    else if component.utf8ByteSize > longestName then .error .nameTooLong
    else .ok ⟨component :: p.names, .directory entries :: p.above, entries.lookup component⟩
  | some _ => .error .notDirectory

/-- The place after several components. -/
def Position.walk (p : Position) : List String → Except FileFault Position
  | [] => .ok p
  | c :: cs => do
    let next ← p.enter c
    next.walk cs

/-- The components of a path from the root, if the path is neither empty nor too long. -/
def components (directory : Location) (path : String) : Except FileFault (List String) :=
  if path = "" then .error .missing
  else if path.utf8ByteSize > longestPath then .error .nameTooLong
  else
    match path.splitOn "/" with
    | "" :: rest => .ok rest
    | cs => .ok (directory ++ cs)

/-- The place of a path, at which there may be nothing. -/
def resolve (fs : Files) (directory : Location) (path : String) : Except FileFault Position := do
  let cs ← components directory path
  Position.walk { entry := fs.root } cs

/-! ## Reading -/

/-- What stands at a path. -/
def stat (fs : Files) (directory : Location) (path : String) : Except FileFault Entry := do
  let p ← fs.resolve directory path
  match p.entry with
  | some e => return e
  | none => .error .missing

/-- The content of the file at a path. -/
def read (fs : Files) (directory : Location) (path : String) : Except FileError String :=
  match fs.stat directory path with
  | .ok (.file content) => .ok content
  | .ok .compiler => .ok compilerContent
  | .ok .sink => .ok ""
  | .ok (.directory _) => .error ⟨"read", path, .isDirectory⟩
  | .error f => .error ⟨"open", path, f⟩

/-- The names in the directory at a path, in order; there are none if there is no directory. -/
def names (fs : Files) (directory : Location) (path : String) : List String :=
  match fs.stat directory path with
  | .ok (.directory entries) => (entries.map Prod.fst).mergeSort fun a b => decide (a ≤ b)
  | _ => []

/-! ## Writing -/

/-- The place of the last component of a path, whose directory is there; `named` is what is left of
the components, with the last in front, when empty ones are dropped from the end. -/
def lastPlace (fs : Files) (named : List String) : Except FileFault Position :=
  let start : Position := { entry := fs.root }
  match named with
  | [] => .ok start
  | last :: parents => do
    let parent ← start.walk parents.reverse
    parent.enter last

/-- The place at which a file with a path can be created. -/
def creatable (fs : Files) (directory : Location) (path : String) : Except FileFault Position := do
  let cs ← components directory path
  let named := cs.reverse.dropWhile (· = "")
  let p ← fs.lastPlace named
  let last := named.headD "."
  if last = "." ∨ last = ".." ∨ named.length ≠ cs.length ∨ p.isDirectory then .error .isDirectory
  else return p

/-- Writes a file, which is created if it is not there. -/
def write (fs : Files) (directory : Location) (path content : String) : Except FileError Files :=
  match fs.creatable directory path with
  | .ok p =>
    match p.entry with
    | some .sink => .ok fs
    | _ => .ok (fs.put p.location (.file content))
  | .error f => .error ⟨"open", path, f⟩

/-- The place at which a directory with a path can be made, whose parent is there. -/
def makeable (fs : Files) (directory : Location) (path : String) : Except FileFault Position := do
  let cs ← components directory path
  let p ← fs.lastPlace (cs.reverse.dropWhile (· = ""))
  if p.entry.isSome then .error .occupied else return p

/-- Makes the directory of a path, if it is not there, in a parent that is there. -/
def makeOne (fs : Files) (directory : Location) (path : String) : Except FileError Files :=
  match fs.stat directory path with
  | .ok (.directory _) => .ok fs
  | .ok _ => .error ⟨"mkdir", path, .notDirectory⟩
  | .error _ =>
    match fs.makeable directory path with
    | .ok p => .ok (fs.put p.location (.directory []))
    | .error f => .error ⟨"mkdir", path, f⟩

/-- Makes the directories of the beginnings of a path that a slash and another component follow, the
shortest first. `before` is the text before the rest of the path, with its last character in front.
-/
def makeParents (fs : Files) (directory : Location) (before : List Char) :
    List Char → Except FileError Files
  | c :: d :: cs => do
    let fs ←
      if c = '/' ∧ d ≠ '/' ∧ !before.isEmpty then
        fs.makeOne directory (String.ofList before.reverse)
      else .ok fs
    fs.makeParents directory (c :: before) (d :: cs)
  | _ => .ok fs

/-- Makes the directory of a path and all directories on the way to it. -/
def makeDirectory (fs : Files) (directory : Location) (path : String) : Except FileError Files := do
  let fs ← fs.makeParents directory [] path.toList
  fs.makeOne directory path

end Files

end ThreeAddress
