import LetLang.Path
import LetLang.Table
import LetLang.Text.Utf8

/-!
# Files

Directories and files by their locations. A path is walked name by name, as an operating system
walks it: a name is looked for in a directory only. Where no path has to look a name up, there is a
directory: at the roots, and at the working directory and all that lies above it.
-/

namespace LetLang

inductive FileFault where
  | missing
  | forbidden
  | alreadyThere
  | notADirectory
  | isADirectory
  | nameTooLong
  deriving Repr, DecidableEq

def FileFault.code : FileFault → Nat
  | .missing => 2
  | .forbidden => 13
  | .alreadyThere => 17
  | .notADirectory => 20
  | .isADirectory => 21
  | .nameTooLong => 36

/-- The operating system's words for a refusal. -/
def FileFault.words : FileFault → String
  | .missing => "No such file or directory"
  | .forbidden => "Permission denied"
  | .alreadyThere => "File exists"
  | .notADirectory => "Not a directory"
  | .isADirectory => "Is a directory"
  | .nameTooLong => "File name too long"

inductive FileError where
  /-- The operating system refuses the path. -/
  | refused (fault : FileFault) (path : String)
  /-- The bytes are not UTF-8. -/
  | undecodable (e : Text.Utf8Error)
  /-- The path has a NUL character. -/
  | nulInPath
  deriving Repr, DecidableEq

def FileError.message : FileError → String
  | .refused fault path => s!"[Errno {fault.code}] " ++ fault.words ++ ": " ++ Text.quote path
  | .undecodable e => e.message
  | .nulInPath => "embedded null byte"

inductive FileEntry where
  | directory
  | file (bytes : List UInt8)
  deriving Repr, DecidableEq

/-- The directories and files that are known, and what reading single paths has given elsewhere. -/
structure Files where
  entries : Table Location FileEntry
  reports : Table Path (Except FileFault (List UInt8))

namespace Files

def empty : Files := ⟨∅, ∅⟩

/-- The files, with what reading a path has given elsewhere. -/
def report (fs : Files) (path : String) (result : Except FileFault (List UInt8)) : Files :=
  { fs with reports := fs.reports.insert (.ofString path) result }

def longestName : Nat := 255

/-- The greatest number of bytes in the text of a path. -/
def longestPath : Nat := 4095

def get? (fs : Files) (l : Location) : Option FileEntry :=
  if l.names.isEmpty then some .directory else fs.entries.get? l

def place (fs : Files) (l : Location) (e : FileEntry) : Files :=
  { fs with entries := fs.entries.insert l e }

def step (fs : Files) (l : Location) (name : String) : Except FileFault Location :=
  match fs.get? l with
  | none => .error .missing
  | some (.file _) => .error .notADirectory
  | some .directory =>
    if name = ".." then .ok l.up
    else if name.utf8ByteSize > longestName then .error .nameTooLong
    else .ok (l.down name)

/-- The location that a path leads to. There may be nothing at it, but it lies in a directory. -/
def locate (fs : Files) (path : Path) : Except FileFault Location :=
  if path.display.utf8ByteSize > longestPath then .error .nameTooLong
  else path.names.foldlM fs.step (.start path.root)

def find (fs : Files) (path : Path) : Except FileFault FileEntry := do
  match fs.get? (← fs.locate path) with
  | some e => return e
  | none => throw .missing

def bytesAt (fs : Files) (path : Path) : Except FileFault (List UInt8) :=
  match fs.reports.get? path, fs.find path with
  | some result, _ => result
  | none, .ok (.file bytes) => .ok bytes
  | none, .ok .directory => .error .isADirectory
  | none, .error fault => .error fault

/-- The text of the file that a text names. -/
def readText (fs : Files) (name : String) : Except FileError String :=
  let path := Path.ofString name
  if path.hasNul then .error .nulInPath
  else
    match fs.bytesAt path with
    | .error fault => .error (.refused fault path.display)
    | .ok bytes => (Text.decodeText bytes).mapError .undecodable

/-- Makes the directory at a path, if there is none. -/
def makeDirectory (fs : Files) (path : Path) : Except FileFault Files := do
  let l ← fs.locate path
  match fs.get? l with
  | some .directory => return fs
  | some (.file _) => throw .alreadyThere
  | none => return fs.place l .directory

/-- Makes the directory that a path leads to with its first `n` names; where the way to it is
missing, it is made first. -/
def makeWay (fs : Files) (path : Path) : (n : Nat) → Except FileError Files
  | 0 => .ok fs
  | n + 1 =>
    let way := { path with names := path.names.take (n + 1) }
    match fs.makeDirectory way with
    | .ok fs => .ok fs
    | .error .missing => do
      let fs ← fs.makeWay path n
      (fs.makeDirectory way).mapError (.refused · way.display)
    | .error fault => .error (.refused fault way.display)

/-- Makes a directory and the way to it, unless its path leads somewhere already. -/
def provide (fs : Files) (path : Path) : Except FileError Files :=
  if path.hasNul then .error .nulInPath
  else
    match fs.find path with
    | .ok _ => .ok fs
    | .error _ => fs.makeWay path path.names.length

/-- Writes a file, in place of the one that is there, and makes the way to it. -/
def save (fs : Files) (path : Path) (bytes : List UInt8) : Except FileError Files := do
  let fs ← fs.provide path.parent
  if path.hasNul then throw .nulInPath
  let l ← (fs.locate path).mapError (.refused · path.display)
  match fs.get? l with
  | some .directory => throw (.refused .isADirectory path.display)
  | _ => return fs.place l (.file bytes)

end Files

end LetLang
