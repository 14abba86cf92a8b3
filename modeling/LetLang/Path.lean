/-!
# Paths

A path is a text of names between slashes. A location is where a path leads: two dots lead to the
directory above, and above a root there is the root itself. What lies above the working directory
has no names here; only the number of steps up is kept.
-/

namespace LetLang

/-- A path: what it starts from, and the names on the way. The names hold no slash, and none of them
is empty or a single dot. -/
structure Path where
  root : String
  names : List String
  deriving Repr, DecidableEq

namespace Path

/-- Reads a path. One slash at the front, or more than two, start at the root; two slashes at the
front are a root of their own. -/
def ofString (s : String) : Path :=
  let slashes := (s.toList.takeWhile (· = '/')).length
  let root := if slashes = 0 then "" else if slashes = 2 then "//" else "/"
  ⟨root, (s.splitOn "/").filter fun n => n ≠ "" ∧ n ≠ "."⟩

/-- The text of a path. The working directory is written as a dot. -/
def display (p : Path) : String :=
  let s := p.root ++ String.intercalate "/" p.names
  if s = "" then "." else s

def parent (p : Path) : Path := { p with names := p.names.dropLast }

/-- The path has a NUL character, which no file can have in its path. -/
def hasNul (p : Path) : Bool := p.names.any fun n => n.toList.contains '\x00'

end Path

/-- A place in the tree of directories: the names below a root, or below the directory that lies a
number of steps above the working directory. -/
structure Location where
  root : String
  above : Nat
  names : List String
  deriving Repr, DecidableEq

namespace Location

/-- The place where the paths from a root start; a path without a root starts at the working
directory. Both texts of a root mean one place. -/
def start (root : String) : Location := ⟨if root = "" then "" else "/", 0, []⟩

def down (l : Location) (name : String) : Location := { l with names := l.names ++ [name] }

def up (l : Location) : Location :=
  if l.names ≠ [] then { l with names := l.names.dropLast }
  else if l.root = "" then { l with above := l.above + 1 }
  else l

end Location

end LetLang
