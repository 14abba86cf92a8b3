import LetLang.Native
import LetLang.Node

/-!
# Programs

A program is a table of functions by name: the functions that the root of an arena lists, and after
them the natives. A function of a later entry takes the name over and keeps its place.
-/

namespace LetLang

/-- A function of a program. The body of a `native` is its action. -/
inductive Function where
  | lowered (name : String) (parameters : List Int) (body : Int)
  | native (name : String) (parameters : List String) (action : Action)
  deriving Repr

def Function.name : Function → String
  | .lowered name _ _ => name
  | .native name _ _ => name

/-- Functions by name, in order. -/
abbrev Program := Table String Function

inductive ProgramError where
  | unissued (e : Unissued)
  | rootNotFile
  | entryNotFunction (id : Int)
  | native (e : NativeError)
  | noAction (name : String)
  | nativeParameters (name : String)
  deriving Repr, DecidableEq

def ProgramError.message : ProgramError → String
  | .unissued e => e.message
  | .rootNotFile => "Lowered tree root must be a File node"
  | .entryNotFunction id => s!"File entry {id} is not a function"
  | .native e => e.message
  | .noAction name => "Native " ++ name ++ " has no host implementation"
  | .nativeParameters name =>
    "Native " ++ name ++ " must take the single parameter '" ++ nativeParameter ++ "'"

namespace Program

def add (p : Program) (f : Function) : Program := p.insert f.name f

def addLowered (a : Arena Node) (p : Program) : List Int → Except ProgramError Program
  | [] => .ok p
  | id :: ids =>
    match a.value? id with
    | .error e => .error (.unissued e)
    | .ok (some (.function name parameters body)) =>
      addLowered a (add p (.lowered name parameters body)) ids
    | .ok _ => .error (.entryNotFunction id)

def ofNative (n : Native) : Except ProgramError Function :=
  match n.action <|> Native.standardAction? n.name with
  | none => .error (.noAction n.name)
  | some action =>
    if n.parameters = [nativeParameter] then .ok (.native n.name n.parameters action)
    else .error (.nativeParameters n.name)

def addNatives (p : Program) : List Native → Except ProgramError Program
  | [] => .ok p
  | n :: ns =>
    match ofNative n with
    | .error e => .error e
    | .ok f => addNatives (add p f) ns

/-- The program of an arena, with the standard natives and some further ones. -/
def build (a : Arena Node) (extra : List Native) : Except ProgramError Program :=
  match a.value? rootId with
  | .error e => .error (.unissued e)
  | .ok (some (.file functions)) =>
    match addLowered a ∅ functions with
    | .error e => .error e
    | .ok p =>
      match Native.prelude extra with
      | .error e => .error (.native e)
      | .ok natives => addNatives p (natives.entries.map Prod.snd)
  | .ok _ => .error .rootNotFile

end Program

end LetLang
