import LetLang.Table
import LetLang.Text.Blank
import LetLang.Ty
import LetLang.Value

/-!
# Native functions

A native function is declared by its name, the types of its argument and of its result, and the
names of its parameters; what it does is an `Action`. The prelude holds the four natives that
every program has. A table of natives keeps the order of declaration and never holds a name twice.
-/

namespace LetLang

/-- The name under which a native finds its argument. -/
def nativeParameter : String := "in"

inductive Action where
  /-- Prints the argument, a text. -/
  | print
  /-- Prints the argument, a text, and ends the line. -/
  | printLine
  /-- Reads the file that the argument, a text, names. -/
  | readFile
  /-- Makes a text that shows all of the argument. -/
  | inspect
  /-- Gives back the argument. -/
  | argument
  /-- Lists the names of the program's functions. -/
  | functionNames
  /-- Lists the names that are bound. -/
  | boundNames
  /-- Gives a fixed value. -/
  | constant (value : Value)
  deriving Repr

/-- A declaration of a native function. Without an action it stands for a built-in one. -/
structure Native where
  name : String
  argument : String
  result : String
  parameters : List String
  action : Option Action
  deriving Repr

/-- Why a declaration, or a table of declarations, is refused. -/
inductive NativeError where
  | unnamed
  | unknownType (name descriptor : String)
  | duplicate (name : String)
  deriving Repr, DecidableEq

def NativeError.message : NativeError → String
  | .unnamed => "Native declaration requires a name"
  | .unknownType name d => "Native declaration " ++ name ++ " has unknown type: " ++ d
  | .duplicate name => "Duplicate native declaration for " ++ name

namespace Native

/-- Declares a native. Blanks around the name do not count; the argument's type is looked at before
the result's. -/
def declare (name : Option String) (argument result : String) (parameters : List String)
    (action : Option Action) : Except NativeError Native :=
  let name := Text.trimBlanks (name.getD "")
  if name = "" then .error .unnamed
  else if (Ty.ofDescriptor? argument).isNone then .error (.unknownType name argument)
  else if (Ty.ofDescriptor? result).isNone then .error (.unknownType name result)
  else .ok ⟨name, argument, result, parameters, action⟩

def arity (n : Native) : Nat := n.parameters.length

def type (n : Native) : Ty :=
  .function ((Ty.ofDescriptor? n.argument).getD .unknown)
    ((Ty.ofDescriptor? n.result).getD .unknown)

/-- The natives that every program has. -/
def standard : List Native :=
  [⟨"std.print", "Text", "Unit", [nativeParameter], none⟩,
   ⟨"std.println", "Text", "Unit", [nativeParameter], none⟩,
   ⟨"std.read", "Text", "Text", [nativeParameter], none⟩,
   ⟨"std.to_string", "UI8", "Text", [nativeParameter], none⟩]

def standardAction? (name : String) : Option Action :=
  if name = "std.print" then some .print
  else if name = "std.println" then some .printLine
  else if name = "std.read" then some .readFile
  else if name = "std.to_string" then some .inspect
  else none

/-- Adds declarations to a table; a name that it has already is refused. -/
def extend (table : Table String Native) : List Native → Except NativeError (Table String Native)
  | [] => .ok table
  | n :: ns =>
    if table.contains n.name then .error (.duplicate n.name)
    else extend (table.insert n.name n) ns

/-- The standard natives and some further ones, by name and in order. -/
def prelude (extra : List Native) : Except NativeError (Table String Native) :=
  extend (.ofList (standard.map fun n => (n.name, n))) extra

end Native

end LetLang
