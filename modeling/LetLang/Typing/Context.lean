import LetLang.Native

/-!
# Typing contexts

A scope binds variables to types and type names to types. A context is a scope inside further ones,
the nearest first: a name means what the nearest scope says, and only the own scope is ever written.
A forest holds scopes that were opened at different times, some of them inside others.
-/

namespace LetLang

/-- Variables and type names with their types. -/
structure Scope where
  bindings : Table String Ty
  types : Table String Ty
  deriving Repr

namespace Scope

def empty : Scope := ⟨∅, ∅⟩

def standardTypes : Table String Ty := .ofList [("ui8", .atom .ui8), ("string", .atom .text)]

/-- The scope with the standard type names and the natives of a prelude. -/
def ofPrelude (extra : List Native) : Except NativeError Scope :=
  (Native.prelude extra).map fun natives =>
    ⟨.ofList (natives.entries.map fun e => (e.1, e.2.type)), standardTypes⟩

def addVariable (s : Scope) (name : String) (type : Ty) : Scope :=
  { s with bindings := s.bindings.insert name type }

def addType (s : Scope) (name : String) (type : Ty) : Scope :=
  { s with types := s.types.insert name type }

end Scope

/-- A scope and the scopes around it, the nearest first. -/
structure Context where
  own : Scope
  outer : List Scope
  deriving Repr

namespace Context

def scopes (c : Context) : List Scope := c.own :: c.outer

def typeOf? (c : Context) (name : String) : Option Ty :=
  c.scopes.findSome? fun s => s.bindings.get? name

def typeNamed? (c : Context) (name : String) : Option Ty :=
  c.scopes.findSome? fun s => s.types.get? name

def addVariable (c : Context) (name : String) (type : Ty) : Context :=
  { c with own := c.own.addVariable name type }

/-- A new scope inside a context. -/
def child (c : Context) : Context := ⟨.empty, c.scopes⟩

end Context

/-- Scopes by number, each with the numbers of the scopes around it. -/
structure Forest where
  members : Array (Scope × List Nat)

namespace Forest

def empty : Forest := ⟨#[]⟩

def addRoot (f : Forest) (s : Scope) : Forest := ⟨f.members.push (s, [])⟩

def addChild (f : Forest) (parent : Nat) : Forest :=
  ⟨f.members.push (.empty, parent :: ((f.members[parent]?.map Prod.snd).getD []))⟩

def context? (f : Forest) (i : Nat) : Option Context :=
  f.members[i]?.map fun m => ⟨m.1, m.2.filterMap fun j => f.members[j]?.map Prod.fst⟩

def modify (f : Forest) (i : Nat) (change : Scope → Scope) : Forest :=
  ⟨f.members.modify i fun m => (change m.1, m.2)⟩

end Forest

end LetLang
