/-!
# Types

Types are compared by their structure. The text of a type does not always tell it from another: the
product of no types and the unit type are both written as an empty pair of brackets.
-/

namespace LetLang

/-- The types without parts of their own. -/
inductive Atom where
  | i8 | i64 | ui8 | ui64 | boolean | text
  deriving Repr, DecidableEq

def Atom.name : Atom → String
  | .i8 => "I8"
  | .i64 => "I64"
  | .ui8 => "UI8"
  | .ui64 => "UI64"
  | .boolean => "Boolean"
  | .text => "Text"

def Atom.all : List Atom := [.i8, .i64, .ui8, .ui64, .boolean, .text]

def Atom.ofName? (name : String) : Option Atom := Atom.all.find? fun a => a.name = name

def Atom.isInteger : Atom → Bool
  | .i8 | .i64 | .ui8 | .ui64 => true
  | .boolean | .text => false

/-- The types of the language. A `foreign` type is known by its name only. -/
inductive Ty where
  | function (source target : Ty)
  | product (elements : List Ty)
  | array (element : Ty) (length : Int)
  | sum (options : List Ty)
  | atom (atom : Atom)
  | foreign (name : String)
  | unit
  | unknown
  deriving Repr, Inhabited

namespace Ty

mutual

def same : Ty → Ty → Bool
  | .function s t, .function s' t' => s.same s' && t.same t'
  | .product es, .product es' => sameList es es'
  | .array e n, .array e' n' => e.same e' && n = n'
  | .sum os, .sum os' => sameList os os'
  | .atom a, .atom a' => a = a'
  | .foreign n, .foreign n' => n = n'
  | .unit, .unit => true
  | .unknown, .unknown => true
  | _, _ => false

def sameList : List Ty → List Ty → Bool
  | [], [] => true
  | a :: as, b :: bs => a.same b && sameList as bs
  | _, _ => false

end

mutual

theorem same_iff : (a b : Ty) → (a.same b = true ↔ a = b)
  | .function s t, b => by cases b <;> simp [same, same_iff s, same_iff t]
  | .product es, b => by cases b <;> simp [same, sameList_iff es]
  | .array e _, b => by cases b <;> simp [same, same_iff e]
  | .sum os, b => by cases b <;> simp [same, sameList_iff os]
  | .atom _, b => by cases b <;> simp [same]
  | .foreign _, b => by cases b <;> simp [same]
  | .unit, b => by cases b <;> simp [same]
  | .unknown, b => by cases b <;> simp [same]

theorem sameList_iff : (as bs : List Ty) → (sameList as bs = true ↔ as = bs)
  | [], bs => by cases bs <;> simp [sameList]
  | a :: as, bs => by cases bs <;> simp [sameList, same_iff a, sameList_iff as]

end

instance : DecidableEq Ty := fun a b => decidable_of_iff _ (same_iff a b)

mutual

def display : Ty → String
  | .function s t => s.display ++ " -> " ++ t.display
  | .product es => "(" ++ String.intercalate ", " (displayList es) ++ ")"
  | .array e n => "[" ++ e.display ++ s!"; {n}]"
  | .sum os => String.intercalate " | " (displayList os)
  | .atom a => a.name
  | .foreign name => "extern " ++ name
  | .unit => "()"
  | .unknown => "?"

def displayList : List Ty → List String
  | [] => []
  | t :: ts => t.display :: displayList ts

end

def ofDescriptor? (descriptor : String) : Option Ty :=
  if descriptor = "Unit" then some .unit else (Atom.ofName? descriptor).map .atom

def unknownDescriptor (descriptor : String) : String :=
  "Unknown type descriptor '" ++ descriptor ++ "'"

end Ty

end LetLang
