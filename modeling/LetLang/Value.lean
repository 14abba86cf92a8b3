import LetLang.Text.Numeral
import LetLang.Text.Quoted

/-!
# Values

The results of evaluation, with two texts each. `display` is what a user sees; it drops the
structure of lists and does not tell a text from the number it spells. `inspect` shows the kind
and all parts. A value with a number that is too long to be written has neither text.
-/

namespace LetLang

/-- The values of the language. A function is a reference by name. -/
inductive Value where
  | number (value : Int)
  | boolean (value : Bool)
  | tuple (elements : List Value)
  | function (name : String)
  | text (text : String)
  | array (elements : List Value)
  | foreign (elements : List Value)
  | void
  deriving Repr, Inhabited

namespace Value

mutual

def same : Value → Value → Bool
  | .number n, .number n' => n = n'
  | .boolean b, .boolean b' => b = b'
  | .tuple vs, .tuple vs' => sameList vs vs'
  | .function f, .function f' => f = f'
  | .text s, .text s' => s = s'
  | .array vs, .array vs' => sameList vs vs'
  | .foreign vs, .foreign vs' => sameList vs vs'
  | .void, .void => true
  | _, _ => false

def sameList : List Value → List Value → Bool
  | [], [] => true
  | v :: vs, w :: ws => v.same w && sameList vs ws
  | _, _ => false

end

mutual

theorem same_iff : (v w : Value) → (v.same w = true ↔ v = w)
  | .number _, w => by cases w <;> simp [same]
  | .boolean _, w => by cases w <;> simp [same]
  | .tuple vs, w => by cases w <;> simp [same, sameList_iff vs]
  | .function _, w => by cases w <;> simp [same]
  | .text _, w => by cases w <;> simp [same]
  | .array vs, w => by cases w <;> simp [same, sameList_iff vs]
  | .foreign vs, w => by cases w <;> simp [same, sameList_iff vs]
  | .void, w => by cases w <;> simp [same]

theorem sameList_iff : (vs ws : List Value) → (sameList vs ws = true ↔ vs = ws)
  | [], ws => by cases ws <;> simp [sameList]
  | v :: vs, ws => by cases ws <;> simp [sameList, same_iff v, sameList_iff vs]

end

instance : DecidableEq Value := fun v w => decidable_of_iff _ (same_iff v w)

mutual

/-- The text of a value for a user, if it has one. -/
def display : Value → String
  | .number n => s!"{n}"
  | .boolean true => "true"
  | .boolean false => "false"
  | .tuple vs => "(" ++ displayList vs ++ ")"
  | .function name => name
  | .text s => s
  | .array vs => "[" ++ displayList vs ++ "]"
  | .foreign vs => displayList vs
  | .void => "void"

def displayList : List Value → String
  | [] => ""
  | v :: vs => v.display ++ displayList vs

end

mutual

/-- All numbers in the value can be written. -/
def hasText : Value → Bool
  | .number n => Text.isWritable n
  | .tuple vs => haveText vs
  | .array vs => haveText vs
  | .foreign vs => haveText vs
  | _ => true

def haveText : List Value → Bool
  | [] => true
  | v :: vs => v.hasText && haveText vs

end

/-- The inside of a list in `inspect`ed values: items are separated by commas, and a single item is
followed by one. -/
def listing : List String → String
  | [] => ""
  | [s] => s ++ ","
  | ss => String.intercalate ", " ss

mutual

/-- The text of a value that shows its kind and its parts, if it has one. -/
def inspect : Value → String
  | .number n => s!"Number(value={n})"
  | .boolean true => "Boolean(value=True)"
  | .boolean false => "Boolean(value=False)"
  | .tuple vs => "Tuple(elements=(" ++ listing (inspectList vs) ++ "))"
  | .function name => "Function(name=" ++ Text.quote name ++ ")"
  | .text s => "Text(text=" ++ Text.quote s ++ ")"
  | .array vs => "Array(elements=(" ++ listing (inspectList vs) ++ "))"
  | .foreign vs => "ExternValue(elements=(" ++ listing (inspectList vs) ++ "))"
  | .void => "VoidValue()"

def inspectList : List Value → List String
  | [] => []
  | v :: vs => v.inspect :: inspectList vs

end

end Value

end LetLang
