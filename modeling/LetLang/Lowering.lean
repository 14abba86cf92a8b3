import LetLang.Node

/-!
# Lowering

A file of the surface becomes an arena whose root lists functions. A lambda under a name becomes a
function where it stands; a lambda that is applied on the spot becomes a function of the root
under a name made for it. A node is put into the arena before its children, with placeholders for
their numbers, and is written again when they are known.
-/

namespace LetLang

inductive LoweringError where
  | notAFile (kind : String)
  | topLevelNotFunction
  | bindsNoIdentifier
  | looseLambda
  | nestedFile
  | appliedNonName (kind : String)
  /-- A node was to hang below a number that was never given out. -/
  | unissued (e : Unissued)
  /-- A placeholder was left over in a node. -/
  | placeholderLeft (id : Nat) (label : String)
  deriving Repr, DecidableEq

def LoweringError.message : LoweringError → String
  | .notAFile kind => "Expected file, got " ++ kind
  | .topLevelNotFunction => "Expected each top-level statement to lower to a function"
  | .bindsNoIdentifier => "Expected identifier to lower to identifier"
  | .looseLambda => "Lambda must be bound by let or applied directly"
  | .nestedFile => "File may only appear as the root of the surface tree"
  | .appliedNonName kind => "Expected applied function to be a name, got " ++ kind
  | .unissued e => e.message
  | .placeholderLeft id label => s!"Node {id} ({label}) still holds a placeholder child"

namespace Lowering

/-- The arena so far, and the functions made of lambdas that are applied on the spot. -/
structure Lowered where
  arena : Arena Node
  lifted : List Int

/-- What there is before anything is lowered: a file without functions. -/
def Lowered.initial : Lowered := ⟨.ofRoot (.file []), []⟩

/-- A step of lowering. What was lowered so far is kept when the step fails. -/
abbrev Step := EStateM LoweringError Lowered

/-- Adds a node below a parent and gives its number. -/
def add (node : Node) (parent : Int) : Step Int := do
  let s ← get
  match s.arena.add node parent with
  | .ok arena =>
    set { s with arena }
    return s.arena.size
  | .error e => throw (.unissued e)

def write (id : Int) (node : Node) : Step Unit := do
  let s ← get
  match s.arena.setValue id node with
  | .ok arena => set { s with arena }
  | .error e => throw (.unissued e)

def read (id : Int) : Step (Option Node) := do
  match (← get).arena.value? id with
  | .ok node => return node
  | .error e => throw (.unissued e)

/-- Adds a node below a parent, then what `fill` puts below it, and writes the node with that. -/
def addFilled {α : Type} (draft : Node) (parent : Int) (fill : Int → Step α) (finish : α → Node) :
    Step Int := do
  let id ← add draft parent
  let parts ← fill id
  write id (finish parts)
  return id

/-- The name for the next function made of an applied lambda. -/
def liftedName (count : Nat) : String := s!"lambda#{count}"

def addFunction (name : String) (parameters : Int → Step (List Int)) (body : Int → Step Int)
    (parent : Int) : Step Int :=
  addFilled (.function name [] placeholderId) parent
    (fun id => do return (← parameters id, ← body id))
    fun parts => .function name parts.1 parts.2

/-- Adds the application of a name to an argument. -/
def addApplication (name : String) (argument : Int → Step Int) (parent : Int) : Step Int :=
  addFilled (.apply placeholderId placeholderId) parent
    (fun id => do return (← add (.identifier name) id, ← argument id))
    fun parts => .apply parts.1 parts.2

mutual

/-- Lowers a node below a parent and gives its number. -/
def lower : Tree String → Int → Step Int
  | .bind (.identifier name) _ (.lambda parameters body), parent =>
    addFunction name (lowerAll parameters) (lower body) parent
  | .bind (.identifier name) type value, parent =>
    addFilled (.bind placeholderId placeholderId placeholderId) parent
      (fun id => do
        let i ← add (.identifier name) id
        let t ← lower type id
        let v ← lower value id
        return (i, t, v))
      fun parts => .bind parts.1 parts.2.1 parts.2.2
  | .bind .., _ => throw .bindsNoIdentifier
  | .block statements, parent => addFilled (.sequence []) parent (lowerAll statements) .sequence
  | .identifier name, parent => add (.identifier name) parent
  | .binary left right op, parent =>
    addFilled (.binary op placeholderId placeholderId) parent
      (fun id => do return (← lower left id, ← lower right id))
      fun parts => .binary op parts.1 parts.2
  | .lambda .., _ => throw .looseLambda
  | .apply (.lambda parameters body) argument, parent => do
    let name := liftedName (← get).lifted.length
    let f ← addFunction name (lowerAll parameters) (lower body) rootId
    modify fun s => { s with lifted := s.lifted ++ [f] }
    addApplication name (lower argument) parent
  | .apply (.identifier name) argument, parent => addApplication name (lower argument) parent
  | .apply callee _, _ => throw (.appliedNonName callee.kind)
  | .number n, parent => add (.number n) parent
  | .boolean b, parent => add (.boolean b) parent
  | .text s, parent => add (.text s) parent
  | .tuple elements, parent => addFilled (.tuple []) parent (lowerAll elements) .tuple
  | .array elements, parent => addFilled (.array []) parent (lowerAll elements) .array
  | .file _, _ => throw .nestedFile
  | .sumType options, parent => addFilled (.sumType []) parent (lowerAll options) .sumType
  | .productType elements, parent =>
    addFilled (.productType []) parent (lowerAll elements) .productType
  | .typeName name, parent => add (.typeName name) parent
  | .functionType source target, parent =>
    addFilled (.functionType placeholderId placeholderId) parent
      (fun id => do return (← lower source id, ← lower target id))
      fun parts => .functionType parts.1 parts.2
  | .arrayType element length, parent =>
    addFilled (.arrayType length placeholderId) parent (lower element) (.arrayType length)
  | .unitType, parent => add .unitType parent

def lowerAll : List (Tree String) → Int → Step (List Int)
  | [], _ => return []
  | t :: ts, parent => do return (← lower t parent) :: (← lowerAll ts parent)

end

/-- Lowers a statement of a file, which has to become a function. -/
def lowerTopLevel (statement : Tree String) : Step Int := do
  let id ← lower statement rootId
  match ← read id with
  | some (.function ..) => return id
  | _ => throw .topLevelNotFunction

/-- The first live node that holds a placeholder. -/
def placeholderLeft? (a : Arena Node) : Option (Nat × Node) :=
  a.live.find? fun n => placeholderId ∈ n.2.references

def assertNoPlaceholders (a : Arena Node) : Except LoweringError Unit :=
  match placeholderLeft? a with
  | some (id, node) => .error (.placeholderLeft id node.label)
  | none => .ok ()

/-- Lowers the statements of a file and lists the functions in the root, those of the statements
first. -/
def lowerFile (statements : List (Tree String)) : Step Unit := do
  let functions ← statements.mapM lowerTopLevel
  write rootId (.file (functions ++ (← get).lifted))
  match assertNoPlaceholders (← get).arena with
  | .ok () => return ()
  | .error e => throw e

def Lowered.notes (l : Lowered) : List String :=
  let functions := match l.arena.slots[0]? with
    | some ⟨.file fs, _, _⟩ => fs.length
    | _ => 0
  [s!"lowered {functions} functions ({l.lifted.length} lifted) into {l.arena.size} arena slots"]

end Lowering

/-- Lowers a surface tree, which has to be a file. -/
def lower (tree : Tree String) : Except LoweringError Lowering.Lowered :=
  match tree with
  | .file statements =>
    match Lowering.lowerFile statements .initial with
    | .ok () s => .ok s
    | .error e _ => .error e
  | t => .error (.notAFile t.kind)

end LetLang
