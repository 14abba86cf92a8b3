import LetLang.Files
import LetLang.Program

/-!
# Evaluation

A node is evaluated in the environment of the call that it belongs to; a call begins with nothing
but its parameters. What is printed, and what was bound in the environment, stays when an
evaluation fails. The amount of fuel bounds how deep evaluations nest: a run that ends does not
depend on it once it is large enough.
-/

namespace LetLang

/-- Why an evaluation fails. The first six are failures of the program that is run; the others mean
that the arena, a call, a file or a value is not what it has to be. -/
inductive RunError where
  | notAnExpression (label : String)
  | noMain
  | emptySequence
  | unknownIdentifier (name : String)
  | unknownFunction (name : String)
  | operands (left right : Value)
  | unissued (e : Unissued)
  | deleted (id : Int)
  | bindsNoIdentifier (label : String)
  | parameterNotIdentifier (id : Int) (function : String)
  | applyTargetNotName (label : String)
  | indexOutOfBounds (index : Int) (length : Nat)
  | argumentCount (function : String) (expected given : Nat)
  | noArgument (native : String)
  | argumentNotText (native : String) (argument : Value)
  | unreadable (file : String) (e : FileError)
  /-- The value has no text, and one was to be made. -/
  | unwritten (value : Value)
  deriving Repr, DecidableEq

def RunError.message : RunError → String
  | .notAnExpression label => "Cannot interpret this node: " ++ label
  | .noMain => "No main"
  | .emptySequence => "Expected seq to produce value"
  | .unknownIdentifier name => "Could not find identifier " ++ name
  | .unknownFunction name => "Could not find function " ++ name
  | .operands left right => "Invalid binop nodes: " ++ left.inspect ++ ", " ++ right.inspect
  | .unissued e => e.message
  | .deleted id => s!"Node {id} was deleted"
  | .bindsNoIdentifier label => "Let binds a non-identifier: " ++ label
  | .parameterNotIdentifier id function =>
    s!"Parameter {id} of " ++ function ++ " is not an identifier"
  | .applyTargetNotName label => "Apply target is not a name: " ++ label
  | .indexOutOfBounds index length => s!"Array index {index} out of bounds for length {length}"
  | .argumentCount function expected given =>
    function ++ s!" expects {expected} arguments, got {given}"
  | .noArgument native => native ++ " called without an '" ++ nativeParameter ++ "' binding"
  | .argumentNotText native argument => native ++ " expects text, got " ++ argument.inspect
  | .unreadable file (.refused fault path) =>
    "std.read could not read " ++ file ++ ": " ++ (FileError.refused fault path).message
  | .unreadable _ e => e.message
  | .unwritten _ => Text.unwrittenMessage

/-- A failure whose message shows the values. If one of them has no text, that is the failure. -/
def RunError.showing (values : List Value) (e : RunError) : RunError :=
  match values.find? fun v => !v.hasText with
  | some v => .unwritten v
  | none => e

/-- How an evaluation stops without a value. -/
inductive Halt where
  | failed (e : RunError)
  | outOfFuel
  deriving Repr, DecidableEq

/-- Variables and their values, in order of binding. -/
abbrev Environment := Table String Value

namespace Evaluation

structure Machine where
  arena : Arena Node
  program : Program
  files : Files

/-- The environment of a call, and what has been printed by all calls. -/
structure Frame where
  environment : Environment
  printed : String

/-- A step of an evaluation. The frame reached is kept when the step stops. -/
abbrev Step := EStateM Halt Frame

def fail {α : Type} (e : RunError) : Step α := throw (.failed e)

def nodeAt (m : Machine) (id : Int) : Step Node :=
  match m.arena.value? id with
  | .error e => fail (.unissued e)
  | .ok none => fail (.deleted id)
  | .ok (some node) => pure node

def look (name : String) : Step (Option Value) := do return (← get).environment.get? name

def bind (name : String) (value : Value) : Step Unit :=
  modify fun f => { f with environment := f.environment.insert name value }

def print (text : String) : Step Unit :=
  modify fun f => { f with printed := f.printed ++ text }

/-- Runs a call in an environment of its own. The caller gets back its own environment, and what the
call has printed. -/
def inCall {α : Type} (environment : Environment) (call : Step α) : Step α := fun f =>
  match call { f with environment } with
  | .ok a f' => .ok a { f with printed := f'.printed }
  | .error e f' => .error e { f with printed := f'.printed }

/-- The parameters of a lowered function: nodes that have to be identifiers. -/
def identifiersAt (m : Machine) (function : String) : List Int → Step (List String)
  | [] => return []
  | id :: ids => do
    match ← nodeAt m id with
    | .identifier name => return name :: (← identifiersAt m function ids)
    | _ => fail (.parameterNotIdentifier id function)

def parameterNames (m : Machine) : Function → Step (List String)
  | .native _ parameters _ => return parameters
  | .lowered name parameters _ => identifiersAt m name parameters

/-- The environment that a call begins with. A tuple is spread over the parameters, unless it has
one element; any other argument goes to the only parameter. -/
def arguments (function : String) (parameters : List String) (argument : Value) :
    Except RunError Environment :=
  match argument with
  | .tuple [v] => whole (.tuple [v])
  | .tuple vs =>
    if parameters.length = vs.length then .ok (.ofList (parameters.zip vs))
    else .error (.argumentCount function parameters.length vs.length)
  | v => whole v
where
  whole (v : Value) : Except RunError Environment :=
    match parameters with
    | [p] => .ok (.ofList [(p, v)])
    | _ => .error (.argumentCount function parameters.length 1)

def nativeArgument (native : String) : Step Value := do
  match ← look nativeParameter with
  | some v => return v
  | none => fail (.noArgument native)

/-- The argument of a native that works on texts. -/
def nativeText (native : String) : Step String := do
  match ← nativeArgument native with
  | .text s => return s
  | v => fail (.showing [v] (.argumentNotText native v))

/-- The text that shows all of a value. -/
def inspected (v : Value) : Except RunError String :=
  if v.hasText then .ok v.inspect else .error (.unwritten v)

/-- The outcome of a part that cannot change anything. -/
def lift {α : Type} : Except RunError α → Step α
  | .ok a => pure a
  | .error e => fail e

/-- Does what a native does. Only a native that gives back its argument can have no value, if it is
called without one. -/
def perform (m : Machine) : Action → Step (Option Value)
  | .print => do
    print (← nativeText "std.print")
    return some .void
  | .printLine => do
    print ((← nativeText "std.println") ++ "\n")
    return some .void
  | .readFile => do
    let name ← nativeText "std.read"
    match m.files.readText name with
    | .ok s => return some (.text s)
    | .error e => fail (.unreadable name e)
  | .inspect => return some (.text (← lift (inspected (← nativeArgument "std.to_string"))))
  | .argument => look nativeParameter
  | .functionNames => return some (.tuple (m.program.keys.map .text))
  | .boundNames => return some (.tuple ((← get).environment.keys.map .text))
  | .constant v => return some v

def operate (op : Operator) (left right : Value) : Except RunError Value :=
  match op, left, right with
  | .times, .number m, .number n => .ok (.number (m * n))
  | .plus, .number m, .number n => .ok (.number (m + n))
  | .index, .array vs, .number i =>
    let outside := RunError.showing [.number i] (.indexOutOfBounds i vs.length)
    if i < 0 then .error outside
    else
      match vs[i.toNat]? with
      | some v => .ok v
      | none => .error outside
  | _, left, right => .error (.showing [left, right] (.operands left right))

/-- Runs the parts of a sequence; the last one gives the value. -/
def inSequence {ι : Type} (run : ι → Step Value) : List ι → Step Value
  | [] => fail .emptySequence
  | [id] => run id
  | id :: ids => do
    let _ ← run id
    inSequence run ids

def inOrder {ι : Type} (run : ι → Step Value) : List ι → Step (List Value)
  | [] => return []
  | id :: ids => do return (← run id) :: (← inOrder run ids)

/-- Calls a function in the environment at hand; `run` runs a body. -/
def enter (m : Machine) (run : Int → Step Value) : Function → Step (Option Value)
  | .native _ _ action => perform m action
  | .lowered _ _ body => do return some (← run body)

def call (m : Machine) (run : Int → Step Value) (name : String) (argument : Value) :
    Step Value := do
  match m.program.get? name with
  | none => fail (.unknownFunction name)
  | some f =>
    let parameters ← parameterNames m f
    let environment ← lift (arguments f.name parameters argument)
    return (← inCall environment (enter m run f)).getD .void

def evaluate (m : Machine) : (fuel : Nat) → (id : Int) → Step Value
  | 0, _ => throw .outOfFuel
  | fuel + 1, id => do
    match ← nodeAt m id with
    | .bind name _ value =>
      match ← nodeAt m name with
      | .identifier name =>
        bind name (← evaluate m fuel value)
        return .void
      | node => fail (.bindsNoIdentifier node.label)
    | .sequence parts => inSequence (evaluate m fuel) parts
    | .identifier name =>
      match ← look name with
      | some v => return v
      | none => fail (.unknownIdentifier name)
    | .binary op left right =>
      let l ← evaluate m fuel left
      let r ← evaluate m fuel right
      lift (operate op l r)
    | .apply callee argument =>
      let v ← evaluate m fuel argument
      match ← nodeAt m callee with
      | .identifier name => call m (evaluate m fuel) name v
      | node => fail (.applyTargetNotName node.label)
    | .number n => return .number n
    | .boolean b => return .boolean b
    | .text s => return .text s
    | .tuple parts => return .tuple (← inOrder (evaluate m fuel) parts)
    | .array parts => return .array (← inOrder (evaluate m fuel) parts)
    | node => fail (.notAnExpression node.label)

/-- The name of the function that a run begins with. -/
def entryName : String := "main"

/-- The number that every parameter of the first function is bound to. -/
def seed : Int := 3

/-- Runs the first function. Its environment holds every function of the program as a value, and its
parameters bound to the seed. -/
def runEntry (m : Machine) (fuel : Nat) : Step (Option Value) := do
  match m.program.get? entryName with
  | none => fail .noMain
  | some f =>
    let functions : Environment := .ofList (m.program.keys.map fun name => (name, .function name))
    let parameters ← parameterNames m f
    let environment := parameters.foldl (fun e name => e.insert name (.number seed)) functions
    inCall environment (enter m (evaluate m fuel) f)

/-- How a run ended, and what it printed. -/
structure Outcome where
  result : Except Halt (Option Value)
  printed : String

def run (m : Machine) (fuel : Nat) : Outcome :=
  match runEntry m fuel ⟨∅, ""⟩ with
  | .ok v f => ⟨.ok v, f.printed⟩
  | .error e f => ⟨.error e, f.printed⟩

def notes (p : Program) : List String :=
  if p.contains entryName then
    ["running " ++ entryName ++ s!" with {p.size} functions in scope"]
  else []

end Evaluation

end LetLang
