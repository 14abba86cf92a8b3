import LetLang.Evaluation
import LetLang.Proofs.Grammar.Shape

/-!
# Evaluating trees

The meaning of a file without an arena: the trees are evaluated as they stand, and an applied lambda
is entered on the spot. The evaluation shares with that of nodes only what does not depend on the
form of a program: environments, printing, the operators on values, and the order of parts.
-/

namespace LetLang.Direct

open Evaluation (Step Frame Outcome fail look bind print inCall inSequence inOrder lift operate
  inspected)

/-- The natives that every program has. -/
inductive Intrinsic where
  | print | printLine | readFile | inspect
  deriving Repr, DecidableEq

def Intrinsic.name : Intrinsic → String
  | .print => "std.print"
  | .printLine => "std.println"
  | .readFile => "std.read"
  | .inspect => "std.to_string"

/-- What a name stands for when it is applied. -/
inductive Definition where
  | written (parameters : List String) (body : Tree String)
  | intrinsic (i : Intrinsic)

def names (parameters : List (Tree String)) : List String := parameters.filterMap Tree.name?

theorem length_names {ps : List (Tree String)} (hps : ∀ p ∈ ps, p.IsParameter) :
    (names ps).length = ps.length := by
  induction ps with
  | nil => rfl
  | cons p ps ih =>
    obtain ⟨⟨x, rfl, -⟩, hrest⟩ := List.forall_mem_cons.1 hps
    rw [names, List.filterMap_cons, List.length_cons]
    exact congrArg Nat.succ (ih hrest)

def definition? : Tree String → Option (String × Definition)
  | .bind (.identifier x) _ (.lambda parameters body) => some (x, .written (names parameters) body)
  | _ => none

def intrinsics : List (String × Definition) :=
  [Intrinsic.print, .printLine, .readFile, .inspect].map fun i => (i.name, .intrinsic i)

/-- What the names of a file stand for. The last definition of a name wins, and a native wins over
every definition. -/
def definitions (statements : List (Tree String)) : Table String Definition :=
  .ofList (statements.filterMap definition? ++ intrinsics)

/-- What an evaluation looks at. -/
structure World where
  definitions : Table String Definition
  files : Files

/-- The values that an argument spreads over parameters. -/
def spread : Value → List Value
  | .tuple [v] => [.tuple [v]]
  | .tuple vs => vs
  | v => [v]

def arguments (function : String) (parameters : List String) (argument : Value) :
    Except RunError Environment :=
  let values := spread argument
  if parameters.length = values.length then .ok (.ofList (parameters.zip values))
  else .error (.argumentCount function parameters.length values.length)

def textFor (i : Intrinsic) : Value → Step String
  | .text s => return s
  | v => fail (.showing [v] (.argumentNotText i.name v))

def perform (files : Files) (i : Intrinsic) (argument : Value) : Step Value :=
  match i with
  | .print => do
    print (← textFor i argument)
    return .void
  | .printLine => do
    print ((← textFor i argument) ++ "\n")
    return .void
  | .readFile => do
    let name ← textFor i argument
    match files.readText name with
    | .ok s => return .text s
    | .error e => fail (.unreadable name e)
  | .inspect => return .text (← lift (inspected argument))

/-- The name of an applied lambda in failures. -/
def anonymous : String := "lambda"

/-- Applies a definition to an argument; `run` runs a body. -/
def apply (w : World) (run : Tree String → Step Value) (name : String) (d : Definition)
    (argument : Value) : Step Value :=
  match d with
  | .written parameters body => do
    let environment ← lift (arguments name parameters argument)
    inCall environment (run body)
  | .intrinsic i =>
    if (spread argument).length = 1 then perform w.files i argument
    else fail (.argumentCount name 1 (spread argument).length)

/-- Evaluates a tree whose parts are evaluated by `run`. -/
def step (w : World) (run : Tree String → Step Value) : Tree String → Step Value
  | .bind (.identifier x) _ (.lambda ..) => fail (.notAnExpression ("Function(" ++ x ++ ")"))
  | .bind (.identifier x) _ value => do
    bind x (← run value)
    return .void
  | .block statements => inSequence run statements
  | .identifier x => do
    match ← look x with
    | some v => return v
    | none => fail (.unknownIdentifier x)
  | .binary left right op => do
    let l ← run left
    let r ← run right
    lift (operate op l r)
  | .apply (.lambda parameters body) argument => do
    let v ← run argument
    apply w run anonymous (.written (names parameters) body) v
  | .apply (.identifier x) argument => do
    let v ← run argument
    match w.definitions.get? x with
    | none => fail (.unknownFunction x)
    | some d => apply w run x d v
  | .number n => return .number n
  | .boolean b => return .boolean b
  | .text s => return .text s
  | .tuple elements => return .tuple (← inOrder run elements)
  | .array elements => return .array (← inOrder run elements)
  | t => fail (.notAnExpression t.kind)

def evaluate (w : World) : (fuel : Nat) → Tree String → Step Value
  | 0, _ => throw .outOfFuel
  | fuel + 1, t => step w (evaluate w fuel) t

/-- The environment that the first function begins with: every name as a function, and over them the
parameters, each bound to the seed. -/
def entryEnvironment (w : World) (parameters : List String) : Environment :=
  parameters.foldl (fun e x => e.insert x (.number Evaluation.seed))
    (.ofList (w.definitions.keys.map fun x => (x, .function x)))

def runEntry (w : World) (fuel : Nat) : Step Value :=
  match w.definitions.get? Evaluation.entryName with
  | none => fail .noMain
  | some (.written parameters body) =>
    inCall (entryEnvironment w parameters) (evaluate w fuel body)
  | some (.intrinsic i) => perform w.files i (.number Evaluation.seed)

def run (statements : List (Tree String)) (files : Files) (fuel : Nat) : Outcome :=
  match runEntry ⟨definitions statements, files⟩ fuel ⟨∅, ""⟩ with
  | .ok v f => ⟨.ok (some v), f.printed⟩
  | .error e f => ⟨.error e, f.printed⟩

end LetLang.Direct
