import LetLang.Analysis
import LetLang.Evaluation
import LetLang.Grammar
import LetLang.Lowering
import LetLang.Typing.Check

/-!
# Sessions

A session takes a source text through the passes: it is scanned, parsed, checked, lowered and run.
It keeps a transcript of what the program printed and of what the passes noted, also when it
fails.
-/

namespace LetLang

/-- The part of the work that a failure belongs to. An internal failure means that something is not
what an earlier part promises. -/
inductive Stage where
  | parse | check | lower | interpret | internal
  deriving Repr, DecidableEq

def Stage.name : Stage → String
  | .parse => "parse"
  | .check => "check"
  | .lower => "lower"
  | .interpret => "interpret"
  | .internal => "internal"

def LoweringError.stage : LoweringError → Stage
  | .unissued _ | .placeholderLeft .. => .internal
  | _ => .lower

/-- The stage of a refusal to make a program; refused natives belong to none. -/
def ProgramError.stage? : ProgramError → Option Stage
  | .native _ => none
  | _ => some .internal

/-- The stage of a refusal of a source text; a number that cannot be read belongs to none. -/
def SourceError.stage? : SourceError → Option Stage
  | .numeral _ => none
  | .grammar _ => some .parse

/-- The stage of a failure to evaluate; a file that is no text and a value without one belong to
none. -/
def RunError.stage? : RunError → Option Stage
  | .notAnExpression _ | .noMain | .emptySequence | .unknownIdentifier _ | .unknownFunction _
  | .operands .. => some .interpret
  | .unreadable _ (.undecodable _) | .unreadable _ .nulInPath | .unwritten _ => none
  | _ => some .internal

inductive Failure where
  | parse (e : SourceError)
  | check (e : TypeError)
  | lower (e : LoweringError)
  | analyse (e : AnalysisError)
  | label (e : Unissued)
  | program (e : ProgramError)
  | run (e : RunError)
  | native (e : NativeError)
  | file (e : FileError)
  /-- The value of the run has no text. -/
  | unwritten (value : Value)
  | noRenderer
  | noWindow
  /-- The run was not finished when its fuel was used up. -/
  | outOfFuel
  deriving Repr

def Failure.stage? : Failure → Option Stage
  | .parse e => e.stage?
  | .check _ => some .check
  | .lower e => some e.stage
  | .analyse _ => some .internal
  | .label _ => some .internal
  | .program e => e.stage?
  | .run e => e.stage?
  | .native _ | .file _ | .unwritten _ | .noRenderer | .noWindow | .outOfFuel => none

def Failure.message : Failure → String
  | .parse e => e.message
  | .check e => e.message
  | .lower e => e.message
  | .analyse e => e.message
  | .label e => e.message
  | .program e => e.message
  | .run e => e.message
  | .native e => e.message
  | .file e => e.message
  | .unwritten _ => Text.unwrittenMessage
  | .noRenderer => "Graphviz export requires the optional pydot dependency"
  | .noWindow => "Visualization requires matplotlib to be installed"
  | .outOfFuel => "Out of fuel"

/-- The passes that note what they do. -/
inductive Pass where
  | scanner | parser | checker | lowerer | pipeline | analysis | evaluator | command
  deriving Repr, DecidableEq

def Pass.name : Pass → String
  | .scanner => "gale.compiler.tokenizer"
  | .parser => "gale.compiler.parser"
  | .checker => "gale.compiler.checker"
  | .lowerer => "gale.compiler.lowerer"
  | .pipeline => "gale.compiler.pipeline"
  | .analysis => "gale.compiler.analysis"
  | .evaluator => "gale.compiler.interpreter"
  | .command => "gale.compiler.cli"

/-- What was printed, and what the passes noted, in order. -/
structure Transcript where
  printed : String
  notes : List (Pass × String)
  deriving Repr

/-- A session. The transcript is kept when it fails. -/
abbrev Session := EStateM Failure Transcript

namespace Session

def note (pass : Pass) (texts : List String) : Session Unit :=
  modify fun t => { t with notes := t.notes ++ texts.map fun s => (pass, s) }

def print (text : String) : Session Unit :=
  modify fun t => { t with printed := t.printed ++ text }

/-- The outcome of a part that prints and notes nothing. -/
def lift {ε α : Type} (failure : ε → Failure) : Except ε α → Session α
  | .ok a => pure a
  | .error e => throw (failure e)

/-- A source text that went through all passes before it is run. -/
structure Compiled where
  statements : List (Tree String)
  lowered : Lowering.Lowered

def parse (source : String) : Session (List (Tree String)) := do
  note .scanner (Scan.notes source)
  let statements ← lift .parse (parseSource source)
  note .parser [s!"parsed {statements.length} top-level statements"]
  return statements

def check (statements : List (Tree String)) (natives : List Native) : Session Unit := do
  let scope ← lift .native (Scope.ofPrelude natives)
  let (result, s) := Typing.run (.file statements) .nothing ⟨scope, []⟩
  note .checker s.notes
  let _ ← lift .check result
  note .checker [s!"type check passed with {s.context.own.bindings.size} variables bound"]

/-- Lowers a surface tree. -/
def lower (tree : Tree String) : Session Lowering.Lowered := do
  let lowered ← lift .lower (LetLang.lower tree)
  note .lowerer lowered.notes
  return lowered

/-- Takes a source text through all passes before it is run; the check can be left out. -/
def compile (source : String) (checked : Bool) (natives : List Native) : Session Compiled := do
  let statements ← parse source
  if checked then check statements natives
  let lowered ← lower (.file statements)
  note .pipeline
    [s!"compiled {source.length} characters into {lowered.arena.size} arena nodes"]
  return ⟨statements, lowered⟩

/-- Runs an arena with some natives besides the standard ones. -/
def interpret (arena : Arena Node) (natives : List Native) (files : Files) (fuel : Nat) :
    Session (Option Value) := do
  let program ← lift .program (Program.build arena natives)
  note .evaluator (Evaluation.notes program)
  let outcome := Evaluation.run ⟨arena, program, files⟩ fuel
  print outcome.printed
  match outcome.result with
  | .ok v => return v
  | .error (.failed e) => throw (.run e)
  | .error .outOfFuel => throw .outOfFuel

def analyse (arena : Arena Node) : Session Analysis.Graphs := do
  let graphs ← lift .analyse (Analysis.graphs arena)
  note .analysis (graphs.scopes.notes ++ graphs.types.notes)
  return graphs

/-- The result of a session, and its transcript. -/
def outcome {α : Type} (s : Session α) : Except Failure α × Transcript :=
  match s ⟨"", []⟩ with
  | .ok a t => (.ok a, t)
  | .error e t => (.error e, t)

end Session

end LetLang
