import LetLang.Command.Options
import LetLang.Drawing
import LetLang.Json
import LetLang.Listing
import LetLang.Session
import LetLang.Text.Lines

/-!
# The command

The command takes a source text, from a file or from the command line itself, through the passes.
It prints the listing of the lowered program, or graphs of it, or runs it and prints the value. A
failure is reported in one line, but a file that is no text or whose name no file can have, and a
number that is too long to be read or written, are not reported and end the command.
-/

namespace LetLang.Command

/-- What the command finds around it: the files, whether drawings can be rendered, and the fuel of a
run. -/
structure Surroundings where
  files : Files
  renderer : Bool
  fuel : Nat

/-- The source text that the options name. An empty file name counts as none. -/
def sourceOf (files : Files) (o : Options) : Session String :=
  match o.file with
  | none => pure o.source
  | some name => if name = "" then pure o.source else Session.lift .file (files.readText name)

def nativeJson (n : Native) : Json :=
  .object [("name", .string n.name), ("arg_type", .string n.argument),
    ("return_type", .string n.result), ("parameters", .list (n.parameters.map .string))]

def entryJson (e : Entry) : Json :=
  .object [("id", .number e.id), ("parent", .number e.parent), ("kind", .string e.node.kind),
    ("label", .string e.node.label),
    ("children", .list (e.children.map fun (c : Nat) => .number c))]

def listingText (a : Arena Node) : String :=
  (Json.object [("natives", .list (Native.standard.map nativeJson)),
    ("nodes", .list ((listing a).map entryJson))]).render 0

/-- A graph with its labels, and the arena if its vertices are nodes. -/
structure Labelled where
  graph : Digraph
  vertexLabel : Int → Except Unissued String
  edgeLabel : Int × Int → String
  arena : Option (Arena Node)

def select (a : Arena Node) (graphs : Analysis.Graphs) : GraphKind → Labelled
  | .nodes => ⟨graphs.nodes, Drawing.nodeLabel a, fun _ => "", some a⟩
  | .scopes => ⟨graphs.scopes.graph, fun _ => .ok "scope", fun _ => "", none⟩
  | .types =>
    ⟨graphs.types.graph, Drawing.nodeLabel a, Drawing.tagLabel graphs.types.tags, some a⟩

def Labelled.dot (g : Labelled) : Except Unissued String :=
  Drawing.dot g.graph g.vertexLabel g.edgeLabel

/-- Draws a labelled graph for a renderer and gives the path of the picture. The renderer finds a
file there to write into, and the directories on the way to it. -/
def Labelled.draw (g : Labelled) (files : Files) (renderer : Bool) (output : String) :
    Except Failure (Drawing × Path) :=
  if renderer then
    match Drawing.ofGraph g.graph g.vertexLabel g.edgeLabel g.arena with
    | .error e => .error (.label e)
    | .ok drawing =>
      let path := Path.ofString output
      match files.save path [] with
      | .error e => .error (.file e)
      | .ok _ => .ok (drawing, path)
  else .error .noRenderer

/-- Shows the graph that the options ask for. There is no window to show it in. -/
def showGraph (around : Surroundings) (o : Options) (a : Arena Node) : Session Unit := do
  let graphs ← Session.analyse a
  let g := select a graphs (o.graph.getD .nodes)
  if o.graph.isSome then Session.print (← Session.lift .label g.dot)
  match o.output with
  | none => pure ()
  | some output =>
    let (_, path) ← Session.lift id (g.draw around.files around.renderer output)
    Session.print ("✓ Wrote " ++ path.display ++ "\n")
  if o.window then throw .noWindow

/-- The text of what a run gives, for a user. -/
def exitText : Option Value → Except Failure String
  | none => .ok "None"
  | some v => if v.hasText then .ok v.display else .error (.unwritten v)

def perform (around : Surroundings) (o : Options) : Session Unit := do
  let source ← sourceOf around.files o
  let compiled ← Session.compile source o.checked []
  let arena := compiled.lowered.arena
  if o.listing then Session.print (listingText arena ++ "\n")
  if o.graph.isSome || o.output.isSome || o.window then showGraph around o arena
  else
    let value ← Session.interpret arena [] around.files around.fuel
    Session.print ("Exit value: " ++ (← Session.lift id (exitText value)) ++ "\n")

/-- The failure is reported by the command, and does not end it. -/
def isReported : Failure → Bool
  | .file (.refused ..) => true
  | .noRenderer | .noWindow => true
  | f => f.stage?.isSome

inductive Ending where
  | done
  | reported (f : Failure)
  | escaped (f : Failure)
  deriving Repr

/-- The exit code, unless the command was ended by a failure. -/
def Ending.exitCode? : Ending → Option Nat
  | .done => some 0
  | .reported _ => some 1
  | .escaped _ => none

/-- How the command ended, what it printed, and what the passes noted. -/
structure Report where
  ending : Ending
  transcript : Transcript
  deriving Repr

def failureNote (f : Failure) : List (Pass × String) :=
  match f.stage? with
  | some stage => [(.command, stage.name ++ " stage failed: " ++ f.message)]
  | none => []

def run (around : Surroundings) (o : Options) : Report :=
  match Session.outcome (perform around o) with
  | (.ok (), t) => ⟨.done, t⟩
  | (.error f, t) =>
    if isReported f then
      ⟨.reported f, ⟨t.printed ++ "✗ " ++ f.message ++ "\n", t.notes ++ failureNote f⟩⟩
    else ⟨.escaped f, t⟩

/-- The log of a run: the lines of the notes, if they were asked for, each note behind the name of
its pass. -/
def Report.log (r : Report) (o : Options) : List String :=
  if o.verbose then
    r.transcript.notes.flatMap fun n => Text.lines (n.1.name ++ ": " ++ n.2 ++ "\n")
  else []

/-- The last line that a refused command line is answered with. Newlines at its end do not count. -/
def UsageError.report (e : UsageError) : String :=
  let text := (name ++ ": error: " ++ e.message).toList.reverse
  String.ofList ((text.dropWhile (· = '\n')).takeWhile (· ≠ '\n')).reverse

end LetLang.Command
