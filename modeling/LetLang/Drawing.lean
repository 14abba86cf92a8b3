import LetLang.Analysis

/-!
# Drawings of graphs

A graph is written as DOT text, or handed to a renderer as a drawing with shapes and colours. Labels
come from functions that may fail: a vertex can be a number that no node has.
-/

namespace LetLang

namespace Drawing

def nodeLabel (a : Arena Node) (v : Int) : Except Unissued String :=
  (a.value? v).map fun
    | some node => node.label
    | none => "<deleted>"

/-- The label of an edge: the sign of its tag, if it has one. -/
def tagLabel (tags : Table (Int × Int) Tag) (e : Int × Int) : String :=
  match tags.get? e with
  | some t => t.sign
  | none => ""

def dotLine (vertexLabel : Int → Except Unissued String) (edgeLabel : Int × Int → String)
    (e : Int × Int) : Except Unissued String := do
  let source ← vertexLabel e.1
  let target ← vertexLabel e.2
  return s!"  \"{e.1} " ++ source ++ s!"\" -> \"{e.2} " ++ target ++
    "\" [ label=\"" ++ edgeLabel e ++ "\" ];\n"

/-- A graph as DOT text, a line for each edge in order. -/
def dot (g : Digraph) (vertexLabel : Int → Except Unissued String)
    (edgeLabel : Int × Int → String) : Except Unissued String := do
  let lines ← g.sortedEdges.mapM (dotLine vertexLabel edgeLabel)
  return "digraph G \x7b\n" ++ String.join lines ++ "\x7d\n"

def nodeColour : Node → String
  | .file _ => "#B0BEC5"
  | .function .. => "#9575CD"
  | .native .. => "#9575CD"
  | .sequence _ => "#FFEB3B"
  | .bind .. => "#FF7043"
  | .apply .. => "#8BC34A"
  | node => if node.isType then "#90CAF9" else "#ECEFF1"

/-- The colour of scopes and of nodes that are gone. -/
def scopeColour : String := "#FFE082"

def standardTypeface : String := "Helvetica"

structure Vertex where
  name : String
  label : String
  shape : String
  style : String
  fillColour : String
  typeface : String
  deriving Repr, DecidableEq

structure Edge where
  source : String
  target : String
  label : String
  deriving Repr, DecidableEq

end Drawing

/-- A graph to draw, from top to bottom. -/
structure Drawing where
  name : String
  kind : String
  direction : String
  typeface : String
  vertices : List Drawing.Vertex
  edges : List Drawing.Edge
  deriving Repr, DecidableEq

namespace Drawing

/-- A vertex as it is drawn: a box with the colour of its node, or an ellipse where vertices are not
nodes. -/
def vertex (a : Option (Arena Node)) (vertexLabel : Int → Except Unissued String) (v : Int) :
    Except Unissued Vertex := do
  let node ← match a with
    | some a => a.value? v
    | none => .ok none
  let label ← vertexLabel v
  return {
    name := s!"{v}"
    label := s!"{v} " ++ label
    shape := if a.isSome then "box" else "ellipse"
    style := "filled"
    fillColour := (node.map nodeColour).getD scopeColour
    typeface := standardTypeface }

/-- Draws a graph. With an arena, vertices are its nodes. -/
def ofGraph (g : Digraph) (vertexLabel : Int → Except Unissued String)
    (edgeLabel : Int × Int → String) (a : Option (Arena Node)) : Except Unissued Drawing := do
  let vertices ← g.sortedVertices.mapM (vertex a vertexLabel)
  return {
    name := "G"
    kind := "digraph"
    direction := "TB"
    typeface := standardTypeface
    vertices := vertices
    edges := g.sortedEdges.map fun e => ⟨s!"{e.1}", s!"{e.2}", edgeLabel e⟩ }

end Drawing

end LetLang
