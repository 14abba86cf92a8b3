import LetLang.Digraph
import LetLang.Node
import LetLang.Ty

/-!
# Graphs of a lowered program

Three graphs show the structure of an arena. The node graph has the live nodes and an edge from
each to its children. The scope graph has a vertex for every file, function and sequence, and an
edge from each scope to the one around it. The type graph has an edge from one node to another
where the type of the one bears on the type of the other; a tag says how.
-/

namespace LetLang

inductive AnalysisError where
  | unissued (e : Unissued)
  | vertexNotLive (vertex : Int)
  | parentWithoutScope (id : Nat)
  deriving Repr, DecidableEq

def AnalysisError.message : AnalysisError → String
  | .unissued e => e.message
  | .vertexNotLive v => s!"Node graph vertex {v} is not a live arena node"
  | .parentWithoutScope id => s!"Parent of node {id} has no resolved scope"

/-- How the types at the ends of an edge bear on each other. -/
inductive Tag where
  /-- Both are the same. -/
  | equal
  /-- The source is an element of the target. -/
  | member
  deriving Repr, DecidableEq

def Tag.sign : Tag → String
  | .equal => "="
  | .member => "∈"

namespace Analysis

/-- The live nodes of an arena with edges to their children. -/
def nodeGraph (a : Arena Node) : Digraph :=
  a.live.foldl
    (fun g n => (a.children n.1).foldl (fun g (c : Nat) => g.addEdge n.1 c) (g.addVertex n.1))
    .empty

/-- A type graph: the edges, and the tags of those that have one. -/
structure TypeGraph where
  graph : Digraph
  tags : Table (Int × Int) Tag

def TypeGraph.link (g : TypeGraph) (source target : Int) (tag : Option Tag) : TypeGraph where
  graph := g.graph.addEdge source target
  tags := match tag with
    | some t => g.tags.insert (source, target) t
    | none => g.tags

/-- The edges that a node calls for. An index bears on its array, but neither tag says how. -/
def typeEdges (id : Int) : Node → List (Int × Int × Option Tag)
  | .bind name type value => [(value, type, some .equal), (name, type, some .equal)]
  | .arrayType _ element => [(id, element, some .member)]
  | .array elements => elements.map fun e => (e, id, some .member)
  | .apply callee _ => [(id, callee, some .equal)]
  | .binary .index left right => [(right, left, none)]
  | .binary _ left right => [(right, left, some .equal), (left, right, some .equal)]
  | _ => []

def linkAll (a : Arena Node) (g : TypeGraph) : List Int → Except AnalysisError TypeGraph
  | [] => .ok g
  | v :: vs =>
    match a.value? v with
    | .error e => .error (.unissued e)
    | .ok none => .error (.vertexNotLive v)
    | .ok (some node) =>
      linkAll a ((typeEdges v node).foldl (fun g e => g.link e.1 e.2.1 e.2.2) g) vs

def typeGraph (nodes : Digraph) (a : Arena Node) : Except AnalysisError TypeGraph :=
  linkAll a ⟨nodes.vertices.foldl Digraph.addVertex .empty, ∅⟩ nodes.vertices

/-- A scope graph: the scopes, and the scope of each node. -/
structure ScopeGraph where
  graph : Digraph
  scopes : Table Nat Int

/-- The node opens a scope inside another. -/
def opensScope : Node → Bool
  | .function .. | .native .. | .sequence _ => true
  | _ => false

/-- Gives nodes their scopes, each after its parent. -/
def assignScopes (a : Arena Node) (g : ScopeGraph) :
    List (Nat × Node) → Except AnalysisError ScopeGraph
  | [] => .ok g
  | (id, .file _) :: rest =>
    let (scope, graph) := g.graph.newVertex
    assignScopes a ⟨graph, g.scopes.insert id scope⟩ rest
  | (id, node) :: rest =>
    match a.parent id with
    | .error e => .error (.unissued e)
    | .ok parent =>
      match g.scopes.get? parent with
      | none => .error (.parentWithoutScope id)
      | some around =>
        if opensScope node then
          let (scope, graph) := g.graph.newVertex
          assignScopes a ⟨graph.addEdge scope around, g.scopes.insert id scope⟩ rest
        else assignScopes a ⟨g.graph, g.scopes.insert id around⟩ rest

def scopeGraph (a : Arena Node) : Except AnalysisError ScopeGraph :=
  assignScopes a ⟨.empty, ∅⟩ a.preorder

/-- The types that are known of the vertices of a type graph. Nothing is inferred along its edges,
so none are. -/
def knownTypes (_ : TypeGraph) : Table Int Ty := ∅

structure Graphs where
  nodes : Digraph
  scopes : ScopeGraph
  types : TypeGraph

def graphs (a : Arena Node) : Except AnalysisError Graphs :=
  let nodes := nodeGraph a
  match scopeGraph a with
  | .error e => .error e
  | .ok scopes =>
    match typeGraph nodes a with
    | .error e => .error e
    | .ok types => .ok ⟨nodes, scopes, types⟩

def ScopeGraph.notes (g : ScopeGraph) : List String :=
  [s!"scope graph: {g.graph.vertices.length} scopes over {g.scopes.size} nodes"]

def TypeGraph.notes (g : TypeGraph) : List String :=
  [s!"type dependency graph: {g.graph.vertices.length} vertices, {g.graph.edges.length} edges"]

end Analysis

end LetLang
