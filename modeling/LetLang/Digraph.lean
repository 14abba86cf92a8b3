import LetLang.Table

/-!
# Directed graphs

A graph keeps its vertices in order of insertion and its edges as a set. Vertices are integers. The
graph can hand out a vertex by itself: the least number that is above every vertex put in by number.
An edge brings its ends with it where they are missing, and the numbers handed out later do not heed
those.
-/

namespace LetLang

/-- A directed graph. `next` is the vertex that is handed out next. -/
structure Digraph where
  vertices : List Int
  edges : List (Int × Int)
  next : Int
  deriving Repr

namespace Digraph

def empty : Digraph := ⟨[], [], 0⟩

def hasVertex (g : Digraph) (v : Int) : Bool := g.vertices.contains v

def hasEdge (g : Digraph) (a b : Int) : Bool := g.edges.contains (a, b)

/-- Puts a vertex in, last, unless it is there. -/
def ensure (g : Digraph) (v : Int) : Digraph :=
  if g.hasVertex v then g else { g with vertices := g.vertices ++ [v] }

def newVertex (g : Digraph) : Int × Digraph := (g.next, { g.ensure g.next with next := g.next + 1 })

def addVertex (g : Digraph) (v : Int) : Digraph :=
  { g.ensure v with next := if g.next ≤ v then v + 1 else g.next }

/-- Takes a vertex out, with its edges. -/
def deleteVertex (g : Digraph) (v : Int) : Digraph :=
  { g with
    vertices := g.vertices.filter fun u => u ≠ v
    edges := g.edges.filter fun e => e.1 ≠ v ∧ e.2 ≠ v }

/-- Puts an edge in, and its ends where they are missing, the source first. -/
def addEdge (g : Digraph) (a b : Int) : Digraph :=
  let g := (g.ensure a).ensure b
  if g.hasEdge a b then g else { g with edges := g.edges ++ [(a, b)] }

@[simp] theorem hasVertex_iff {g : Digraph} {v : Int} : g.hasVertex v = true ↔ v ∈ g.vertices := by
  simp [hasVertex]

@[simp] theorem hasEdge_iff {g : Digraph} {a b : Int} :
    g.hasEdge a b = true ↔ (a, b) ∈ g.edges := by
  simp [hasEdge]

theorem mem_vertices_ensure {g : Digraph} {u v : Int} :
    u ∈ (g.ensure v).vertices ↔ u ∈ g.vertices ∨ u = v := by
  unfold ensure
  split
  · rename_i h
    rw [hasVertex_iff] at h
    constructor
    · exact Or.inl
    · rintro (h' | rfl)
      · exact h'
      · exact h
  · simp

@[simp] theorem edges_ensure (g : Digraph) (v : Int) : (g.ensure v).edges = g.edges := by
  unfold ensure; split <;> rfl

@[simp] theorem next_ensure (g : Digraph) (v : Int) : (g.ensure v).next = g.next := by
  unfold ensure; split <;> rfl

theorem mem_vertices_addEdge {g : Digraph} {a b u : Int} :
    u ∈ (g.addEdge a b).vertices ↔ u ∈ g.vertices ∨ u = a ∨ u = b := by
  unfold addEdge
  dsimp only
  split <;> simp [mem_vertices_ensure, or_assoc]

theorem mem_edges_addEdge {g : Digraph} {a b : Int} {e : Int × Int} :
    e ∈ (g.addEdge a b).edges ↔ e ∈ g.edges ∨ e = (a, b) := by
  unfold addEdge
  dsimp only
  split
  · rename_i h
    rw [hasEdge_iff] at h
    constructor
    · intro he; simpa using Or.inl he
    · rintro (he | rfl) <;> simp_all
  · simp

/-- An edge hands out no vertex. -/
@[simp] theorem next_addEdge (g : Digraph) (a b : Int) : (g.addEdge a b).next = g.next := by
  unfold addEdge
  dsimp only
  split <;> simp

/-- The order of edges: by source, then by target. -/
def edgeLe (e f : Int × Int) : Bool := e.1 < f.1 || (e.1 = f.1 && e.2 ≤ f.2)

def sortedEdges (g : Digraph) : List (Int × Int) := g.edges.mergeSort edgeLe

def sortedVertices (g : Digraph) : List Int := g.vertices.mergeSort fun a b => a ≤ b

def display (g : Digraph) : String :=
  s!"Graph(vertices={g.vertices.length}, edges={g.edges.length})"

end Digraph

end LetLang
