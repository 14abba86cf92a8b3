import LetLang.Digraph
import Mathlib.Data.List.Nodup

/-!
# Edges of directed graphs

A graph keeps each edge once, so that in their order the edges strictly increase. What a graph holds
after vertices and edges were added to it one after the other is read off the additions.
-/

namespace LetLang.Digraph

variable {g : Digraph} {a b v : Int} {e f : Int × Int}

/-- The vertex is an end of an edge. -/
def IsEnd (g : Digraph) (v : Int) : Prop := ∃ e ∈ g.edges, v = e.1 ∨ v = e.2

/-- The first edge comes before the second: by its source, then by its target. -/
def EdgeLt (e f : Int × Int) : Prop := e.1 < f.1 ∨ e.1 = f.1 ∧ e.2 < f.2

theorem edgeLe_iff : edgeLe e f = true ↔ EdgeLt e f ∨ e = f := by
  unfold edgeLe EdgeLt
  rw [Prod.ext_iff]
  simp only [Bool.or_eq_true, Bool.and_eq_true, decide_eq_true_eq]
  omega

@[simp] theorem mem_sortedEdges : e ∈ g.sortedEdges ↔ e ∈ g.edges := List.mem_mergeSort

/-- Where no edge is kept twice, the sorted edges strictly increase. -/
theorem pairwise_sortedEdges (h : g.edges.Nodup) : g.sortedEdges.Pairwise EdgeLt := by
  have htrans : ∀ d e f, edgeLe d e = true → edgeLe e f = true → edgeLe d f = true := by
    intro d e f
    simp only [edgeLe, Bool.or_eq_true, Bool.and_eq_true, decide_eq_true_eq]
    omega
  have htotal : ∀ e f, (edgeLe e f || edgeLe f e) = true := by
    intro e f
    simp only [edgeLe, Bool.or_eq_true, Bool.and_eq_true, decide_eq_true_eq]
    omega
  have hle := List.pairwise_mergeSort htrans htotal g.edges
  have hne : g.sortedEdges.Nodup := (List.mergeSort_perm g.edges edgeLe).nodup_iff.2 h
  exact hle.imp₂ (fun e f hef hne => (edgeLe_iff.1 hef).resolve_right hne) hne

theorem isEnd_addEdge : (g.addEdge a b).IsEnd v ↔ g.IsEnd v ∨ v = a ∨ v = b := by
  simp only [IsEnd, mem_edges_addEdge]
  constructor
  · rintro ⟨e, he | rfl, hv⟩
    · exact .inl ⟨e, he, hv⟩
    · exact .inr hv
  · rintro (⟨e, he, hv⟩ | hv)
    · exact ⟨e, .inl he, hv⟩
    · exact ⟨_, .inr rfl, hv⟩

theorem nodup_edges_addEdge (h : g.edges.Nodup) (a b : Int) : (g.addEdge a b).edges.Nodup := by
  unfold addEdge
  dsimp only
  split
  · simpa using h
  · next hedge =>
    rw [hasEdge_iff, edges_ensure, edges_ensure] at hedge
    simp only [edges_ensure]
    exact List.nodup_append.2 ⟨h, List.nodup_singleton _, fun e he f hf hef => by
      obtain rfl := List.mem_singleton.1 hf
      exact hedge (hef ▸ he)⟩

theorem nodup_vertices_ensure (h : g.vertices.Nodup) (v : Int) : (g.ensure v).vertices.Nodup := by
  unfold ensure
  split
  · exact h
  · next hmissing =>
    rw [hasVertex_iff] at hmissing
    exact List.nodup_append.2 ⟨h, List.nodup_singleton v, fun u hu w hw huw => by
      obtain rfl := List.mem_singleton.1 hw
      exact hmissing (huw ▸ hu)⟩

theorem nodup_vertices_addVertex (h : g.vertices.Nodup) (v : Int) :
    (g.addVertex v).vertices.Nodup := nodup_vertices_ensure h v

theorem nodup_vertices_addEdge (h : g.vertices.Nodup) (a b : Int) :
    (g.addEdge a b).vertices.Nodup := by
  have hends := nodup_vertices_ensure (nodup_vertices_ensure h a) b
  unfold addEdge
  dsimp only
  split <;> exact hends

@[simp] theorem edges_addVertex (g : Digraph) (v : Int) : (g.addVertex v).edges = g.edges :=
  edges_ensure g v

@[simp] theorem edges_newVertex (g : Digraph) : g.newVertex.2.edges = g.edges :=
  edges_ensure g g.next

@[simp] theorem next_newVertex (g : Digraph) : g.newVertex.2.next = g.next + 1 := rfl

/-- A new vertex goes last. -/
theorem vertices_newVertex (h : g.next ∉ g.vertices) :
    g.newVertex.2.vertices = g.vertices ++ [g.next] := by
  have hmissing : ¬ g.hasVertex g.next = true := by rwa [hasVertex_iff]
  change (g.ensure g.next).vertices = _
  rw [ensure, if_neg hmissing]

/-- An edge between vertices brings no vertex with it. -/
theorem vertices_addEdge (ha : a ∈ g.vertices) (hb : b ∈ g.vertices) :
    (g.addEdge a b).vertices = g.vertices := by
  have hensure : ∀ {v : Int}, v ∈ g.vertices → g.ensure v = g := fun hv =>
    if_pos (hasVertex_iff.2 hv)
  unfold addEdge
  rw [hensure ha, hensure hb]
  dsimp only
  split <;> rfl

theorem mem_vertices_addVertex {u : Int} :
    u ∈ (g.addVertex v).vertices ↔ u ∈ g.vertices ∨ u = v := mem_vertices_ensure

/-- What each addition gives, and nothing else, is there after all of them. -/
theorem foldl_iff {σ β : Type} {Q : σ → Prop} {P : β → Prop} {add : σ → β → σ}
    (hadd : ∀ s x, Q (add s x) ↔ Q s ∨ P x) (s : σ) (xs : List β) :
    Q (xs.foldl add s) ↔ Q s ∨ ∃ x ∈ xs, P x := by
  induction xs generalizing s with
  | nil => simp
  | cons x xs ih =>
    rw [List.foldl_cons, ih, hadd, or_assoc]
    simp

end LetLang.Digraph
