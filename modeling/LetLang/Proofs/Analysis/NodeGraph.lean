import LetLang.Analysis
import LetLang.Proofs.Arena.Pruned
import LetLang.Proofs.Digraph

/-!
# The node graph

The node graph of an arena has the live nodes and the steps from a live node to one directly below
it, whatever was deleted before.
-/

namespace LetLang.Analysis

variable {a : Arena Node} {v : Int} {e : Int × Int}

def addNode (a : Arena Node) (g : Digraph) (n : Nat × Node) : Digraph :=
  (a.children n.1).foldl (fun g (c : Nat) => g.addEdge n.1 c) (g.addVertex n.1)

theorem nodeGraph_eq (a : Arena Node) : nodeGraph a = a.live.foldl (addNode a) .empty := rfl

theorem mem_edges_addNode (g : Digraph) (n : Nat × Node) :
    e ∈ (addNode a g n).edges ↔
      e ∈ g.edges ∨ ∃ c ∈ a.children n.1, e = ((n.1 : Int), (c : Int)) := by
  have hadd : ∀ (g : Digraph) (c : Nat),
      e ∈ (g.addEdge n.1 c).edges ↔ e ∈ g.edges ∨ e = ((n.1 : Int), (c : Int)) :=
    fun _ _ => Digraph.mem_edges_addEdge
  have hfold := Digraph.foldl_iff (Q := fun g : Digraph => e ∈ g.edges) hadd
    (g.addVertex n.1) (a.children n.1)
  rwa [Digraph.edges_addVertex] at hfold

theorem mem_vertices_addNode (g : Digraph) (n : Nat × Node) :
    v ∈ (addNode a g n).vertices ↔
      v ∈ g.vertices ∨ (v = n.1 ∨ ∃ c ∈ a.children n.1, v = (c : Int)) := by
  have hadd : ∀ (g : Digraph) (c : Nat),
      v ∈ (g.addEdge n.1 c).vertices ↔ v ∈ g.vertices ∨ (v = n.1 ∨ v = (c : Int)) :=
    fun _ _ => Digraph.mem_vertices_addEdge
  have hfold := Digraph.foldl_iff (Q := fun g : Digraph => v ∈ g.vertices) hadd
    (g.addVertex n.1) (a.children n.1)
  rw [Digraph.mem_vertices_addVertex] at hfold
  refine hfold.trans ⟨?_, ?_⟩
  · rintro ((hv | hv) | ⟨c, hc, hv | hv⟩)
    · exact .inl hv
    · exact .inr (.inl hv)
    · exact .inr (.inl hv)
    · exact .inr (.inr ⟨c, hc, hv⟩)
  · rintro (hv | hv | ⟨c, hc, hv⟩)
    · exact .inl (.inl hv)
    · exact .inl (.inr hv)
    · exact .inr ⟨c, hc, .inr hv⟩

/-- The edges lead from live nodes to their children. -/
theorem mem_edges_nodeGraph :
    e ∈ (nodeGraph a).edges ↔
      ∃ (n c : Nat) (node : Node), a.node? n = some node ∧ a.isChild n c = true ∧ e = (↑n, ↑c) := by
  rw [nodeGraph_eq]
  refine (Digraph.foldl_iff (Q := fun g : Digraph => e ∈ g.edges) mem_edges_addNode .empty
    a.live).trans ?_
  simp only [Arena.mem_live_iff, Arena.mem_children_iff, Digraph.empty, List.not_mem_nil, false_or]
  constructor
  · rintro ⟨_, ⟨n, s, hs, hlive, rfl⟩, c, hc, he⟩
    exact ⟨n, c, _, Arena.node?_of_slot hs hlive, hc, he⟩
  · rintro ⟨n, c, node, hnode, hc, he⟩
    obtain ⟨k, s, hk, hs, hlive, -⟩ := Arena.exists_slot_of_node? hnode
    obtain rfl := Int.ofNat.inj hk
    exact ⟨_, ⟨n, s, hs, hlive, rfl⟩, c, hc, he⟩

/-- What vertices and edges do not spoil when they are put in holds of the node graph. -/
theorem nodeGraph_induction {motive : Digraph → Prop} (a : Arena Node) (hempty : motive .empty)
    (hvertex : ∀ g v, motive g → motive (g.addVertex v))
    (hedge : ∀ g x y, motive g → motive (g.addEdge x y)) : motive (nodeGraph a) := by
  have hnode : ∀ (g : Digraph) (n : Nat × Node), motive g → motive (addNode a g n) := by
    intro g n hg
    exact List.foldlRecOn (motive := motive) _ _ (hvertex g n.1 hg)
      fun g hg c _ => hedge g n.1 c hg
  rw [nodeGraph_eq]
  exact List.foldlRecOn (motive := motive) _ _ hempty fun g hg n _ => hnode g n hg

theorem nodup_edges_nodeGraph (a : Arena Node) : (nodeGraph a).edges.Nodup :=
  nodeGraph_induction (motive := fun g => g.edges.Nodup) a List.nodup_nil
    (fun g v hg => (Digraph.edges_addVertex g v).symm ▸ hg)
    fun _ x y hg => Digraph.nodup_edges_addEdge hg x y

theorem nodup_vertices_nodeGraph (a : Arena Node) : (nodeGraph a).vertices.Nodup :=
  nodeGraph_induction (motive := fun g => g.vertices.Nodup) a List.nodup_nil
    (fun _ v hg => Digraph.nodup_vertices_addVertex hg v)
    fun _ x y hg => Digraph.nodup_vertices_addEdge hg x y

/-- The vertices are the numbers of the live nodes. -/
theorem mem_vertices_nodeGraph :
    v ∈ (nodeGraph a).vertices ↔ ∃ node, a.node? v = some node := by
  rw [nodeGraph_eq]
  refine (Digraph.foldl_iff (Q := fun g : Digraph => v ∈ g.vertices) mem_vertices_addNode .empty
    a.live).trans ?_
  simp only [Arena.mem_live_iff, Arena.mem_children_iff, Digraph.empty, List.not_mem_nil, false_or]
  constructor
  · rintro ⟨_, ⟨n, s, hs, hlive, rfl⟩, rfl | ⟨c, hc, rfl⟩⟩
    · exact ⟨_, Arena.node?_of_slot hs hlive⟩
    · obtain ⟨t, ht, hlive, -⟩ := Arena.isChild_eq_true_iff.1 hc
      exact ⟨_, Arena.node?_of_slot ht hlive⟩
  · rintro ⟨node, hnode⟩
    obtain ⟨n, s, rfl, hs, hlive, -⟩ := Arena.exists_slot_of_node? hnode
    exact ⟨_, ⟨n, s, hs, hlive, rfl⟩, .inl rfl⟩

/-- Every live node is a vertex once. -/
theorem perm_vertices_nodeGraph (a : Arena Node) :
    (nodeGraph a).vertices.Perm (a.live.map fun x => (x.1 : Int)) := by
  have hnumbers : (a.live.map fun x => (x.1 : Int)).Nodup :=
    a.pairwise_live.map _ fun _ _ hlt => Int.ne_of_lt (Int.ofNat_lt.2 hlt)
  rw [List.perm_ext_iff_of_nodup (nodup_vertices_nodeGraph a) hnumbers]
  intro v
  rw [mem_vertices_nodeGraph, List.mem_map]
  constructor
  · rintro ⟨node, hnode⟩
    obtain ⟨i, -, rfl, -⟩ := Arena.exists_slot_of_node? hnode
    exact ⟨(i, node), Arena.mem_live_iff_node?.2 hnode, rfl⟩
  · rintro ⟨x, hx, rfl⟩
    exact ⟨x.2, Arena.mem_live_iff_node?.1 hx⟩

end LetLang.Analysis
