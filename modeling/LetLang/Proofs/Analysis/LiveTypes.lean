import LetLang.Proofs.Analysis.ScopeGraph
import LetLang.Proofs.Analysis.TypeEdges

/-!
# The type graph after deletions

A node keeps the numbers of deleted nodes below it, and an edge brings its ends with it. So a
deleted node comes back as a vertex of the type graph if the node above it stays and calls for an
edge with it. Nothing else comes back.
-/

namespace LetLang

namespace Analysis

variable {a : Arena Node} {ids : List Int}

/-- The type graph has the vertices of the node graph, and its edges and tags are between live
nodes. -/
structure OverLiveNodes (a : Arena Node) (gs : Graphs) : Prop where
  vertices : ∀ v, v ∈ gs.types.graph.vertices ↔ v ∈ gs.nodes.vertices
  edges : ∀ e ∈ gs.types.graph.edges,
    (∃ node, a.node? e.1 = some node) ∧ ∃ node, a.node? e.2 = some node
  tags : ∀ e ∈ gs.types.tags.keys,
    (∃ node, a.node? e.1 = some node) ∧ ∃ node, a.node? e.2 = some node

/-- What the graphs show after deletions: a deleted node is a vertex of the type graph if a node
that stays calls for an edge with it, and the type graph is over the live nodes if there is none. -/
structure KeepsLinked (a : Arena Node) (ids : List Int) (gs : Graphs) : Prop where
  nodes : ∀ v, v ∈ gs.nodes.vertices ↔ ∃ node, a.node? v = some node
  types : ∀ v, v ∈ gs.types.graph.vertices ↔
    v ∈ gs.nodes.vertices ∨ v ∈ ids ∧ ∃ w node, a.node? w = some node ∧ v ∈ node.linked
  obligations : ShowsObligations a gs.types
  overLive_iff : OverLiveNodes a gs ↔
    ∀ v node, a.node? v = some node → ∀ r ∈ node.linked, r ∉ ids

theorem graphs_eq_ok (h : a.Pruned) :
    ∃ scopes, graphs a = .ok ⟨nodeGraph a, scopes, fullGraph a⟩ := by
  obtain ⟨scopes, hscopes, -⟩ := scopeGraph_eq_ok h.file
  refine ⟨scopes, ?_⟩
  rw [graphs, hscopes, typeGraph_eq]

/-- Where live nodes are linked to live nodes alone, nothing else is in the type graph. -/
theorem overLiveNodes_of_linked {scopes : ScopeGraph}
    (h : ∀ v node, a.node? v = some node → ∀ r ∈ node.linked, ∃ node, a.node? r = some node) :
    OverLiveNodes a ⟨nodeGraph a, scopes, fullGraph a⟩ := by
  have hedges : ∀ e ∈ (fullGraph a).graph.edges,
      (∃ node, a.node? e.1 = some node) ∧ ∃ node, a.node? e.2 = some node := by
    intro e he
    obtain ⟨v, tag, hv⟩ := mem_edges_fullGraph_iff.1 he
    obtain ⟨node, hnode, hmem⟩ := obligation_iff.1 hv
    exact live_of_mem_typeEdges hnode (h v node hnode) hmem
  refine ⟨fun v => ?_, hedges, fun e he => hedges e ?_⟩
  · rw [mem_vertices_nodeGraph, mem_vertices_fullGraph, or_iff_left_of_imp]
    rintro ⟨w, node, hnode, hv⟩
    exact h w node hnode v hv
  · -- What has a tag is an edge.
    by_contra hnot
    rw [Table.mem_keys_iff, get?_tags_of_not_mem_edges hnot] at he
    cases he

/-- It depends on what the live nodes are linked to whether a deleted node is a vertex. -/
theorem keepsLinked_fullGraph {scopes : ScopeGraph} (h : a.RefersBelow)
    (hdead : ∀ v node, a.node? v = some node → ∀ r ∈ node.linked, a.node? r = none ↔ r ∈ ids) :
    KeepsLinked a ids ⟨nodeGraph a, scopes, fullGraph a⟩ where
  nodes _ := mem_vertices_nodeGraph
  types v := by
    rw [mem_vertices_nodeGraph, mem_vertices_fullGraph]
    constructor
    · rintro (hv | ⟨w, node, hnode, hv⟩)
      · exact .inl hv
      · cases hlive : a.node? v with
        | some node' => exact .inl ⟨node', rfl⟩
        | none => exact .inr ⟨(hdead w node hnode v hv).1 hlive, w, node, hnode, hv⟩
    · rintro (hv | ⟨-, hv⟩)
      · exact .inl hv
      · exact .inr hv
  obligations := showsObligations_fullGraph h
  overLive_iff := by
    constructor
    · intro hlive v node hnode r hr hmem
      have hvertex := (hlive.vertices r).1 (mem_vertices_fullGraph.2 (.inr ⟨v, node, hnode, hr⟩))
      obtain ⟨node', hnode'⟩ := mem_vertices_nodeGraph.1 hvertex
      cases ((hdead v node hnode r hr).2 hmem).symm.trans hnode'
    · intro hkept
      refine overLiveNodes_of_linked fun v node hnode r hr => Option.ne_none_iff_exists'.1 ?_
      exact fun hnone => hkept v node hnode r hr ((hdead v node hnode r hr).1 hnone)

end Analysis

namespace Lowering

variable {t : Tree String} {l : Lowered}

/-- After any deletions in the arena of a lowered file the type graph is over the live nodes if none
of them calls for an edge with a deleted node. The deleted nodes that they call for edges with are
vertices as well. -/
theorem graphs_keep_linked (h : LetLang.lower t = .ok l) (ids : List Int) :
    ∃ gs, Analysis.graphs ((ids.map Arena.Edit.delete).foldl Arena.apply l.arena) = .ok gs ∧
      Analysis.KeepsLinked ((ids.map Arena.Edit.delete).foldl Arena.apply l.arena) ids gs := by
  have htree := isTree_of_lower h
  have hb := Arena.buries_deleteAll l.arena ids
  obtain ⟨scopes, hgraphs⟩ := Analysis.graphs_eq_ok ((pruned_of_lower h).deleteAll ids)
  refine ⟨_, hgraphs, Analysis.keepsLinked_fullGraph (htree.refersBelow.buries hb) ?_⟩
  intro v node hnode r hr
  have hbefore := hb.node?_of_node? hnode
  have href := Analysis.linked_subset_references node hr
  obtain ⟨value, hvalue⟩ := htree.exists_node_of_mem_references hbefore href
  exact Arena.node?_deleteAll_eq_none_iff htree.ordered hvalue
    (htree.refersBelow.under v node hbefore r href) hnode

/-- Of two operands the second one is deleted. -/
theorem deleted_operand_comes_back :
    ∃ l gs, LetLang.lower (.file [.bind (.identifier "main") .unitType (.lambda [.identifier "x"]
        (.binary (.identifier "x") (.identifier "x") .plus))]) = .ok l ∧
      Analysis.graphs (([5].map Arena.Edit.delete).foldl Arena.apply l.arena) = .ok gs ∧
      5 ∉ gs.nodes.vertices ∧ 5 ∈ gs.types.graph.vertices ∧
      ¬ Analysis.OverLiveNodes (([5].map Arena.Edit.delete).foldl Arena.apply l.arena) gs := by
  obtain ⟨l, hl, hplus, hdeleted⟩ : ∃ l, LetLang.lower (.file [.bind (.identifier "main") .unitType
      (.lambda [.identifier "x"] (.binary (.identifier "x") (.identifier "x") .plus))]) = .ok l ∧
      (([5].map Arena.Edit.delete).foldl Arena.apply l.arena).node? 3 =
        some (.binary .plus 4 5) ∧
      (([5].map Arena.Edit.delete).foldl Arena.apply l.arena).node? 5 = none :=
    ⟨_, by cbv, by cbv, by cbv⟩
  obtain ⟨gs, hgs, hkeeps⟩ := graphs_keep_linked hl [5]
  have hlinked : (5 : Int) ∈ Node.linked (.binary .plus 4 5) := .tail _ (.head _)
  have hvertex := (hkeeps.types 5).2 (.inr ⟨.head _, 3, _, hplus, hlinked⟩)
  refine ⟨l, gs, hl, hgs, fun hlive => ?_, hvertex, fun hlive => ?_⟩
  · obtain ⟨node, hnode⟩ := (hkeeps.nodes 5).1 hlive
    cases hdeleted.symm.trans hnode
  · exact hkeeps.overLive_iff.1 hlive 3 _ hplus 5 hlinked (.head _)

end Lowering

end LetLang
