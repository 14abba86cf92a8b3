import LetLang.Proofs.Analysis.NodeGraph
import LetLang.Proofs.Lowering.Deletion
import Mathlib

/-!
# The node graph as a tree

Whatever was deleted from a lowered file, the nodes that are left form one tree, and the node graph
shows that tree: one edge leads to every node but the root, and from the root they all are reached.
-/

namespace LetLang

namespace Analysis

variable {a : Arena Node} {v : Int} {e : Int × Int}

/-- The graph is the tree of the live nodes. -/
structure ShowsTree (a : Arena Node) (g : Digraph) : Prop where
  /-- The live nodes are the vertices, each once. -/
  vertices : g.vertices.Perm (a.live.map fun x => (x.1 : Int))
  /-- An edge leads to every live node but the root from its parent, and there are no others. -/
  edges : ∀ e, e ∈ g.edges ↔ ∃ (n p : Nat) (node : Node),
    0 < n ∧ a.node? n = some node ∧ a.parent n = .ok p ∧ e = (↑p, ↑n)
  ends : ∀ e ∈ g.edges, e.1 ∈ g.vertices ∧ e.2 ∈ g.vertices ∧ e.1 < e.2
  incoming : ∀ v ∈ g.vertices, v ≠ 0 → ∃ p, g.edges.filter (fun e => e.2 = v) = [(p, v)]
  reachable : ∀ v ∈ g.vertices, Relation.ReflTransGen (fun x y => (x, y) ∈ g.edges) 0 v
  count : ∀ node, a.node? rootId = some node → g.vertices.length = g.edges.length + 1
  gone : a.node? rootId = none → g.vertices = [] ∧ g.edges = []

theorem ends_of_mem_edges (he : e ∈ (nodeGraph a).edges) :
    e.1 ∈ (nodeGraph a).vertices ∧ e.2 ∈ (nodeGraph a).vertices ∧ e.1 < e.2 := by
  obtain ⟨p, n, node, hp, hchild, rfl⟩ := mem_edges_nodeGraph.1 he
  obtain ⟨s, hs, hlive, -, hlt⟩ := Arena.isChild_eq_true_iff.1 hchild
  exact ⟨mem_vertices_nodeGraph.2 ⟨node, hp⟩,
    mem_vertices_nodeGraph.2 ⟨_, Arena.node?_of_slot hs hlive⟩, hlt⟩

/-- No node has two parents. -/
theorem source_unique {x y : Int} (hx : (x, v) ∈ (nodeGraph a).edges)
    (hy : (y, v) ∈ (nodeGraph a).edges) : x = y := by
  obtain ⟨n, c, -, -, hn, ⟨⟩⟩ := mem_edges_nodeGraph.1 hx
  obtain ⟨m, d, -, -, hm, heq⟩ := mem_edges_nodeGraph.1 hy
  obtain ⟨rfl, hcd⟩ := Prod.mk.inj heq
  obtain rfl := Int.ofNat.inj hcd
  rw [Arena.isChild_unique hn hm]

theorem nodup_targets (a : Arena Node) : ((nodeGraph a).edges.map Prod.snd).Nodup := by
  refine List.Nodup.map_on (fun e he f hf heq => ?_) (nodup_edges_nodeGraph a)
  obtain ⟨x, v⟩ := e
  obtain ⟨y, w⟩ := f
  obtain rfl : v = w := heq
  rw [source_unique he hf]

section
variable (h : a.Pruned)
include h

theorem mem_edges_iff_parent :
    e ∈ (nodeGraph a).edges ↔ ∃ (n p : Nat) (node : Node),
      0 < n ∧ a.node? n = some node ∧ a.parent n = .ok p ∧ e = (↑p, ↑n) := by
  rw [mem_edges_nodeGraph]
  constructor
  · rintro ⟨p, n, -, -, hchild, rfl⟩
    obtain ⟨s, hs, hlive, hparent, hlt⟩ := Arena.isChild_eq_true_iff.1 hchild
    refine ⟨n, p, s.value, by omega, Arena.node?_of_slot hs hlive, ?_, rfl⟩
    rw [Arena.parent, Arena.slot_of_slots hs, ← Int.ofNat.inj hparent]
    rfl
  · rintro ⟨n, p, node, hpos, hnode, hp, rfl⟩
    obtain ⟨q, above, hq, -, hchild, habove⟩ := h.exists_parent hpos hnode
    cases hp.symm.trans hq
    exact ⟨p, n, above, habove, hchild, rfl⟩

/-- A live node but the root is where an edge ends. -/
theorem mem_targets_iff :
    v ∈ (nodeGraph a).edges.map Prod.snd ↔ v ∈ (nodeGraph a).vertices ∧ v ≠ 0 := by
  rw [List.mem_map, mem_vertices_nodeGraph]
  constructor
  · rintro ⟨e, he, rfl⟩
    obtain ⟨n, p, node, hpos, hnode, -, rfl⟩ := (mem_edges_iff_parent h).1 he
    exact ⟨⟨node, hnode⟩, by simp; omega⟩
  · rintro ⟨⟨node, hnode⟩, hne⟩
    obtain ⟨n, -, rfl, -⟩ := Arena.exists_slot_of_node? hnode
    have hpos : 0 < n := by omega
    obtain ⟨p, -, hp, -⟩ := h.exists_parent hpos hnode
    exact ⟨_, (mem_edges_iff_parent h).2 ⟨n, p, node, hpos, hnode, hp, rfl⟩, rfl⟩

theorem incoming_eq (hv : v ∈ (nodeGraph a).vertices) (hne : v ≠ 0) :
    ∃ p, (nodeGraph a).edges.filter (fun e => e.2 = v) = [(p, v)] := by
  obtain ⟨⟨p, w⟩, he, hw⟩ := List.mem_map.1 ((mem_targets_iff h).2 ⟨hv, hne⟩)
  obtain rfl : w = v := hw
  refine ⟨p, List.perm_singleton.1 ((List.perm_ext_iff_of_nodup
    ((nodup_edges_nodeGraph a).filter _) (List.nodup_singleton _)).2 fun f => ?_)⟩
  obtain ⟨x, y⟩ := f
  rw [List.mem_filter, List.mem_singleton, decide_eq_true_eq]
  constructor
  · rintro ⟨hf, rfl⟩
    rw [source_unique hf he]
  · rintro ⟨⟩
    exact ⟨he, rfl⟩

/-- By live nodes all live nodes hang from the root. -/
theorem reaches_of_mem_vertices (hv : v ∈ (nodeGraph a).vertices) :
    Relation.ReflTransGen (fun x y => (x, y) ∈ (nodeGraph a).edges) 0 v := by
  obtain ⟨node, hnode⟩ := mem_vertices_nodeGraph.1 hv
  obtain ⟨n, s, rfl, hs, hlive, -⟩ := Arena.exists_slot_of_node? hnode
  have hhangs := h.hangs n s hs hlive
  clear hv hnode hs hlive
  induction hhangs with
  | self => exact .refl
  | child hi hchild ih =>
    obtain ⟨t, ht, htlive⟩ := hi.live
    exact ih.tail (mem_edges_nodeGraph.2 ⟨_, _, _, Arena.node?_of_slot ht htlive, hchild, rfl⟩)

/-- Where branches were cut off a tree, the node graph shows the tree that is left. -/
theorem showsTree_nodeGraph : ShowsTree a (nodeGraph a) where
  vertices := perm_vertices_nodeGraph a
  edges _ := mem_edges_iff_parent h
  ends _ he := ends_of_mem_edges he
  incoming _ hv hne := incoming_eq h hv hne
  reachable _ hv := reaches_of_mem_vertices h hv
  count root hroot := by
    -- The vertices are the root and the targets of the edges.
    have hperm : (nodeGraph a).vertices.Perm (0 :: (nodeGraph a).edges.map Prod.snd) := by
      refine (List.perm_ext_iff_of_nodup (nodup_vertices_nodeGraph a)
        (List.nodup_cons.2 ⟨fun hzero => ?_, nodup_targets a⟩)).2 fun v => ?_
      · exact ((mem_targets_iff h).1 hzero).2 rfl
      · rw [List.mem_cons, mem_targets_iff h]
        constructor
        · intro hv
          exact (Decidable.em (v = 0)).imp_right fun hne => ⟨hv, hne⟩
        · rintro (rfl | ⟨hv, -⟩)
          · exact mem_vertices_nodeGraph.2 ⟨root, hroot⟩
          · exact hv
    rw [hperm.length_eq, List.length_cons, List.length_map]
  gone hroot := by
    have hnone : ∀ v, v ∉ (nodeGraph a).vertices := by
      intro v hv
      obtain ⟨node, hnode⟩ := mem_vertices_nodeGraph.1 hv
      obtain ⟨n, s, rfl, hs, hlive, -⟩ := Arena.exists_slot_of_node? hnode
      obtain ⟨t, ht, htlive⟩ := (h.hangs n s hs hlive).live_top
      cases hroot.symm.trans (Arena.node?_of_slot ht htlive)
    exact ⟨List.eq_nil_iff_forall_not_mem.2 hnone, List.eq_nil_iff_forall_not_mem.2 fun e he =>
      hnone e.1 (ends_of_mem_edges he).1⟩

end

end Analysis

namespace Lowering

variable {t : Tree String} {l : Lowered}

/-- After any deletions in the arena of a lowered file the node graph is the tree of the nodes that
are left. -/
theorem nodeGraph_shows_tree (h : LetLang.lower t = .ok l) (ids : List Int) :
    Analysis.ShowsTree ((ids.map Arena.Edit.delete).foldl Arena.apply l.arena)
      (Analysis.nodeGraph ((ids.map Arena.Edit.delete).foldl Arena.apply l.arena)) :=
  Analysis.showsTree_nodeGraph ((pruned_of_lower h).deleteAll ids)

/-- An operand and the name of a callee are cut off, and a number that was never given out is passed
over. -/
theorem operand_and_callee_cut_off :
    ∃ l, LetLang.lower (.file [.bind (.identifier "main") .unitType (.lambda [.identifier "x"]
        (.binary (.identifier "x") (.apply (.identifier "f") (.number 1)) .plus))]) = .ok l ∧
      (Analysis.nodeGraph (([4, 99, 6].map Arena.Edit.delete).foldl Arena.apply l.arena)).edges =
        [(0, 1), (1, 2), (1, 3), (3, 5), (5, 7)] ∧
      Analysis.ShowsTree (([4, 99, 6].map Arena.Edit.delete).foldl Arena.apply l.arena)
        (Analysis.nodeGraph
          (([4, 99, 6].map Arena.Edit.delete).foldl Arena.apply l.arena)) := by
  obtain ⟨l, hl, hedges⟩ : ∃ l, LetLang.lower (.file [.bind (.identifier "main") .unitType
      (.lambda [.identifier "x"]
        (.binary (.identifier "x") (.apply (.identifier "f") (.number 1)) .plus))]) = .ok l ∧
      (Analysis.nodeGraph (([4, 99, 6].map Arena.Edit.delete).foldl Arena.apply l.arena)).edges =
        [(0, 1), (1, 2), (1, 3), (3, 5), (5, 7)] := ⟨_, by cbv, by cbv⟩
  exact ⟨l, hl, hedges, nodeGraph_shows_tree hl [4, 99, 6]⟩

end Lowering

end LetLang
