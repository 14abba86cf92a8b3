import LetLang.Proofs.Analysis.NodeGraph
import LetLang.Proofs.Table

/-!
# The type graph

The type graph is made over the live nodes of an arena and has the edges that these nodes call for.
It is always made, and its edges join nodes with themselves and with what they refer to. Tags are
kept by the ends of edges, so that the last edge between two nodes decides.
-/

namespace LetLang

/-- The numbers in a node that its edges in the type graph join. -/
def Node.linked : Node → List Int
  | .bind name type value => [name, type, value]
  | .arrayType _ element => [element]
  | .array elements => elements
  | .apply callee _ => [callee]
  | .binary _ left right => [left, right]
  | _ => []

namespace Analysis

variable {a : Arena Node} {g : TypeGraph} {v x y : Int} {e : Int × Int} {node : Node}
  {vs : List Int} {links : List (Int × Int × Option Tag)} {tag : Option Tag}

def ends (link : Int × Int × Option Tag) : Int × Int := (link.1, link.2.1)

/-- What is entered for an edge that is to be added, if it has a tag. -/
def tagged (link : Int × Int × Option Tag) : Option ((Int × Int) × Tag) :=
  link.2.2.map fun tag => (ends link, tag)

def TypeGraph.linkEach (g : TypeGraph) (links : List (Int × Int × Option Tag)) : TypeGraph :=
  links.foldl (fun g l => g.link l.1 l.2.1 l.2.2) g

theorem mem_edges_linkEach :
    e ∈ (g.linkEach links).graph.edges ↔ e ∈ g.graph.edges ∨ e ∈ links.map ends := by
  have hadd : ∀ (g : TypeGraph) (l : Int × Int × Option Tag),
      e ∈ (g.link l.1 l.2.1 l.2.2).graph.edges ↔ e ∈ g.graph.edges ∨ e = ends l :=
    fun _ _ => Digraph.mem_edges_addEdge
  refine (Digraph.foldl_iff (Q := fun g : TypeGraph => e ∈ g.graph.edges) hadd g links).trans ?_
  rw [List.mem_map]
  simp only [eq_comm]

theorem mem_vertices_linkEach :
    v ∈ (g.linkEach links).graph.vertices ↔
      v ∈ g.graph.vertices ∨ ∃ l ∈ links, v = l.1 ∨ v = l.2.1 :=
  Digraph.foldl_iff (Q := fun g : TypeGraph => v ∈ g.graph.vertices)
    (fun _ _ => Digraph.mem_vertices_addEdge) g links

theorem nodup_edges_linkEach (h : g.graph.edges.Nodup) : (g.linkEach links).graph.edges.Nodup :=
  List.foldlRecOn (motive := fun g : TypeGraph => g.graph.edges.Nodup) _ _ h
    fun _ hg _ _ => Digraph.nodup_edges_addEdge hg _ _

theorem nodup_vertices_linkEach (h : g.graph.vertices.Nodup) :
    (g.linkEach links).graph.vertices.Nodup :=
  List.foldlRecOn (motive := fun g : TypeGraph => g.graph.vertices.Nodup) _ _ h
    fun _ hg _ _ => Digraph.nodup_vertices_addEdge hg _ _

theorem get?_tags_linkEach :
    (g.linkEach links).tags.get? e =
      (Table.last? e (links.filterMap tagged)).or (g.tags.get? e) := by
  induction links generalizing g with
  | nil => rfl
  | cons l links ih =>
    refine (ih (g := g.link l.1 l.2.1 l.2.2)).trans ?_
    obtain ⟨source, target, tag⟩ := l
    cases tag with
    | none => rfl
    | some tag =>
      have hcons : ((source, target, some tag) :: links).filterMap tagged =
          ((source, target), tag) :: links.filterMap tagged := rfl
      rw [hcons, Table.last?, Option.or_assoc]
      refine congrArg (Table.last? e (links.filterMap tagged)).or ?_
      change (g.tags.insert (source, target) tag).get? e = _
      rw [Table.get?_insert]
      split <;> rfl

theorem mem_ends_iff : e ∈ links.map ends ↔ ∃ tag, (e.1, e.2, tag) ∈ links := by
  rw [List.mem_map]
  constructor
  · rintro ⟨⟨x, y, tag⟩, hl, rfl⟩
    exact ⟨tag, hl⟩
  · rintro ⟨tag, hl⟩
    exact ⟨_, hl, rfl⟩

theorem mem_tagged_iff {t : Tag} :
    (e, t) ∈ links.filterMap tagged ↔ (e.1, e.2, some t) ∈ links := by
  rw [List.mem_filterMap]
  constructor
  · rintro ⟨⟨x, y, tag⟩, hl, htagged⟩
    obtain ⟨t', rfl, ⟨⟩⟩ := Option.map_eq_some_iff.1 htagged
    exact hl
  · intro hl
    exact ⟨_, hl, rfl⟩

/-- Where no two edges have the same ends, every edge keeps its own tag, if it has one. -/
theorem last?_tagged (hn : (links.map ends).Nodup) (h : (x, y, tag) ∈ links) :
    Table.last? (x, y) (links.filterMap tagged) = tag := by
  have hsame : ∀ t, ((x, y), t) ∈ links.filterMap tagged → tag = some t := by
    intro t ht
    have heq := List.inj_on_of_nodup_map hn h (mem_tagged_iff.1 ht) rfl
    cases heq
    rfl
  cases hlast : Table.last? (x, y) (links.filterMap tagged) with
  | some t => exact (hsame t (Table.mem_of_last?_eq_some hlast)).symm
  | none =>
    cases tag with
    | none => rfl
    | some t => exact absurd rfl (Table.last?_eq_none_iff.1 hlast _ (mem_tagged_iff.2 h))

def linkNode (a : Arena Node) (g : TypeGraph) (v : Int) : TypeGraph :=
  match a.node? v with
  | some node => (typeEdges v node).foldl (fun g e => g.link e.1 e.2.1 e.2.2) g
  | none => g

theorem linkAll_eq_ok (h : ∀ v ∈ vs, ∃ node, a.node? v = some node) (g : TypeGraph) :
    linkAll a g vs = .ok (vs.foldl (linkNode a) g) := by
  induction vs generalizing g with
  | nil => rfl
  | cons v vs ih =>
    obtain ⟨⟨node, hnode⟩, hrest⟩ := List.forall_mem_cons.1 h
    rw [linkAll, Arena.value?_eq_some_iff.2 hnode, List.foldl_cons, ← ih hrest, linkNode, hnode]

def linksAt (a : Arena Node) (v : Int) : List (Int × Int × Option Tag) :=
  ((a.node? v).map (typeEdges v)).getD []

/-- The edges that the live nodes call for, in the order in which they are added. -/
def allLinks (a : Arena Node) : List (Int × Int × Option Tag) :=
  (nodeGraph a).vertices.flatMap (linksAt a)

theorem foldl_linkNode (vs : List Int) (g : TypeGraph) :
    vs.foldl (linkNode a) g = g.linkEach (vs.flatMap (linksAt a)) := by
  rw [TypeGraph.linkEach, List.foldl_flatMap]
  refine congrArg (fun f => vs.foldl f g) (funext₂ fun g v => ?_)
  unfold linkNode linksAt
  cases a.node? v <;> rfl

theorem mem_linksAt {l : Int × Int × Option Tag} :
    l ∈ linksAt a v ↔ ∃ node, a.node? v = some node ∧ l ∈ typeEdges v node := by
  unfold linksAt
  cases a.node? v <;> simp

theorem mem_allLinks {l : Int × Int × Option Tag} :
    l ∈ allLinks a ↔ ∃ v node, a.node? v = some node ∧ l ∈ typeEdges v node := by
  simp only [allLinks, List.mem_flatMap, mem_linksAt, mem_vertices_nodeGraph]
  constructor
  · rintro ⟨v, -, hv⟩
    exact ⟨v, hv⟩
  · rintro ⟨v, node, hnode, hl⟩
    exact ⟨v, ⟨node, hnode⟩, node, hnode, hl⟩

/-- The live nodes, before any edges are added. -/
def bareGraph (a : Arena Node) : TypeGraph :=
  ⟨(nodeGraph a).vertices.foldl Digraph.addVertex .empty, ∅⟩

theorem edges_bareGraph (a : Arena Node) : (bareGraph a).graph.edges = [] :=
  List.foldlRecOn (motive := fun g : Digraph => g.edges = []) _ _ rfl
    fun g hg v _ => (Digraph.edges_addVertex g v).trans hg

theorem mem_vertices_bareGraph : v ∈ (bareGraph a).graph.vertices ↔ v ∈ (nodeGraph a).vertices := by
  have hadd : ∀ (g : Digraph) (u : Int), v ∈ (g.addVertex u).vertices ↔ v ∈ g.vertices ∨ v = u :=
    fun _ _ => Digraph.mem_vertices_addVertex
  refine (Digraph.foldl_iff (Q := fun g : Digraph => v ∈ g.vertices) hadd .empty _).trans ?_
  simp [Digraph.empty]

theorem nodup_vertices_bareGraph (a : Arena Node) : (bareGraph a).graph.vertices.Nodup :=
  List.foldlRecOn (motive := fun g : Digraph => g.vertices.Nodup) _ _ List.nodup_nil
    fun _ hg _ _ => Digraph.nodup_vertices_addVertex hg _

def fullGraph (a : Arena Node) : TypeGraph := (bareGraph a).linkEach (allLinks a)

theorem typeGraph_eq (a : Arena Node) : typeGraph (nodeGraph a) a = .ok (fullGraph a) := by
  rw [fullGraph, allLinks, ← foldl_linkNode]
  exact linkAll_eq_ok (fun v hv => mem_vertices_nodeGraph.1 hv) (bareGraph a)

theorem mem_edges_fullGraph : e ∈ (fullGraph a).graph.edges ↔ e ∈ (allLinks a).map ends := by
  rw [fullGraph, mem_edges_linkEach, edges_bareGraph]
  exact or_iff_right List.not_mem_nil

theorem nodup_edges_fullGraph (a : Arena Node) : (fullGraph a).graph.edges.Nodup :=
  nodup_edges_linkEach (edges_bareGraph a ▸ List.nodup_nil)

theorem nodup_vertices_fullGraph (a : Arena Node) : (fullGraph a).graph.vertices.Nodup :=
  nodup_vertices_linkEach (nodup_vertices_bareGraph a)

theorem get?_tags_fullGraph :
    (fullGraph a).tags.get? e = Table.last? e ((allLinks a).filterMap tagged) :=
  get?_tags_linkEach.trans Option.or_none

theorem get?_tags_of_not_mem_edges (he : e ∉ (fullGraph a).graph.edges) :
    (fullGraph a).tags.get? e = none := by
  rw [get?_tags_fullGraph, Table.last?_eq_none_iff]
  rintro ⟨e', t⟩ ht rfl
  exact he (mem_edges_fullGraph.2 (mem_ends_iff.2 ⟨_, mem_tagged_iff.1 ht⟩))

/-- The type graph has the edges that the live nodes call for, each once. -/
theorem typeGraph_eq_ok (a : Arena Node) :
    ∃ g, typeGraph (nodeGraph a) a = .ok g ∧ g.graph.edges.Nodup ∧
      ∀ e, e ∈ g.graph.edges ↔
        ∃ v node, a.node? v = some node ∧ ∃ tag, (e.1, e.2, tag) ∈ typeEdges v node := by
  refine ⟨_, typeGraph_eq a, nodup_edges_fullGraph a, fun e => ?_⟩
  rw [mem_edges_fullGraph, mem_ends_iff]
  simp only [mem_allLinks]
  constructor
  · rintro ⟨tag, v, node, hnode, hl⟩
    exact ⟨v, node, hnode, tag, hl⟩
  · rintro ⟨v, node, hnode, tag, hl⟩
    exact ⟨tag, v, node, hnode, hl⟩

theorem linked_subset_references (node : Node) : node.linked ⊆ node.references := by
  cases node <;> simp [Node.linked, Node.references]

/-- An edge joins the node with a number in it, or two numbers in it. -/
theorem place_of_mem_typeEdges (h : (x, y, tag) ∈ typeEdges v node) :
    x = v ∧ y ∈ node.linked ∨ x ∈ node.linked ∧ y = v ∨ x ∈ node.linked ∧ y ∈ node.linked := by
  cases node with
  | array elements =>
    obtain ⟨element, helement, ⟨⟩⟩ := List.mem_map.1 h
    exact .inr (.inl ⟨helement, rfl⟩)
  | binary op left right => cases op <;> grind [typeEdges, Node.linked]
  | _ => grind [typeEdges, Node.linked]

/-- Every such number is joined by an edge. -/
theorem exists_edge_of_mem_linked (h : x ∈ node.linked) (v : Int) :
    ∃ l ∈ typeEdges v node, x = l.1 ∨ x = l.2.1 := by
  cases node with
  | bind name type value =>
    simp only [Node.linked, List.mem_cons, List.not_mem_nil, or_false] at h
    rcases h with rfl | rfl | rfl
    · exact ⟨_, .tail _ (.head _), .inl rfl⟩
    · exact ⟨_, .head _, .inr rfl⟩
    · exact ⟨_, .head _, .inl rfl⟩
  | arrayType size element => exact ⟨_, .head _, .inr (List.mem_singleton.1 h)⟩
  | array elements => exact ⟨_, List.mem_map.2 ⟨x, h, rfl⟩, .inl rfl⟩
  | apply callee arg => exact ⟨_, .head _, .inr (List.mem_singleton.1 h)⟩
  | binary op left right =>
    have hfirst : ∃ l ∈ typeEdges v (.binary op left right),
        (l.1 = left ∧ l.2.1 = right) ∨ (l.1 = right ∧ l.2.1 = left) := by
      cases op <;> exact ⟨_, .head _, by simp⟩
    obtain ⟨l, hl, hends⟩ := hfirst
    simp only [Node.linked, List.mem_cons, List.not_mem_nil, or_false] at h
    exact ⟨l, hl, by omega⟩
  | _ => cases h

/-- Where a live node is linked to live nodes alone, the edges that it calls for join live nodes. -/
theorem live_of_mem_typeEdges (hnode : a.node? v = some node)
    (hlinked : ∀ r ∈ node.linked, ∃ node, a.node? r = some node)
    (h : (x, y, tag) ∈ typeEdges v node) :
    (∃ node, a.node? x = some node) ∧ ∃ node, a.node? y = some node := by
  rcases place_of_mem_typeEdges h with ⟨rfl, hy⟩ | ⟨hx, rfl⟩ | ⟨hx, hy⟩
  · exact ⟨⟨node, hnode⟩, hlinked y hy⟩
  · exact ⟨hlinked x hx, ⟨node, hnode⟩⟩
  · exact ⟨hlinked x hx, hlinked y hy⟩

/-- Edges bring their ends with them, so that what a live node refers to may become a vertex though
it is dead. -/
theorem mem_vertices_fullGraph :
    v ∈ (fullGraph a).graph.vertices ↔
      (∃ node, a.node? v = some node) ∨ ∃ w node, a.node? w = some node ∧ v ∈ node.linked := by
  rw [fullGraph, mem_vertices_linkEach, mem_vertices_bareGraph, mem_vertices_nodeGraph]
  constructor
  · rintro (hv | ⟨⟨x, y, tag⟩, hl, hv⟩)
    · exact .inl hv
    · obtain ⟨w, node, hnode, hl⟩ := mem_allLinks.1 hl
      have hends : v = w ∨ v ∈ node.linked := by
        rcases place_of_mem_typeEdges hl with ⟨hx, hy⟩ | ⟨hx, hy⟩ | ⟨hx, hy⟩ <;>
          rcases hv with rfl | rfl <;> tauto
      rcases hends with rfl | hv
      · exact .inl ⟨node, hnode⟩
      · exact .inr ⟨w, node, hnode, hv⟩
  · rintro (hv | ⟨w, node, hnode, hv⟩)
    · exact .inl hv
    · obtain ⟨l, hl, hends⟩ := exists_edge_of_mem_linked hv w
      exact .inr ⟨l, mem_allLinks.2 ⟨w, node, hnode, hl⟩, hends⟩

end Analysis

end LetLang
