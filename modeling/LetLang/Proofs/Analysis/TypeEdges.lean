import LetLang.Proofs.Analysis.TypeGraph
import LetLang.Proofs.Lowering.Deletion
import Mathlib

/-!
# The edges of the type graph

In a lowered file every node refers to what was put directly below it, and to none of that twice. So
no two edges that nodes call for have the same ends: each edge of the type graph is there for the
sake of one node, and has the tag that this node gave it.
-/

namespace LetLang

def Node.typeEdgeCount : Node → Nat
  | .bind .. => 2
  | .arrayType .. => 1
  | .array elements => elements.length
  | .apply .. => 1
  | .binary .index .. => 1
  | .binary .. => 2
  | _ => 0

namespace Analysis

/-- The node with the number `v` calls for an edge of the type graph, with its ends and its tag. -/
inductive Obligation (a : Arena Node) (v : Int) : Int → Int → Option Tag → Prop
  /-- What a name is bound to has the type that stands there. -/
  | bound {name type value : Int} : a.node? v = some (.bind name type value) →
      Obligation a v value type (some .equal)
  /-- The name has that type as well. -/
  | name {name type value : Int} : a.node? v = some (.bind name type value) →
      Obligation a v name type (some .equal)
  | arrayType {length element : Int} : a.node? v = some (.arrayType length element) →
      Obligation a v v element (some .member)
  | element {elements : List Int} {element : Int} : a.node? v = some (.array elements) →
      element ∈ elements → Obligation a v element v (some .member)
  | callee {callee argument : Int} : a.node? v = some (.apply callee argument) →
      Obligation a v v callee (some .equal)
  /-- The operands of an operator have one type, unless it is that of an index. -/
  | backward {op : Operator} {left right : Int} : a.node? v = some (.binary op left right) →
      op ≠ .index → Obligation a v right left (some .equal)
  | forward {op : Operator} {left right : Int} : a.node? v = some (.binary op left right) →
      op ≠ .index → Obligation a v left right (some .equal)
  | index {left right : Int} : a.node? v = some (.binary .index left right) →
      Obligation a v right left none

variable {a : Arena Node} {v w x y : Int} {tag tag' : Option Tag} {node : Node}
  {links : List (Int × Int × Option Tag)}

theorem obligation_iff :
    Obligation a v x y tag ↔ ∃ node, a.node? v = some node ∧ (x, y, tag) ∈ typeEdges v node := by
  constructor
  · intro h
    cases h with
    | bound hnode => exact ⟨_, hnode, .head _⟩
    | name hnode => exact ⟨_, hnode, .tail _ (.head _)⟩
    | arrayType hnode => exact ⟨_, hnode, .head _⟩
    | element hnode hmem => exact ⟨_, hnode, List.mem_map.2 ⟨x, hmem, rfl⟩⟩
    | callee hnode => exact ⟨_, hnode, .head _⟩
    | @backward op _ _ hnode hop =>
      cases op with
      | index => exact absurd rfl hop
      | _ => exact ⟨_, hnode, .head _⟩
    | @forward op _ _ hnode hop =>
      cases op with
      | index => exact absurd rfl hop
      | _ => exact ⟨_, hnode, .tail _ (.head _)⟩
    | index hnode => exact ⟨_, hnode, .head _⟩
  · rintro ⟨node, hnode, h⟩
    cases node with
    | bind name type value =>
      rcases List.mem_pair.1 h with heq | heq <;> cases heq
      · exact .bound hnode
      · exact .name hnode
    | arrayType length element =>
      cases List.mem_singleton.1 h
      exact .arrayType hnode
    | array elements =>
      obtain ⟨element, hmem, ⟨⟩⟩ := List.mem_map.1 h
      exact .element hnode hmem
    | apply callee argument =>
      cases List.mem_singleton.1 h
      exact .callee hnode
    | binary op left right =>
      cases op with
      | index =>
        cases List.mem_singleton.1 h
        exact .index hnode
      | _ =>
        rcases List.mem_pair.1 h with heq | heq <;> cases heq
        · exact .backward hnode nofun
        · exact .forward hnode nofun
    | _ => cases h

theorem mem_allLinks_iff : (x, y, tag) ∈ allLinks a ↔ ∃ v, Obligation a v x y tag := by
  simp only [mem_allLinks, obligation_iff]

theorem length_typeEdges (v : Int) (node : Node) :
    (typeEdges v node).length = node.typeEdgeCount := by
  cases node with
  | array elements => exact List.length_map _
  | binary op left right => cases op <;> rfl
  | _ => rfl

/-- A node that refers to nothing twice calls for no edge twice. -/
theorem nodup_ends_typeEdges (h : node.references.Nodup) (v : Int) :
    ((typeEdges v node).map ends).Nodup := by
  cases node with
  | bind name type value =>
    have hne : value ≠ name := by
      rintro rfl
      simp [Node.references] at h
    refine List.nodup_cons.2 ⟨fun hmem => ?_, List.nodup_singleton _⟩
    exact hne (congrArg Prod.fst (List.mem_singleton.1 hmem))
  | array elements =>
    change ((elements.map fun e => (e, v, some Tag.member)).map ends).Nodup
    rw [List.map_map]
    exact List.Nodup.map (fun _ _ heq => congrArg Prod.fst heq) h
  | binary op left right =>
    have hne : right ≠ left := by
      rintro rfl
      simp [Node.references] at h
    cases op with
    | index => exact List.nodup_singleton _
    | _ =>
      refine List.nodup_cons.2 ⟨fun hmem => ?_, List.nodup_singleton _⟩
      exact hne (congrArg Prod.fst (List.mem_singleton.1 hmem))
  | arrayType | apply => exact List.nodup_singleton _
  | _ => exact List.nodup_nil

section
variable (h : a.RefersBelow)
include h

theorem Obligation.place (hv : Obligation a v x y tag) :
    x = v ∧ a.Under v y ∨ a.Under v x ∧ y = v ∨ a.Under v x ∧ a.Under v y := by
  obtain ⟨node, hnode, hmem⟩ := obligation_iff.1 hv
  have hunder : ∀ r ∈ node.linked, a.Under v r := fun r hr =>
    h.under v node hnode r (linked_subset_references node hr)
  exact (place_of_mem_typeEdges hmem).imp (And.imp_right (hunder y))
    (Or.imp (And.imp_left (hunder x)) (And.imp (hunder x) (hunder y)))

/-- Both ends of an edge tell the node that calls for it. -/
theorem Obligation.owner_unique (hv : Obligation a v x y tag) (hw : Obligation a w x y tag') :
    v = w := by
  -- Unless an end is both nodes, an end is below both, or each of the two is below the other.
  rcases hv.place h with ⟨rfl, hy⟩ | ⟨hx, rfl⟩ | ⟨hx, hy⟩ <;>
    rcases hw.place h with ⟨rfl, hy'⟩ | ⟨hx', rfl⟩ | ⟨hx', hy'⟩
  · rfl
  · exact absurd (hy.lt.trans hx'.lt) (lt_irrefl _)
  · exact hy.unique hy'
  · exact absurd (hx.lt.trans hy'.lt) (lt_irrefl _)
  · rfl
  · exact hx.unique hx'
  · exact hy.unique hy'
  · exact hx.unique hx'
  · exact hx.unique hx'

theorem nodup_ends_allLinks : ((allLinks a).map ends).Nodup := by
  rw [allLinks, List.map_flatMap, List.nodup_flatMap]
  constructor
  · intro v hv
    obtain ⟨node, hnode⟩ := mem_vertices_nodeGraph.1 hv
    rw [linksAt, hnode]
    exact nodup_ends_typeEdges (h.nodup v node hnode) v
  · refine (nodup_vertices_nodeGraph a).imp fun {v w} hne => ?_
    rintro e hv hw
    obtain ⟨l, hl, rfl⟩ := List.mem_map.1 hv
    obtain ⟨l', hl', hends⟩ := List.mem_map.1 hw
    obtain ⟨x, y, tag⟩ := l
    obtain ⟨x', y', tag'⟩ := l'
    obtain ⟨rfl, rfl⟩ := Prod.mk.inj hends
    exact hne (Obligation.owner_unique h (obligation_iff.2 (mem_linksAt.1 hl))
      (obligation_iff.2 (mem_linksAt.1 hl')))

theorem Obligation.tag_unique (hv : Obligation a v x y tag) (hw : Obligation a w x y tag') :
    tag = tag' := by
  have heq : (x, y, tag) = (x, y, tag') := List.inj_on_of_nodup_map (nodup_ends_allLinks h)
    (mem_allLinks_iff.2 ⟨v, hv⟩) (mem_allLinks_iff.2 ⟨w, hw⟩) rfl
  cases heq
  rfl

theorem perm_edges_fullGraph : (fullGraph a).graph.edges.Perm ((allLinks a).map ends) :=
  (List.perm_ext_iff_of_nodup (nodup_edges_fullGraph a) (nodup_ends_allLinks h)).2
    fun _ => mem_edges_fullGraph

/-- There are as many edges as the live nodes call for. -/
theorem length_edges_fullGraph :
    (fullGraph a).graph.edges.length = (a.live.map fun x => x.2.typeEdgeCount).sum := by
  rw [(perm_edges_fullGraph h).length_eq, List.length_map, allLinks, List.length_flatMap,
    ((perm_vertices_nodeGraph a).map _).sum_eq, List.map_map]
  refine congrArg List.sum (List.map_congr_left fun x hx => ?_)
  have hnode := Arena.mem_live_iff_node?.1 hx
  simp only [Function.comp_apply, linksAt, hnode, Option.map_some, Option.getD_some]
  exact length_typeEdges x.1 x.2

end

/-- The graph has the edges that nodes call for, and every edge is there for the sake of one
node. -/
structure ShowsObligations (a : Arena Node) (g : TypeGraph) : Prop where
  edges : ∀ x y, (x, y) ∈ g.graph.edges ↔ ∃ v tag, Obligation a v x y tag
  nodup : g.graph.edges.Nodup
  apart : ∀ v w x y tag tag', Obligation a v x y tag → Obligation a w x y tag' →
    v = w ∧ tag = tag'
  count : g.graph.edges.length = (a.live.map fun x => x.2.typeEdgeCount).sum
  /-- An edge has the tag that was called for, and none if none was. -/
  tags : ∀ v x y tag, Obligation a v x y tag → g.tags.get? (x, y) = tag
  untagged : ∀ e, e ∉ g.graph.edges → g.tags.get? e = none

theorem mem_edges_fullGraph_iff :
    (x, y) ∈ (fullGraph a).graph.edges ↔ ∃ v tag, Obligation a v x y tag := by
  rw [mem_edges_fullGraph, mem_ends_iff]
  simp only [mem_allLinks_iff]
  exact exists_comm

theorem showsObligations_fullGraph (h : a.RefersBelow) : ShowsObligations a (fullGraph a) where
  edges _ _ := mem_edges_fullGraph_iff
  nodup := nodup_edges_fullGraph a
  apart _ _ _ _ _ _ hv hw := ⟨hv.owner_unique h hw, hv.tag_unique h hw⟩
  count := length_edges_fullGraph h
  tags v x y tag hv := by
    rw [get?_tags_fullGraph]
    exact last?_tagged (nodup_ends_allLinks h) (mem_allLinks_iff.2 ⟨v, hv⟩)
  untagged _ he := get?_tags_of_not_mem_edges he

/-- In a tree no vertex is added for the sake of an edge. -/
theorem perm_vertices_fullGraph (h : a.IsTree) :
    (fullGraph a).graph.vertices.Perm ((List.range a.size).map Nat.cast) := by
  refine (List.perm_ext_iff_of_nodup (nodup_vertices_fullGraph a)
    (List.nodup_range.map Nat.cast_injective)).2 fun v => ?_
  have hheld : (∃ w node, a.node? w = some node ∧ v ∈ node.linked) →
      ∃ node, a.node? v = some node := by
    rintro ⟨w, node, hnode, hv⟩
    exact h.exists_node_of_mem_references hnode (linked_subset_references node hv)
  rw [mem_vertices_fullGraph, or_iff_left_of_imp hheld, List.mem_map]
  constructor
  · rintro ⟨node, hnode⟩
    obtain ⟨i, s, rfl, hs, -⟩ := Arena.exists_slot_of_node? hnode
    exact ⟨i, List.mem_range.2 (Array.getElem?_eq_some_iff.1 hs).1, rfl⟩
  · rintro ⟨i, hi, rfl⟩
    have hs := Array.getElem?_eq_getElem (List.mem_range.1 hi)
    exact ⟨_, Arena.node?_of_slot hs (h.live i _ hs)⟩

end Analysis

namespace Lowering

variable {t : Tree String} {l : Lowered}

/-- The type graph of a lowered file is over the numbers that were given out. It has the edges that
the nodes call for, and no two nodes call for the same edge. -/
theorem typeGraph_shows_obligations (h : LetLang.lower t = .ok l) :
    ∃ g, Analysis.typeGraph (Analysis.nodeGraph l.arena) l.arena = .ok g ∧
      g.graph.vertices.Perm ((List.range l.arena.size).map Nat.cast) ∧
      Analysis.ShowsObligations l.arena g := by
  have htree := isTree_of_lower h
  exact ⟨_, Analysis.typeGraph_eq l.arena, Analysis.perm_vertices_fullGraph htree,
    Analysis.showsObligations_fullGraph htree.refersBelow⟩

/-- An array is bound to a name, and an entry of it is added to the value of a call. -/
theorem bound_array_edges :
    ∃ l g, LetLang.lower (.file [.bind (.identifier "main") .unitType (.lambda [.identifier "x"]
        (.block [.bind (.identifier "xs") (.arrayType (.typeName "ui8") 2)
            (.array [.identifier "x", .number 1]),
          .binary (.apply (.identifier "f") (.identifier "x"))
            (.binary (.identifier "xs") (.number 0) .index) .plus]))]) = .ok l ∧
      Analysis.typeGraph (Analysis.nodeGraph l.arena) l.arena = .ok g ∧
      g.graph.edges = [(8, 6), (5, 6), (15, 12), (12, 15), (6, 7), (9, 8), (10, 8), (12, 13),
        (17, 16)] ∧
      Analysis.ShowsObligations l.arena g := by
  obtain ⟨l, hl, hedges⟩ : ∃ l, LetLang.lower (.file [.bind (.identifier "main") .unitType
      (.lambda [.identifier "x"]
        (.block [.bind (.identifier "xs") (.arrayType (.typeName "ui8") 2)
            (.array [.identifier "x", .number 1]),
          .binary (.apply (.identifier "f") (.identifier "x"))
            (.binary (.identifier "xs") (.number 0) .index) .plus]))]) = .ok l ∧
      (Analysis.fullGraph l.arena).graph.edges = [(8, 6), (5, 6), (15, 12), (12, 15), (6, 7),
        (9, 8), (10, 8), (12, 13), (17, 16)] := ⟨_, by cbv, by cbv⟩
  obtain ⟨g, hg, -, hshows⟩ := typeGraph_shows_obligations hl
  cases (Analysis.typeGraph_eq l.arena).symm.trans hg
  exact ⟨l, _, hl, hg, hedges, hshows⟩

end Lowering

end LetLang
