import LetLang.Proofs.Analysis.ScopeGraph
import LetLang.Proofs.Lowering.Deletion
import Mathlib

/-!
# Enclosing scopes

Files, functions and sequences have scopes of their own, which are numbered in preorder. Every other
node is in the scope of the first such node above it. The edges of the scope graph lead from each
scope to the one that its node stands in, and by them all scopes lead to that of the file. This
holds of a lowered file after any deletions, since a deletion takes along what hangs below.
-/

namespace LetLang

def Node.ownsScope : Node → Bool
  | .file _ => true
  | node => Analysis.opensScope node

/-- Going up from `i`, the first node with a scope of its own is `n`. -/
inductive Arena.Encloses (a : Arena Node) (n : Nat) : Nat → Prop
  | self {node : Node} : a.node? n = some node → node.ownsScope = true → Encloses a n n
  | inner {i p : Nat} {node : Node} : a.node? i = some node → node.ownsScope = false →
      a.parent i = .ok p → Encloses a n p → Encloses a n i

theorem Node.ownsScope_of_opensScope {node : Node} (h : Analysis.opensScope node = true) :
    node.ownsScope = true := by
  cases node <;> first | rfl | cases h

namespace Analysis

variable {a : Arena Node} {g g' : ScopeGraph} {x : Nat × Node} {done nodes : List (Nat × Node)}

def owners (nodes : List (Nat × Node)) : List Nat :=
  (nodes.filter fun x => x.2.ownsScope).map Prod.fst

/-- The nodes `done` have got their scopes. -/
structure Settled (a : Arena Node) (done : List (Nat × Node)) (g : ScopeGraph) : Prop where
  vertices : g.graph.vertices = (List.range (owners done).length).map Nat.cast
  next : g.graph.next = (owners done).length
  known : ∀ i s, g.scopes.get? i = some s → i ∈ done.map Prod.fst
  owner : ∀ (k i : Nat), (owners done)[k]? = some i → g.scopes.get? i = some (k : Int)
  inherits : ∀ i node, (i, node) ∈ done → node.ownsScope = false →
    ∃ p s, a.parent i = .ok p ∧ g.scopes.get? p = some s ∧ g.scopes.get? i = some s
  inside : ∀ i node, (i, node) ∈ done → opensScope node = true →
    ∃ p s t, a.parent i = .ok p ∧ g.scopes.get? p = some t ∧ g.scopes.get? i = some s ∧ t < s ∧
      (s, t) ∈ g.graph.edges
  edges : ∀ s t, (s, t) ∈ g.graph.edges → ∃ i node p, (i, node) ∈ done ∧
    opensScope node = true ∧ a.parent i = .ok p ∧ g.scopes.get? i = some s ∧
      g.scopes.get? p = some t

theorem settled_empty (a : Arena Node) : Settled a [] ⟨.empty, ∅⟩ where
  vertices := rfl
  next := rfl
  known := by simp
  owner := by simp [owners]
  inherits := by simp
  inside := by simp
  edges := by simp [Digraph.empty]

theorem owners_concat_of_owns {id : Nat} {node : Node} (h : node.ownsScope = true) :
    owners (done ++ [(id, node)]) = owners done ++ [id] := by
  simp [owners, List.filter_append, h]

theorem owners_concat_of_not_owns {id : Nat} {node : Node} (h : node.ownsScope = false) :
    owners (done ++ [(id, node)]) = owners done := by
  simp [owners, List.filter_append, h]

namespace Settled

theorem mem_vertices_iff (h : Settled a done g) {v : Int} :
    v ∈ g.graph.vertices ↔ 0 ≤ v ∧ v < g.graph.next := by
  rw [h.vertices, h.next]
  simp only [List.mem_map, List.mem_range]
  constructor
  · rintro ⟨k, hk, rfl⟩
    omega
  · rintro ⟨hpos, hlt⟩
    lift v to Nat using hpos
    exact ⟨v, by omega, rfl⟩

theorem next_not_mem (h : Settled a done g) : g.graph.next ∉ g.graph.vertices := fun hmem =>
  Int.lt_irrefl _ (h.mem_vertices_iff.1 hmem).2

/-- One more node: it takes the next scope or that of its parent, and an edge may come with it. -/
theorem extend {id : Nat} {node : Node} {s : Int} {graph : Digraph} (h : Settled a done g)
    (hid : id ∉ done.map Prod.fst)
    (hvertices : graph.vertices =
      (List.range (owners (done ++ [(id, node)])).length).map Nat.cast)
    (hnext : graph.next = (owners (done ++ [(id, node)])).length)
    (hkept : ∀ e ∈ g.graph.edges, e ∈ graph.edges)
    (howns : node.ownsScope = true → s = g.graph.next)
    (hinherits : node.ownsScope = false → ∃ p, a.parent id = .ok p ∧ g.scopes.get? p = some s)
    (hinside : opensScope node = true → ∃ p t, a.parent id = .ok p ∧ g.scopes.get? p = some t ∧
      t < s ∧ (s, t) ∈ graph.edges)
    (hedges : ∀ e ∈ graph.edges, e ∈ g.graph.edges ∨ opensScope node = true ∧
      ∃ p t, a.parent id = .ok p ∧ g.scopes.get? p = some t ∧ e = (s, t)) :
    Settled a (done ++ [(id, node)]) ⟨graph, g.scopes.insert id s⟩ := by
  have hself : (g.scopes.insert id s).get? id = some s := Table.get?_insert_self _ _ _
  have hold : ∀ {i : Nat} {s' : Int}, g.scopes.get? i = some s' →
      (g.scopes.insert id s).get? i = some s' := by
    intro i s' hs'
    rw [Table.get?_insert_of_ne]
    · exact hs'
    · rintro rfl
      exact hid (h.known _ s' hs')
  have hmem : ∀ {y : Nat × Node}, y ∈ done ++ [(id, node)] → y ∈ done ∨ y = (id, node) := by
    intro y hy
    rwa [List.mem_append, List.mem_singleton] at hy
  refine ⟨hvertices, hnext, ?known, ?owner, ?inherits, ?inside, ?edges⟩
  case known =>
    intro i s' hs'
    dsimp only at hs'
    rw [Table.get?_insert] at hs'
    rw [List.map_append, List.mem_append]
    split at hs'
    · next heq => exact .inr (by simp [heq])
    · exact .inl (h.known i s' hs')
  case owner =>
    intro k i hk
    cases hnode : node.ownsScope with
    | false =>
      rw [owners_concat_of_not_owns hnode] at hk
      exact hold (h.owner k i hk)
    | true =>
      rw [owners_concat_of_owns hnode, List.getElem?_append] at hk
      split at hk
      · exact hold (h.owner k i hk)
      · next hlast =>
        obtain ⟨hlt, rfl⟩ := List.getElem?_eq_some_iff.1 hk
        rw [List.length_singleton] at hlt
        obtain rfl : k = (owners done).length := by omega
        rw [List.getElem_singleton, ← h.next, ← howns hnode]
        exact hself
  case inherits =>
    intro i node' hi hnode
    rcases hmem hi with hi | ⟨⟨⟩⟩
    · obtain ⟨p, s', hp, hp', hs'⟩ := h.inherits i node' hi hnode
      exact ⟨p, s', hp, hold hp', hold hs'⟩
    · obtain ⟨p, hp, hp'⟩ := hinherits hnode
      exact ⟨p, s, hp, hold hp', hself⟩
  case inside =>
    intro i node' hi hnode
    rcases hmem hi with hi | ⟨⟨⟩⟩
    · obtain ⟨p, s', t, hp, ht, hs', hlt, hedge⟩ := h.inside i node' hi hnode
      exact ⟨p, s', t, hp, hold ht, hold hs', hlt, hkept _ hedge⟩
    · obtain ⟨p, t, hp, ht, hlt, hedge⟩ := hinside hnode
      exact ⟨p, s, t, hp, hold ht, hself, hlt, hedge⟩
  case edges =>
    intro s' t he
    rcases hedges _ he with he | ⟨hnode, p, t, hp, ht, ⟨⟩⟩
    · obtain ⟨i, node', p, hi, hnode, hp, hs', ht⟩ := h.edges s' t he
      exact ⟨i, node', p, List.mem_append_left _ hi, hnode, hp, hold hs', hold ht⟩
    · exact ⟨id, node, p, by simp, hnode, hp, hself, hold ht⟩

theorem step (h : Settled a done g) (hg : Sound g) (hx : x.1 ∉ done.map Prod.fst)
    (hstep : ScopeStep a g x g') : Settled a (done ++ [x]) g' := by
  have hnew : g.graph.newVertex.2.vertices =
      (List.range ((owners done).length + 1)).map Nat.cast := by
    rw [Digraph.vertices_newVertex h.next_not_mem, h.vertices, h.next, List.range_succ,
      List.map_append, List.map_singleton]
  have hmore : ∀ {id : Nat} {node : Node}, node.ownsScope = true →
      (owners (done ++ [(id, node)])).length = (owners done).length + 1 := by
    intro id node hnode
    rw [owners_concat_of_owns hnode, List.length_append, List.length_singleton]
  cases hstep with
  | @file id functions =>
    refine h.extend hx ?_ ?_ ?_ (fun _ => rfl) nofun nofun ?_
    · rw [hmore rfl]
      exact hnew
    · rw [hmore rfl, Digraph.next_newVertex, h.next]
      rfl
    · rw [Digraph.edges_newVertex]
      exact fun e he => he
    · rw [Digraph.edges_newVertex]
      exact fun _ => .inl
  | @opens id p node around hopens hp haround =>
    have hnode := Node.ownsScope_of_opensScope hopens
    have hends : g.graph.next ∈ g.graph.newVertex.2.vertices ∧
        around ∈ g.graph.newVertex.2.vertices := by
      rw [Digraph.vertices_newVertex h.next_not_mem]
      have hin := h.mem_vertices_iff.2 (hg.scope p around haround)
      exact ⟨List.mem_concat_self, List.mem_append_left _ hin⟩
    have hedge : ∀ e : Int × Int, e ∈ (g.graph.newVertex.2.addEdge g.graph.next around).edges ↔
        e ∈ g.graph.edges ∨ e = (g.graph.next, around) := by
      intro e
      rw [Digraph.mem_edges_addEdge, Digraph.edges_newVertex]
    refine h.extend hx ?_ ?_ ?_ (fun _ => rfl) ?_ ?_ ?_
    · rw [hmore hnode, Digraph.vertices_addEdge hends.1 hends.2]
      exact hnew
    · rw [hmore hnode, Digraph.next_addEdge, Digraph.next_newVertex, h.next]
      rfl
    · exact fun e he => (hedge e).2 (.inl he)
    · exact fun hnot => absurd (hnode.symm.trans hnot) Bool.noConfusion
    · exact fun _ => ⟨p, around, hp, haround, (hg.scope p around haround).2, (hedge _).2 (.inr rfl)⟩
    · exact fun e he => ((hedge e).1 he).imp_right fun heq => ⟨hopens, p, around, hp, haround, heq⟩
  | @stays id p node around hfile hopens hp haround =>
    have hnode : node.ownsScope = false := by
      cases node with
      | file functions => exact absurd rfl (hfile functions)
      | _ => exact hopens
    refine h.extend hx ?_ ?_ (fun e he => he) ?_ ?_ ?_ ?_
    · rw [owners_concat_of_not_owns hnode]
      exact h.vertices
    · rw [owners_concat_of_not_owns hnode]
      exact h.next
    · exact fun howns => absurd (hnode.symm.trans howns) Bool.noConfusion
    · exact fun _ => ⟨p, hp, haround⟩
    · exact fun hyes => absurd (hopens.symm.trans hyes) Bool.noConfusion
    · exact fun e he => .inl he

end Settled

end Analysis

namespace Arena

variable {a : Arena Node} {i n : Nat} {node : Node}

theorem Encloses.unique {m : Nat} (h : a.Encloses n i) (h' : a.Encloses m i) : n = m := by
  induction h with
  | self hn howns =>
    cases h' with
    | self => rfl
    | inner hm hnot =>
      cases hn.symm.trans hm
      exact absurd (howns.symm.trans hnot) Bool.noConfusion
  | inner hi hnot hp _ ih =>
    cases h' with
    | self hm howns =>
      cases hi.symm.trans hm
      exact absurd (howns.symm.trans hnot) Bool.noConfusion
    | inner _ _ hp' hm =>
      cases hp.symm.trans hp'
      exact ih hm

theorem Pruned.exists_encloses (h : a.Pruned) (hnode : a.node? i = some node) :
    ∃ n, a.Encloses n i := by
  induction i using Nat.strongRecOn generalizing node with
  | _ i ih =>
    cases howns : node.ownsScope with
    | true => exact ⟨i, .self hnode howns⟩
    | false =>
      have hfile : ∀ fs, node ≠ .file fs := by
        rintro fs rfl
        cases howns
      obtain ⟨p, node', hp, hlt, -, hparent⟩ :=
        h.exists_parent (h.pos_of_ne_file hnode hfile) hnode
      obtain ⟨n, hn⟩ := ih p hlt hparent
      exact ⟨n, .inner hnode howns hp hn⟩

end Arena

namespace Analysis

variable {a : Arena Node} {g : ScopeGraph}

/-- The scopes show how the nodes are enclosed. -/
structure Nested (a : Arena Node) (g : ScopeGraph) : Prop where
  /-- The scopes are counted from 0, one for each live node that has its own. -/
  vertices : g.graph.vertices =
    (List.range (a.live.countP fun x => x.2.ownsScope)).map Nat.cast
  own : ∀ v ∈ g.graph.vertices, ∃! i : Nat, g.scopes.get? i = some v ∧
    ∃ node, a.node? i = some node ∧ node.ownsScope = true
  /-- The live nodes and no others are in a scope, that of the first such node going up. -/
  covered : ∀ i : Nat, (∃ s ∈ g.graph.vertices, g.scopes.get? i = some s) ↔
    ∃ node, a.node? i = some node
  uncovered : ∀ i : Nat, a.node? i = none → g.scopes.get? i = none
  enclosed : ∀ (i : Nat) (node : Node), a.node? i = some node → ∃! n, a.Encloses n i
  nearest : ∀ n i : Nat, a.Encloses n i → g.scopes.get? i = g.scopes.get? n
  /-- From each scope but that of the file one edge leads to the scope of the parent. -/
  outward : ∀ (i : Nat) (node : Node), a.node? i = some node → opensScope node = true →
    ∃ p s t, a.parent i = .ok p ∧ g.scopes.get? i = some s ∧ g.scopes.get? p = some t ∧ t < s ∧
      g.graph.edges.filter (fun e => e.1 = s) = [(s, t)]
  /-- There are no other edges. -/
  edges : ∀ s t, (s, t) ∈ g.graph.edges → 0 ≤ t ∧ t < s ∧ ∃ (i : Nat) (node : Node),
    a.node? i = some node ∧ opensScope node = true ∧ g.scopes.get? i = some s
  rooted : ∀ v ∈ g.graph.vertices,
    Relation.ReflTransGen (fun s t => (s, t) ∈ g.graph.edges) v 0
  file : ∀ node, a.node? rootId = some node → g.scopes.get? 0 = some 0
  gone : a.node? rootId = none → g.graph.vertices = [] ∧ g.graph.edges = []

theorem nodup_ids_preorder (a : Arena Node) : (a.preorder.map Prod.fst).Nodup := by
  refine List.Nodup.map_on (fun x hx y hy heq => ?_) a.nodup_preorder
  obtain ⟨i, s, -, hs, rfl⟩ := Arena.mem_preorder_iff.1 hx
  obtain ⟨j, t, -, ht, rfl⟩ := Arena.mem_preorder_iff.1 hy
  obtain rfl : i = j := heq
  cases hs.symm.trans ht
  rfl

/-- The scope graph is made, and all nodes that preorder visits have got their scopes. -/
theorem exists_settled (h : a.Pruned) :
    ∃ g, scopeGraph a = .ok g ∧ Sound g ∧ Settled a a.preorder g := by
  let motive (rest : List (Nat × Node)) (g : ScopeGraph) : Prop :=
    Sound g ∧ ∃ done, done ++ rest = a.preorder ∧ Settled a done g
  have hempty : motive a.preorder ⟨.empty, ∅⟩ := ⟨sound_empty, [], rfl, settled_empty a⟩
  have hstep : ∀ x rest g g', motive (x :: rest) g → ScopeStep a g x g' → motive rest g' := by
    rintro x rest g g' ⟨hg, done, hdone, hsettled⟩ hstep
    have hnodup := nodup_ids_preorder a
    rw [← hdone, List.map_append, List.map_cons, List.nodup_middle, List.nodup_cons] at hnodup
    refine ⟨hstep.sound hg, done ++ [x], by rw [← hdone, List.append_assoc]; rfl, ?_⟩
    exact hsettled.step hg (fun hx => hnodup.1 (List.mem_append_left _ hx)) hstep
  obtain ⟨g, hg, hsound, done, hdone, hsettled⟩ :=
    exists_assignScopes hstep (parentsKnown_preorder h.file _) hempty
  rw [List.append_nil] at hdone
  exact ⟨g, hg, hsound, hdone ▸ hsettled⟩

theorem Settled.exists_owner {done : List (Nat × Node)} (h : Settled a done g) {k : Nat}
    (hk : k < (owners done).length) : ∃ i ∈ owners done, g.scopes.get? i = some (k : Int) :=
  ⟨(owners done)[k], List.getElem_mem hk, h.owner k _ (List.getElem?_eq_getElem hk)⟩

/-- Nodes with scopes of their own are told apart by them. -/
theorem Settled.eq_of_scope {done : List (Nat × Node)} {i j : Nat} (h : Settled a done g)
    (hi : i ∈ owners done) (hj : j ∈ owners done) (heq : g.scopes.get? i = g.scopes.get? j) :
    i = j := by
  obtain ⟨k, hk⟩ := List.mem_iff_getElem?.1 hi
  obtain ⟨l, hl⟩ := List.mem_iff_getElem?.1 hj
  rw [h.owner k i hk, h.owner l j hl, Option.some_inj, Int.natCast_inj] at heq
  subst heq
  exact Option.some.inj (hk.symm.trans hl)

section
variable {i : Nat} {s : Int} {node : Node} (h : a.Pruned) (hs : Settled a a.preorder g)
include h

theorem mem_owners_iff :
    i ∈ owners a.preorder ↔ ∃ node, a.node? i = some node ∧ node.ownsScope = true := by
  simp only [owners, List.mem_map, List.mem_filter, Prod.exists, exists_and_right, exists_eq_right,
    h.mem_preorder_iff]

theorem mem_owners_of_opens (hnode : a.node? i = some node) (hopens : opensScope node = true) :
    i ∈ owners a.preorder :=
  (mem_owners_iff h).2 ⟨node, hnode, Node.ownsScope_of_opensScope hopens⟩

theorem length_owners :
    (owners a.preorder).length = a.live.countP fun x => x.2.ownsScope := by
  rw [owners, List.length_map, ← List.countP_eq_length_filter, h.perm_live.countP_eq]

include hs

theorem exists_node_of_scope (hi : g.scopes.get? i = some s) : ∃ node, a.node? i = some node := by
  obtain ⟨⟨i, node⟩, hmem, rfl⟩ := List.mem_map.1 (hs.known i s hi)
  exact ⟨node, h.mem_preorder_iff.1 hmem⟩

theorem exists_scope (hnode : a.node? i = some node) : ∃ s, g.scopes.get? i = some s := by
  cases howns : node.ownsScope with
  | true =>
    obtain ⟨k, hk⟩ := List.mem_iff_getElem?.1 ((mem_owners_iff h).2 ⟨node, hnode, howns⟩)
    exact ⟨k, hs.owner k i hk⟩
  | false =>
    obtain ⟨p, s, -, -, hi⟩ := hs.inherits i node (h.mem_preorder_iff.2 hnode) howns
    exact ⟨s, hi⟩

theorem scope_nearest {n : Nat} (hn : a.Encloses n i) : g.scopes.get? i = g.scopes.get? n := by
  induction hn with
  | self => rfl
  | inner hi howns hp _ ih =>
    obtain ⟨p, s, hp', hscope, hi'⟩ := hs.inherits _ _ (h.mem_preorder_iff.2 hi) howns
    cases hp.symm.trans hp'
    rw [← ih, hscope, hi']

/-- The root comes first. -/
theorem scope_root (hnode : a.node? rootId = some node) : g.scopes.get? 0 = some 0 := by
  have hroot : (0, node) ∈ a.preorder := h.mem_preorder_iff.2 hnode
  cases hpreorder : a.preorder with
  | nil => simp [hpreorder] at hroot
  | cons x rest =>
    have hfirst : a.preorder = [] ++ x :: rest := hpreorder
    rcases Arena.parent_first_of_preorder hfirst with ⟨hzero, -⟩ | ⟨y, hy, -⟩
    · have hx : a.node? x.1 = some x.2 := h.mem_preorder_iff.1 (hpreorder ▸ List.mem_cons_self)
      have howns : x.2.ownsScope = true := by
        obtain ⟨k, s, hk, hslot, -, hvalue⟩ := Arena.exists_slot_of_node? hx
        obtain rfl := Int.ofNat.inj hk
        obtain ⟨fs, hfs⟩ := h.file s (hzero ▸ hslot)
        rw [← hvalue, hfs]
        rfl
      have howner : (owners a.preorder)[0]? = some x.1 := by
        simp [owners, hpreorder, howns]
      rw [← hzero]
      exact hs.owner 0 x.1 howner
    · cases hy

/-- A scope inside another one has an edge to it, and no other edge. -/
theorem edges_from_scope (hg : Sound g) (hnode : a.node? i = some node)
    (hopens : opensScope node = true) :
    ∃ p s t, a.parent i = .ok p ∧ g.scopes.get? i = some s ∧ g.scopes.get? p = some t ∧ t < s ∧
      g.graph.edges.filter (fun e => e.1 = s) = [(s, t)] := by
  obtain ⟨p, s, t, hp, ht, hi, hlt, hedge⟩ :=
    hs.inside i node (h.mem_preorder_iff.2 hnode) hopens
  refine ⟨p, s, t, hp, hi, ht, hlt, ?_⟩
  have hmem : ∀ e : Int × Int, e ∈ g.graph.edges.filter (fun e => e.1 = s) ↔ e ∈ [(s, t)] := by
    rintro ⟨s', t'⟩
    rw [List.mem_filter, List.mem_singleton, decide_eq_true_eq]
    constructor
    · rintro ⟨he, rfl⟩
      obtain ⟨j, node', q, hj, hopens', hq, hj', ht'⟩ := hs.edges s' t' he
      have hsame : j = i := hs.eq_of_scope
        (mem_owners_of_opens h (h.mem_preorder_iff.1 hj) hopens')
        (mem_owners_of_opens h hnode hopens) (hj'.trans hi.symm)
      subst hsame
      cases hq.symm.trans hp
      cases ht'.symm.trans ht
      rfl
    · rintro ⟨⟩
      exact ⟨hedge, rfl⟩
  exact List.perm_singleton.1
    ((List.perm_ext_iff_of_nodup (hg.nodup.filter _) (List.nodup_singleton _)).2 hmem)

theorem edge_descends (hg : Sound g) {s t : Int} (he : (s, t) ∈ g.graph.edges) :
    0 ≤ t ∧ t < s ∧ ∃ (i : Nat) (node : Node), a.node? i = some node ∧ opensScope node = true ∧
      g.scopes.get? i = some s := by
  obtain ⟨i, node, p, hi, hopens, hp, hscope, ht⟩ := hs.edges s t he
  obtain ⟨q, s', t', hq, ht', hscope', hlt, -⟩ := hs.inside i node hi hopens
  cases hq.symm.trans hp
  cases ht'.symm.trans ht
  cases hscope'.symm.trans hscope
  exact ⟨(hg.scope _ t ht).1, hlt, i, node, h.mem_preorder_iff.1 hi, hopens, hscope⟩

/-- A scope that is not inside another one is that of the file. -/
theorem reaches_root (hg : Sound g) {k : Nat} (hk : k < (owners a.preorder).length) :
    Relation.ReflTransGen (fun s t => (s, t) ∈ g.graph.edges) (k : Int) 0 := by
  induction k using Nat.strongRecOn with
  | _ k ih =>
    obtain ⟨i, hi, hscope⟩ := hs.exists_owner hk
    obtain ⟨node, hnode, howns⟩ := (mem_owners_iff h).1 hi
    by_cases hfile : ∃ fs, node = .file fs
    · obtain ⟨fs, rfl⟩ := hfile
      obtain ⟨l, s, hl, hslot, -, hvalue⟩ := Arena.exists_slot_of_node? hnode
      obtain rfl := Int.ofNat.inj hl
      obtain rfl := h.only_file i s fs hslot hvalue
      cases hscope.symm.trans (scope_root h hs hnode)
      exact .refl
    · have hopens : opensScope node = true := by
        cases node with
        | file fs => exact absurd ⟨fs, rfl⟩ hfile
        | _ => exact howns
      obtain ⟨p, s, t, -, ht, hs', hlt, hedge⟩ :=
        hs.inside i node (h.mem_preorder_iff.2 hnode) hopens
      cases hs'.symm.trans hscope
      have hpos := (hg.scope p t ht).1
      lift t to Nat using hpos
      exact .head hedge (ih t (by omega) (by omega))

end

/-- Where what is live stands below a root that is a file, the scope graph shows how the nodes are
enclosed. -/
theorem exists_nested (h : a.Pruned) : ∃ g, scopeGraph a = .ok g ∧ Nested a g := by
  obtain ⟨g, hmade, hg, hs⟩ := exists_settled h
  refine ⟨g, hmade, ?vertices, fun v hv => ?own, fun i => ?covered, fun i hi => ?uncovered,
    fun i node hnode => ?enclosed, fun n i hn => scope_nearest h hs hn,
    fun i node hnode hopens => edges_from_scope h hs hg hnode hopens,
    fun s t he => edge_descends h hs hg he, fun v hv => ?rooted,
    fun node hnode => scope_root h hs hnode, fun hroot => ?gone⟩
  case vertices => rw [hs.vertices, length_owners h]
  case own =>
    rw [hs.vertices, List.mem_map] at hv
    obtain ⟨k, hk, rfl⟩ := hv
    obtain ⟨i, hi, hscope⟩ := hs.exists_owner (List.mem_range.1 hk)
    refine ⟨i, ⟨hscope, (mem_owners_iff h).1 hi⟩, ?_⟩
    rintro j ⟨hj, hnode⟩
    exact hs.eq_of_scope ((mem_owners_iff h).2 hnode) hi (hj.trans hscope.symm)
  case covered =>
    constructor
    · rintro ⟨s, -, hi⟩
      exact exists_node_of_scope h hs hi
    · rintro ⟨node, hnode⟩
      obtain ⟨s, hi⟩ := exists_scope h hs hnode
      exact ⟨s, hs.mem_vertices_iff.2 (hg.scope i s hi), hi⟩
  case uncovered =>
    rw [Option.eq_none_iff_forall_ne_some]
    intro s hs'
    obtain ⟨node, hnode⟩ := exists_node_of_scope h hs hs'
    cases hi.symm.trans hnode
  case enclosed =>
    obtain ⟨n, hn⟩ := h.exists_encloses hnode
    exact ⟨n, hn, fun m hm => hm.unique hn⟩
  case rooted =>
    rw [hs.vertices, List.mem_map] at hv
    obtain ⟨k, hk, rfl⟩ := hv
    exact reaches_root h hs hg (List.mem_range.1 hk)
  case gone =>
    have hnone : a.preorder = [] := by
      rw [List.eq_nil_iff_forall_not_mem]
      rintro x hx
      obtain ⟨i, s, hi, -⟩ := Arena.mem_preorder_iff.1 hx
      obtain ⟨t, ht, hlive⟩ := hi.live_top
      cases hroot.symm.trans (Arena.node?_of_slot ht hlive)
    rw [hnone] at hs
    refine ⟨hs.vertices, List.eq_nil_iff_forall_not_mem.2 ?_⟩
    rintro ⟨s, t⟩ he
    obtain ⟨i, node, p, hi, -⟩ := hs.edges s t he
    cases hi

end Analysis

namespace Lowering

variable {t : Tree String} {l : Lowered}

/-- After any deletions in the arena of a lowered file the scope graph is made, and it shows how the
live nodes are enclosed. -/
theorem scopes_show_nesting (h : LetLang.lower t = .ok l) (ids : List Int) :
    ∃ g, Analysis.scopeGraph ((ids.map Arena.Edit.delete).foldl Arena.apply l.arena) = .ok g ∧
      Analysis.Nested ((ids.map Arena.Edit.delete).foldl Arena.apply l.arena) g :=
  Analysis.exists_nested ((pruned_of_lower h).deleteAll ids)

/-- The function of an applied lambda stands below the root, and so is its scope inside that of the
file, though the lambda was written in a block. The second function was deleted. -/
theorem lifted_scope_inside_file :
    ∃ l g, LetLang.lower (.file [
        .bind (.identifier "f") .unitType (.lambda [.identifier "x"]
          (.block [.apply (.lambda [.identifier "y"] (.block [])) (.identifier "x"), .number 1])),
        .bind (.identifier "g") .unitType (.lambda [] (.number 1))]) = .ok l ∧
      Analysis.scopeGraph (([11, 99].map Arena.Edit.delete).foldl Arena.apply l.arena) = .ok g ∧
      Analysis.Nested (([11, 99].map Arena.Edit.delete).foldl Arena.apply l.arena) g ∧
      l.arena.node? 4 = some (.function "lambda#0" [5] 6) ∧ g.scopes.get? 4 = some 1 ∧
      g.graph.edges = [(1, 0), (2, 1), (3, 0), (4, 3)] := by
  obtain ⟨l, hl, hnode, g, hg, hscope, hedges⟩ : ∃ l, LetLang.lower (.file [
      .bind (.identifier "f") .unitType (.lambda [.identifier "x"]
        (.block [.apply (.lambda [.identifier "y"] (.block [])) (.identifier "x"), .number 1])),
      .bind (.identifier "g") .unitType (.lambda [] (.number 1))]) = .ok l ∧
      l.arena.node? 4 = some (.function "lambda#0" [5] 6) ∧
      ∃ g, Analysis.scopeGraph (([11, 99].map Arena.Edit.delete).foldl Arena.apply l.arena) =
          .ok g ∧ g.scopes.get? 4 = some 1 ∧ g.graph.edges = [(1, 0), (2, 1), (3, 0), (4, 3)] :=
    ⟨_, by cbv, by cbv, _, by cbv, by cbv, by cbv⟩
  obtain ⟨g', hg', hnested⟩ := scopes_show_nesting hl [11, 99]
  cases hg.symm.trans hg'
  exact ⟨l, g, hl, hg, hnested, hnode, hscope, hedges⟩

end Lowering

end LetLang
