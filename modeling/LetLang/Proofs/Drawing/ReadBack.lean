import LetLang.Command
import LetLang.Proofs.Analysis.ScopeGraph
import LetLang.Proofs.Analysis.TypeGraph
import LetLang.Proofs.Drawing.Labels

/-!
# Reading the drawings of lowered files back

The three graphs of a lowered file are always made. Their drawings give the graphs back, unless text
with an apostrophe in it is drawn: it is shown between double quotes, which end the label early.
-/

namespace LetLang

/-- The drawing of the graph, read back, gives the graph with its labels. -/
def Command.Labelled.ReadsBack (g : Command.Labelled) : Prop :=
  Drawing.ReadsBack g.graph g.vertexLabel g.edgeLabel

namespace Drawing

section
variable {a : Arena Node} {g : Digraph} {edgeLabel : Int × Int → String} {v : Int} {node : Node}

theorem nodeLabel_eq_ok (h : a.node? v = some node) : nodeLabel a v = .ok node.label := by
  rw [nodeLabel, Arena.value?_eq_some_iff.2 h]
  rfl

theorem legible_tagLabel (tags : Table (Int × Int) Tag) (e : Int × Int) :
    Legible (tagLabel tags e) := by
  unfold tagLabel
  split
  · next tag _ => cases tag <;> decide
  · decide

/-- A graph over live nodes is read back unless there is an apostrophe in the text at the end of an
edge. -/
theorem readsBack_nodeLabel_iff (hspelled : ∀ v node, a.node? v = some node → Spelled node)
    (hnodup : g.edges.Nodup) (hends : ∀ v, g.IsEnd v → ∃ node, a.node? v = some node)
    (hedges : ∀ e, Legible (edgeLabel e)) :
    ReadsBack g (nodeLabel a) edgeLabel ↔
      ∀ v s, g.IsEnd v → a.node? v = some (.text s) → '\x27' ∉ s.toList := by
  have hdrawable : Drawable g (nodeLabel a) edgeLabel := by
    refine ⟨hnodup, fun v hv => ?_, fun v hv => ?_, fun e _ => hedges e⟩
    · obtain ⟨node, hnode⟩ := hends v hv
      obtain ⟨n, -, rfl, -⟩ := Arena.exists_slot_of_node? hnode
      exact Int.natCast_nonneg n
    · obtain ⟨node, hnode⟩ := hends v hv
      exact ⟨_, nodeLabel_eq_ok hnode, legible_or_torn_label (hspelled v node hnode)⟩
  rw [hdrawable.readsBack_iff]
  constructor
  · intro h v s hv hnode
    have hlegible := h v hv _ (nodeLabel_eq_ok hnode)
    exact (legible_label_iff (hspelled v _ hnode)).1 hlegible s rfl
  · intro h v hv s hs
    obtain ⟨node, hnode⟩ := hends v hv
    cases hs.symm.trans (nodeLabel_eq_ok hnode)
    refine (legible_label_iff (hspelled v node hnode)).2 ?_
    rintro s rfl
    exact h v s hv hnode

end

section
variable {a : Arena Node} {v : Int}

theorem exists_node_of_isChild {n c : Nat} (h : a.isChild n c = true) :
    ∃ node, a.node? c = some node := by
  obtain ⟨s, hs, hlive, -⟩ := Arena.isChild_eq_true_iff.1 h
  exact ⟨_, Arena.node?_of_slot hs hlive⟩

theorem exists_node_of_isEnd_nodeGraph (h : (Analysis.nodeGraph a).IsEnd v) :
    ∃ node, a.node? v = some node := by
  obtain ⟨e, he, hv⟩ := h
  obtain ⟨n, c, node, hnode, hchild, rfl⟩ := Analysis.mem_edges_nodeGraph.1 he
  rcases hv with rfl | rfl
  · exact ⟨node, hnode⟩
  · exact exists_node_of_isChild hchild

/-- In a tree every node but the root is the end of an edge. -/
theorem isEnd_nodeGraph_of_node? (htree : a.IsTree) {n : Nat} {node : Node} (hn : 0 < n)
    (hnode : a.node? n = some node) : (Analysis.nodeGraph a).IsEnd n := by
  obtain ⟨k, s, hk, hs, hlive, -⟩ := Arena.exists_slot_of_node? hnode
  obtain rfl := Int.ofNat.inj hk
  obtain ⟨u, hu⟩ := htree.ordered.exists_parent hs
  have hlt := htree.parent_lt n s hn hs
  have hchild : a.isChild s.parent n = true :=
    Arena.isChild_eq_true_iff.2 ⟨s, hs, hlive, rfl, by omega⟩
  exact ⟨_, Analysis.mem_edges_nodeGraph.2
    ⟨_, n, _, Arena.node?_of_slot hu (htree.live _ u hu), hchild, rfl⟩, .inr rfl⟩

/-- In a tree the type graph joins live nodes. -/
theorem exists_node_of_mem_typeEdges (htree : a.IsTree) {x y : Int} {tag : Option Tag} {node : Node}
    (hnode : a.node? v = some node) (h : (x, y, tag) ∈ Analysis.typeEdges v node) :
    (∃ node, a.node? x = some node) ∧ ∃ node, a.node? y = some node :=
  Analysis.live_of_mem_typeEdges hnode (fun _ hr => htree.exists_node_of_mem_references hnode
    (Analysis.linked_subset_references node hr)) h

theorem readsBack_scopes {g : Analysis.ScopeGraph} (h : Analysis.Sound g) :
    ReadsBack g.graph (fun _ => .ok "scope") fun _ => "" := by
  have hscope : Legible "scope" := by decide
  have hdrawable : Drawable g.graph (fun _ => .ok "scope") fun _ => "" :=
    ⟨h.nodup, fun v hv => (h.ends v hv).1, fun v _ => ⟨_, rfl, .inl hscope⟩, fun _ _ => by decide⟩
  refine hdrawable.readsBack_iff.2 fun v _ s hs => ?_
  cases hs
  exact hscope

end

section
variable {source : String} {ts : List (Tree String)} {l : Lowering.Lowered}

/-- The graphs of a lowered file are made. The drawing of the scopes is read back as it is; those of
the nodes and of the types are read back exactly if there is no apostrophe in any text that they
show. -/
theorem reads_back_iff_no_apostrophe (hp : parseSource source = .ok ts)
    (hl : lower (.file ts) = .ok l) :
    ∃ graphs, Analysis.graphs l.arena = .ok graphs ∧
      (Command.select l.arena graphs .scopes).ReadsBack ∧
      ((Command.select l.arena graphs .nodes).ReadsBack ↔
        ∀ id s, l.arena.node? id = some (.text s) → '\x27' ∉ s.toList) ∧
      ((Command.select l.arena graphs .types).ReadsBack ↔
        ∀ id s, graphs.types.graph.IsEnd id → l.arena.node? id = some (.text s) →
          '\x27' ∉ s.toList) := by
  have htree := Lowering.isTree_of_lower hl
  have hspelled : ∀ v node, l.arena.node? v = some node → Spelled node := fun v node hnode =>
    spelled_of_lower (isParsed_of_parseSource hp) hl hnode
  obtain ⟨fs, hroot, -⟩ := htree.root
  obtain ⟨scopes, hscopes, hsound⟩ := Analysis.scopeGraph_eq_ok (a := l.arena) fun s hs => by
    cases hroot.symm.trans hs
    exact ⟨fs, rfl⟩
  obtain ⟨types, htypes, hnodup, hedges⟩ := Analysis.typeGraph_eq_ok l.arena
  have hends : ∀ v, types.graph.IsEnd v → ∃ node, l.arena.node? v = some node := by
    rintro v ⟨e, he, hv⟩
    obtain ⟨u, node, hnode, tag, htag⟩ := (hedges e).1 he
    obtain ⟨hsource, htarget⟩ := exists_node_of_mem_typeEdges htree hnode htag
    rcases hv with rfl | rfl
    · exact hsource
    · exact htarget
  refine ⟨⟨Analysis.nodeGraph l.arena, scopes, types⟩, ?_, readsBack_scopes hsound, ?_, ?_⟩
  · simp only [Analysis.graphs, hscopes, htypes]
  · refine (readsBack_nodeLabel_iff hspelled (Analysis.nodup_edges_nodeGraph _)
      (fun v hv => exists_node_of_isEnd_nodeGraph hv) fun _ => (by decide : Legible "")).trans ?_
    refine ⟨fun h id s hnode => h id s ?_ hnode, fun h v s _ hnode => h v s hnode⟩
    -- text is not the root
    obtain ⟨n, t, rfl, ht, -, hvalue⟩ := Arena.exists_slot_of_node? hnode
    refine isEnd_nodeGraph_of_node? htree (Nat.pos_of_ne_zero ?_) hnode
    rintro rfl
    cases hroot.symm.trans ht
    cases hvalue
  · exact readsBack_nodeLabel_iff hspelled hnodup hends (legible_tagLabel _)

/-- A function that gives text with an apostrophe: its nodes are not read back, its scopes are. -/
theorem apostrophe_does_not_read_back : ∃ ts l graphs,
    parseSource "let main : ui8 -> string = \\x => \"it\x27s\";" = .ok ts ∧
    lower (.file ts) = .ok l ∧ Analysis.graphs l.arena = .ok graphs ∧
    (Command.select l.arena graphs .scopes).ReadsBack ∧
    ¬ (Command.select l.arena graphs .nodes).ReadsBack := by
  let main : Tree String :=
    .bind (.identifier "main") (.functionType (.typeName "ui8") (.typeName "string"))
      (.lambda [.identifier "x"] (.text "it\x27s"))
  have hp : parseSource "let main : ui8 -> string = \\x => \"it\x27s\";" = .ok [main] := by cbv
  obtain ⟨l, hl, htext⟩ : ∃ l, lower (.file [main]) = .ok l ∧
      l.arena.node? 3 = some (.text "it\x27s") := ⟨_, by cbv, by cbv⟩
  obtain ⟨graphs, hgraphs, hscopes, hnodes, -⟩ := reads_back_iff_no_apostrophe hp hl
  exact ⟨_, l, graphs, hp, hl, hgraphs, hscopes,
    fun h => hnodes.1 h 3 _ htext (by decide)⟩

end

end Drawing

end LetLang
