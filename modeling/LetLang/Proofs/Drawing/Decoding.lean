import LetLang.Proofs.Digraph
import LetLang.Proofs.Drawing.Reader

/-!
# Which drawings can be read back

A drawing is read back line by line. Where no label ends a quoted string early the edges come back
as they are, and one torn label is enough for nothing to come back.
-/

namespace LetLang.Drawing

variable {g : Digraph} {vertexLabel : Int → Except Unissued String} {edgeLabel : Int × Int → String}
  {rows : List Row} {r : Row} {e : Int × Int}

structure Row.LabelledBy (vertexLabel : Int → Except Unissued String)
    (edgeLabel : Int × Int → String) (r : Row) : Prop where
  source : vertexLabel r.source = .ok r.sourceLabel
  target : vertexLabel r.target = .ok r.targetLabel
  label : edgeLabel r.edge = r.label

def Row.line (r : Row) : String := String.ofList (r.chars ++ ['\n'])

theorem Row.LabelledBy.dotLine (h : r.LabelledBy vertexLabel edgeLabel) :
    dotLine vertexLabel edgeLabel r.edge = .ok r.line := by
  obtain ⟨source, sourceLabel, target, targetLabel, label⟩ := r
  obtain ⟨hsource, htarget, hlabel⟩ := h
  dsimp only [edge] at hsource htarget hlabel
  simp only [Drawing.dotLine, edge, hsource, htarget, hlabel, bind, Except.bind, pure, Except.pure]
  refine congrArg Except.ok (String.toList_inj.1 ?_)
  simp [line, chars, vertexText, toString]

def rowsText (rows : List Row) : String :=
  "digraph G \x7b\n" ++ String.join (rows.map Row.line) ++ "\x7d\n"

theorem dot_eq_ok (hedges : rows.map Row.edge = g.sortedEdges)
    (hrows : ∀ r ∈ rows, r.LabelledBy vertexLabel edgeLabel) :
    dot g vertexLabel edgeLabel = .ok (rowsText rows) := by
  have hlines : (rows.map Row.edge).mapM (dotLine vertexLabel edgeLabel) =
      .ok (rows.map Row.line) := by
    clear hedges
    induction rows with
    | nil => rfl
    | cons r rows ih =>
      obtain ⟨hr, hrest⟩ := List.forall_mem_cons.1 hrows
      rw [List.map_cons, List.mapM_cons, hr.dotLine, ih hrest]
      rfl
  rw [dot, ← hedges, hlines]
  rfl

theorem readRows_chars (r : Row) (lines : List (List Char)) :
    readRows (r.chars :: lines) = do return (← readRow r.chars) :: (← readRows lines) := by
  -- a row begins with a blank, so that its line is not the last one
  have hne : r.chars ≠ ['\x7d'] := by simp [Row.chars]
  rw [readRows.eq_def]
  split
  · contradiction
  · simp_all
  · next heq =>
    cases heq
    rfl

def lines (rows : List Row) : List (List Char) := rows.map Row.chars ++ [['\x7d'], []]

theorem readRows_lines (h : ∀ r ∈ rows, readRow r.chars = some r) :
    readRows (lines rows) = some rows := by
  induction rows with
  | nil => rfl
  | cons r rows ih =>
    obtain ⟨hr, hrest⟩ := List.forall_mem_cons.1 h
    have hread := ih hrest
    unfold lines at hread ⊢
    rw [List.map_cons, List.cons_append, readRows_chars, hr, hread]
    rfl

theorem readRows_lines_eq_none (hr : r ∈ rows) (h : readRow r.chars = none) :
    readRows (lines rows) = none := by
  induction rows with
  | nil => cases hr
  | cons r' rows ih =>
    have hcons : lines (r' :: rows) = r'.chars :: lines rows := rfl
    rw [hcons, readRows_chars]
    rcases List.mem_cons.1 hr with rfl | hr
    · rw [h]
      rfl
    · rw [ih hr]
      cases readRow r'.chars <;> rfl

/-- Where no label breaks a line, the text is cut back into its rows. -/
theorem readDot_rowsText (h : ∀ r ∈ rows, '\n' ∉ r.chars) :
    readDot (rowsText rows) = readRows (lines rows) := by
  have hlines : ((rows.map fun r => r.chars ++ ['\n']).flatten ++ ['\x7d', '\n']).splitOn '\n' =
      lines rows := by
    induction rows with
    | nil => decide
    | cons r rows ih =>
      obtain ⟨hr, hrest⟩ := List.forall_mem_cons.1 h
      rw [List.map_cons, List.flatten_cons, List.append_assoc, List.append_assoc,
        List.singleton_append, List.splitOn_append_cons_self_of_not_mem hr, ih hrest]
      rfl
  have htext : (rowsText rows).toList = "digraph G \x7b".toList ++ '\n' ::
      ((rows.map fun r => r.chars ++ ['\n']).flatten ++ ['\x7d', '\n']) := by
    simp [rowsText, List.flatten_eq_flatMap, List.flatMap_map, Row.line]
  rw [readDot, htext, List.splitOn_append_cons_self_of_not_mem (by decide), hlines]
  simp only [if_true]

/-- Read back, the drawing gives the edges of the graph in increasing order, each with the labels of
its ends and its own. -/
def ReadsBack (g : Digraph) (vertexLabel : Int → Except Unissued String)
    (edgeLabel : Int × Int → String) : Prop :=
  ∃ text rows, dot g vertexLabel edgeLabel = .ok text ∧ readDot text = some rows ∧
    (rows.map Row.edge).Pairwise Digraph.EdgeLt ∧
    (∀ e, e ∈ rows.map Row.edge ↔ e ∈ g.edges) ∧
    ∀ r ∈ rows, r.LabelledBy vertexLabel edgeLabel

/-- The graph keeps no edge twice, the ends of its edges are numbers from zero on, and their labels
are legible or torn. -/
structure Drawable (g : Digraph) (vertexLabel : Int → Except Unissued String)
    (edgeLabel : Int × Int → String) : Prop where
  nodup : g.edges.Nodup
  nonneg : ∀ v, g.IsEnd v → 0 ≤ v
  vertexLabel : ∀ v, g.IsEnd v → ∃ s, vertexLabel v = .ok s ∧ (Legible s ∨ Torn s)
  edgeLabel : ∀ e ∈ g.edges, Legible (edgeLabel e)

/-- The row has vertices from zero on, whose labels are legible or torn. -/
structure Row.Drawn (r : Row) : Prop where
  source : 0 ≤ r.source
  target : 0 ≤ r.target
  sourceLabel : Legible r.sourceLabel ∨ Torn r.sourceLabel
  targetLabel : Legible r.targetLabel ∨ Torn r.targetLabel
  label : Legible r.label

theorem Torn.not_legible {s : String} (h : Torn s) : ¬ Legible s := by
  obtain ⟨hs, -⟩ := h
  intro hlegible
  exact hlegible.quote (by simp [hs])

theorem Row.Drawn.line_not_mem (h : r.Drawn) : '\n' ∉ r.chars := by
  have hvertex : ∀ (n : Nat) {s : String}, Legible s ∨ Torn s →
      '\n' ∉ (vertexText n s).toList := by
    rintro n s (hs | hs)
    · exact (legible_vertexText n hs).line
    · obtain ⟨-, -, -, -, -, hline⟩ := torn_vertexText n hs
      exact hline
  obtain ⟨m, hm⟩ := Int.eq_ofNat_of_zero_le h.source
  obtain ⟨n, hn⟩ := Int.eq_ofNat_of_zero_le h.target
  have hsource := hvertex m h.sourceLabel
  have htarget := hvertex n h.targetLabel
  rw [← hm] at hsource
  rw [← hn] at htarget
  simp [chars, hsource, htarget, h.label.line]

theorem Row.Drawn.readRow_eq_some (h : r.Drawn) (hs : Legible r.sourceLabel)
    (ht : Legible r.targetLabel) : readRow r.chars = some r := by
  obtain ⟨m, hm⟩ := Int.eq_ofNat_of_zero_le h.source
  obtain ⟨n, hn⟩ := Int.eq_ofNat_of_zero_le h.target
  exact readRow_chars hm hn hs ht h.label

theorem Row.Drawn.readRow_eq_none (h : r.Drawn) (htorn : Torn r.sourceLabel ∨ Torn r.targetLabel) :
    readRow r.chars = none := by
  obtain ⟨m, hm⟩ := Int.eq_ofNat_of_zero_le h.source
  obtain ⟨n, hn⟩ := Int.eq_ofNat_of_zero_le h.target
  rcases h.sourceLabel with hs | hs
  · exact readRow_of_torn_target hm hn hs (htorn.resolve_left fun hs' => hs'.not_legible hs)
  · exact readRow_of_torn_source hm hs

namespace Drawable

/-- Every edge is drawn in a row. -/
theorem exists_rows (h : Drawable g vertexLabel edgeLabel) :
    ∃ rows : List Row, rows.map Row.edge = g.sortedEdges ∧
      ∀ r ∈ rows, r.LabelledBy vertexLabel edgeLabel ∧ r.Drawn := by
  have hrows : ∀ es : List (Int × Int), (∀ e ∈ es, e ∈ g.edges) →
      ∃ rows : List Row, rows.map Row.edge = es ∧
        ∀ r ∈ rows, r.LabelledBy vertexLabel edgeLabel ∧ r.Drawn := by
    intro es hes
    induction es with
    | nil => exact ⟨[], rfl, by simp⟩
    | cons e es ih =>
      obtain ⟨he, hrest⟩ := List.forall_mem_cons.1 hes
      obtain ⟨rows, hedges, hrows⟩ := ih hrest
      have hsource : g.IsEnd e.1 := ⟨e, he, .inl rfl⟩
      have htarget : g.IsEnd e.2 := ⟨e, he, .inr rfl⟩
      obtain ⟨s, hs, hslabel⟩ := h.vertexLabel e.1 hsource
      obtain ⟨t, ht, htlabel⟩ := h.vertexLabel e.2 htarget
      refine ⟨⟨e.1, s, e.2, t, edgeLabel e⟩ :: rows, congrArg (e :: ·) hedges,
        List.forall_mem_cons.2 ⟨⟨⟨hs, ht, rfl⟩, ?_⟩, hrows⟩⟩
      exact ⟨h.nonneg _ hsource, h.nonneg _ htarget, hslabel, htlabel, h.edgeLabel e he⟩
  exact hrows g.sortedEdges fun e he => Digraph.mem_sortedEdges.1 he

/-- A drawable graph is read back exactly where the ends of its edges have legible labels. -/
theorem readsBack_iff (h : Drawable g vertexLabel edgeLabel) :
    ReadsBack g vertexLabel edgeLabel ↔
      ∀ v, g.IsEnd v → ∀ s, vertexLabel v = .ok s → Legible s := by
  obtain ⟨rows, hedges, hrows⟩ := h.exists_rows
  have hdot := dot_eq_ok hedges fun r hr => (hrows r hr).1
  have hread := readDot_rowsText fun r hr => (hrows r hr).2.line_not_mem
  have hmem : ∀ e, e ∈ rows.map Row.edge ↔ e ∈ g.edges := by
    simp only [hedges, Digraph.mem_sortedEdges, implies_true]
  constructor
  · rintro ⟨text, rows', hdot', hread', -⟩ v ⟨e, he, hv⟩ s hs
    cases hdot.symm.trans hdot'
    rw [hread] at hread'
    obtain ⟨r, hr, rfl⟩ := List.mem_map.1 ((hmem e).2 he)
    obtain ⟨hlabels, hdrawn⟩ := hrows r hr
    -- a torn label in the row would leave nothing to be read
    have hintact : ¬ (Torn r.sourceLabel ∨ Torn r.targetLabel) := by
      intro htorn
      rw [readRows_lines_eq_none hr (hdrawn.readRow_eq_none htorn)] at hread'
      cases hread'
    rw [not_or] at hintact
    rcases hv with rfl | rfl
    · cases hs.symm.trans hlabels.source
      exact hdrawn.sourceLabel.resolve_right hintact.1
    · cases hs.symm.trans hlabels.target
      exact hdrawn.targetLabel.resolve_right hintact.2
  · intro hlegible
    refine ⟨_, rows, hdot, ?_, ?_, hmem, fun r hr => (hrows r hr).1⟩
    · rw [hread]
      refine readRows_lines fun r hr => ?_
      obtain ⟨hlabels, hdrawn⟩ := hrows r hr
      have he := (hmem r.edge).1 (List.mem_map_of_mem hr)
      exact hdrawn.readRow_eq_some (hlegible _ ⟨_, he, .inl rfl⟩ _ hlabels.source)
        (hlegible _ ⟨_, he, .inr rfl⟩ _ hlabels.target)
    · rw [hedges]
      exact Digraph.pairwise_sortedEdges h.nodup

end Drawable

end LetLang.Drawing
