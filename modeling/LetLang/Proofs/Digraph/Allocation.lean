import LetLang.Proofs.Digraph
import Mathlib.Data.List.Induction

/-!
# Vertices that a graph hands out

The numbers that a graph hands out only go up, and they are above all numbers that were put in. The
ends of edges are not heeded: an edge can bring a number along before it is handed out, and the
number is not new then when its turn comes.
-/

namespace LetLang.Digraph

inductive Edit
  | newVertex
  | addVertex (v : Int)
  | addEdge (a b : Int)
  | deleteVertex (v : Int)
  deriving Repr, DecidableEq

def apply (g : Digraph) : Edit → Digraph
  | .newVertex => g.newVertex.2
  | .addVertex v => g.addVertex v
  | .addEdge a b => g.addEdge a b
  | .deleteVertex v => g.deleteVertex v

def after (calls : List Edit) : Digraph := calls.foldl apply .empty

/-- The numbers that calls hand out, in order. -/
def handedOut (g : Digraph) : List Edit → List Int
  | [] => []
  | .newVertex :: calls => g.newVertex.1 :: handedOut g.newVertex.2 calls
  | call :: calls => handedOut (g.apply call) calls

/-- The call puts in an edge that ends at `v`. -/
def Edit.LinksAt (v : Int) (call : Edit) : Prop :=
  ∃ a b, call = .addEdge a b ∧ (v = a ∨ v = b)

/-- The last calls are one that makes something and some that do not undo it. -/
def MadeSince (makes undoes : Edit → Prop) (calls : List Edit) : Prop :=
  ∃ before call rest, calls = before ++ call :: rest ∧ makes call ∧ ∀ c ∈ rest, ¬ undoes c

/-- The number that is handed out after some calls is new: the graph does not have it, none of the
calls handed it out, and it becomes one more vertex, at which no edge ends. -/
structure HandsOutNew (calls : List Edit) : Prop where
  missing : (after calls).newVertex.1 ∉ (after calls).vertices
  unused : (after calls).newVertex.1 ∉ handedOut .empty calls
  added : (after calls).newVertex.2.vertices =
    (after calls).vertices ++ [(after calls).newVertex.1]
  bare : ¬ (after calls).newVertex.2.IsEnd (after calls).newVertex.1

variable {g : Digraph} {v a b : Int} {call : Edit} {calls : List Edit}

theorem after_concat (calls : List Edit) (call : Edit) :
    after (calls ++ [call]) = (after calls).apply call := by
  rw [after, after, List.foldl_append, List.foldl_cons, List.foldl_nil]

theorem mem_vertices_deleteVertex {u : Int} :
    v ∈ (g.deleteVertex u).vertices ↔ v ∈ g.vertices ∧ v ≠ u := by
  simp [deleteVertex]

theorem mem_edges_deleteVertex {u : Int} :
    (a, b) ∈ (g.deleteVertex u).edges ↔ (a, b) ∈ g.edges ∧ a ≠ u ∧ b ≠ u := by
  simp [deleteVertex]

theorem next_le_apply (g : Digraph) (call : Edit) : g.next ≤ (g.apply call).next := by
  cases call with
  | newVertex => simp only [apply, next_newVertex]; omega
  | addVertex v => simp only [apply, addVertex]; split <;> omega
  | addEdge a b => simp only [apply, next_addEdge]; omega
  | deleteVertex v => exact Int.le_refl _

/-- A number that is not reached after a call comes in by an edge and goes out by being deleted. -/
theorem mem_vertices_apply (h : (g.apply call).next ≤ v) :
    v ∈ (g.apply call).vertices ↔
      call.LinksAt v ∨ v ∈ g.vertices ∧ call ≠ .deleteVertex v := by
  cases call with
  | newVertex =>
    have hne : v ≠ g.next := by simp only [apply, next_newVertex] at h; omega
    simp [apply, newVertex, mem_vertices_ensure, Edit.LinksAt, hne]
  | addVertex u =>
    have hne : v ≠ u := by simp only [apply, addVertex] at h; split at h <;> omega
    simp [apply, mem_vertices_addVertex, Edit.LinksAt, hne]
  | addEdge a b => simp [apply, mem_vertices_addEdge, Edit.LinksAt, or_comm]
  | deleteVertex u => simp [apply, mem_vertices_deleteVertex, Edit.LinksAt, eq_comm]

theorem mem_edges_apply :
    (a, b) ∈ (g.apply call).edges ↔
      call = .addEdge a b ∨
        (a, b) ∈ g.edges ∧ ¬ (call = .deleteVertex a ∨ call = .deleteVertex b) := by
  cases call with
  | newVertex => simp [apply]
  | addVertex u => simp [apply]
  | addEdge c d => simp [apply, mem_edges_addEdge, or_comm, eq_comm]
  | deleteVertex u => simp [apply, mem_edges_deleteVertex, eq_comm]

theorem madeSince_concat {makes undoes : Edit → Prop} :
    MadeSince makes undoes (calls ++ [call]) ↔
      makes call ∨ MadeSince makes undoes calls ∧ ¬ undoes call := by
  constructor
  · rintro ⟨before, made, rest, heq, hmade, hrest⟩
    rcases List.eq_nil_or_concat rest with rfl | ⟨rest, last, rfl⟩
    · obtain ⟨-, hlast⟩ := List.append_inj' heq rfl
      obtain rfl : call = made := by simpa using hlast
      exact .inl hmade
    · rw [List.concat_eq_append, ← List.cons_append, ← List.append_assoc] at heq
      obtain ⟨hcalls, hlast⟩ := List.append_inj' heq rfl
      obtain rfl : call = last := by simpa using hlast
      refine .inr ⟨⟨before, made, rest, hcalls, hmade, fun c hc => ?_⟩, ?_⟩
      · exact hrest c (by simp [hc])
      · exact hrest call (by simp)
  · rintro (hmade | ⟨⟨before, made, rest, rfl, hmade, hrest⟩, hkept⟩)
    · exact ⟨calls, call, [], rfl, hmade, by simp⟩
    · refine ⟨before, made, rest ++ [call], by simp, hmade, fun c hc => ?_⟩
      rcases List.mem_append.1 hc with hc | hc
      · exact hrest c hc
      · obtain rfl := List.mem_singleton.1 hc
        exact hkept

theorem not_madeSince_nil {makes undoes : Edit → Prop} : ¬ MadeSince makes undoes [] := by
  rintro ⟨before, call, rest, heq, -⟩
  simp at heq

/-- A number that is not reached yet is in the graph if an edge brought it along and it was not
deleted since. -/
theorem mem_vertices_after_iff (h : (after calls).next ≤ v) :
    v ∈ (after calls).vertices ↔ MadeSince (Edit.LinksAt v) (· = .deleteVertex v) calls := by
  -- From the last call: a number that is not reached now was not reached before it either.
  induction calls using List.reverseRecOn with
  | nil => simp [after, empty, not_madeSince_nil]
  | append_singleton calls call ih =>
    rw [after_concat] at h ⊢
    have hbefore := next_le_apply (after calls) call
    rw [mem_vertices_apply h, madeSince_concat, ih (by omega)]

/-- The edges of the graph are those that were put in and lost no end since. -/
theorem mem_edges_after_iff :
    (a, b) ∈ (after calls).edges ↔
      MadeSince (· = .addEdge a b) (fun c => c = .deleteVertex a ∨ c = .deleteVertex b) calls := by
  induction calls using List.reverseRecOn with
  | nil => simp [after, empty, not_madeSince_nil]
  | append_singleton calls call ih =>
    rw [after_concat, mem_edges_apply, madeSince_concat, ih]

theorem next_le_foldl (g : Digraph) (calls : List Edit) : g.next ≤ (calls.foldl apply g).next := by
  induction calls generalizing g with
  | nil => exact Int.le_refl _
  | cons call calls ih =>
    have hfirst := next_le_apply g call
    have hrest := ih (g.apply call)
    rw [List.foldl_cons]
    omega

/-- What was handed out is below what will be. -/
theorem lt_next_of_mem_handedOut (h : v ∈ handedOut g calls) : v < (calls.foldl apply g).next := by
  induction calls generalizing g with
  | nil => cases h
  | cons call calls ih =>
    cases call with
    | newVertex =>
      rcases List.mem_cons.1 h with rfl | h
      · have hrest := next_le_foldl g.newVertex.2 calls
        rw [next_newVertex] at hrest
        change g.next < (calls.foldl apply g.newVertex.2).next
        omega
      · exact ih h
    | _ => exact ih h

/-- After any calls the number that is handed out next is none that was handed out before. It is new
if and only if no edge brought it along since it was last deleted; if one did, the graph gets no
further vertex. It carries edges if and only if one of its edges lost no end since. -/
theorem handsOutNew_iff (calls : List Edit) :
    let v := (after calls).newVertex.1
    v ∉ handedOut .empty calls ∧
      (HandsOutNew calls ↔ ¬ MadeSince (Edit.LinksAt v) (· = .deleteVertex v) calls) ∧
      (¬ HandsOutNew calls → (after calls).newVertex.2.vertices = (after calls).vertices) ∧
      ((after calls).newVertex.2.IsEnd v ↔ ∃ a b, (v = a ∨ v = b) ∧
        MadeSince (· = .addEdge a b) (fun c => c = .deleteVertex a ∨ c = .deleteVertex b)
          calls) := by
  intro v
  have hunused : v ∉ handedOut .empty calls := fun hv =>
    Int.lt_irrefl _ (lt_next_of_mem_handedOut hv)
  have hmem : v ∈ (after calls).vertices ↔
      MadeSince (Edit.LinksAt v) (· = .deleteVertex v) calls :=
    mem_vertices_after_iff (Int.le_refl _)
  have hend : (after calls).newVertex.2.IsEnd v ↔ ∃ a b, (v = a ∨ v = b) ∧
      MadeSince (· = .addEdge a b) (fun c => c = .deleteVertex a ∨ c = .deleteVertex b) calls := by
    simp only [IsEnd, edges_newVertex, Prod.exists, mem_edges_after_iff, and_comm]
  have hnew : HandsOutNew calls ↔ v ∉ (after calls).vertices := by
    refine ⟨HandsOutNew.missing, fun hmissing =>
      ⟨hmissing, hunused, vertices_newVertex hmissing, fun hbare => hmissing (hmem.2 ?_)⟩⟩
    obtain ⟨a, b, hv, before, _, rest, heq, rfl, hrest⟩ := hend.1 hbare
    refine ⟨before, .addEdge a b, rest, heq, ⟨a, b, rfl, hv⟩, fun c hc hdelete => hrest c hc ?_⟩
    rcases hv with hv | hv
    · exact .inl (hv ▸ hdelete)
    · exact .inr (hv ▸ hdelete)
  refine ⟨hunused, hnew.trans (not_congr hmem), fun hnot => ?_, hend⟩
  have hthere : (after calls).hasVertex (after calls).next = true :=
    hasVertex_iff.2 (not_not.1 (hnew.not.1 hnot))
  change ((after calls).ensure (after calls).next).vertices = _
  rw [ensure, if_pos hthere]

/-- The first number that a graph hands out is not new after an edge from it. -/
theorem edge_end_handed_out :
    (after [.addEdge 0 1]).newVertex.1 = 0 ∧ (after [.addEdge 0 1]).vertices = [0, 1] ∧
      (after [.addEdge 0 1]).newVertex.2.IsEnd 0 ∧ ¬ HandsOutNew [.addEdge 0 1] := by
  obtain ⟨-, hnew, -, hend⟩ := handsOutNew_iff [.addEdge 0 1]
  refine ⟨rfl, by decide, hend.2 ⟨0, 1, .inl rfl, [], _, [], rfl, rfl, by simp⟩, fun h => ?_⟩
  exact hnew.1 h ⟨[], _, [], rfl, ⟨0, 1, rfl, .inl rfl⟩, by simp⟩

end LetLang.Digraph
