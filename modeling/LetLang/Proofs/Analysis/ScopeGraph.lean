import LetLang.Analysis
import LetLang.Proofs.Arena.Preorder
import LetLang.Proofs.Digraph

/-!
# The scope graph

Scopes are given out in preorder. A node finds the scope of its parent there, since its parent came
before it, and so the scope graph of an arena with a file at its root is always made.
-/

namespace LetLang.Analysis

variable {a : Arena Node} {g g' : ScopeGraph} {x : Nat × Node} {nodes : List (Nat × Node)}

/-- One more node is given its scope: a new one for a file, a new one inside the scope of its parent
if it opens one, and else the scope of its parent. -/
inductive ScopeStep (a : Arena Node) (g : ScopeGraph) : Nat × Node → ScopeGraph → Prop
  | file {id : Nat} {functions : List Int} :
      ScopeStep a g (id, .file functions)
        ⟨g.graph.newVertex.2, g.scopes.insert id g.graph.next⟩
  | opens {id p : Nat} {node : Node} {around : Int} : opensScope node = true →
      a.parent id = .ok p → g.scopes.get? p = some around →
      ScopeStep a g (id, node)
        ⟨g.graph.newVertex.2.addEdge g.graph.next around, g.scopes.insert id g.graph.next⟩
  | stays {id p : Nat} {node : Node} {around : Int} : (∀ functions, node ≠ .file functions) →
      opensScope node = false → a.parent id = .ok p → g.scopes.get? p = some around →
      ScopeStep a g (id, node) ⟨g.graph, g.scopes.insert id around⟩

theorem assignScopes_of_step (h : ScopeStep a g x g') (nodes : List (Nat × Node)) :
    assignScopes a g (x :: nodes) = assignScopes a g' nodes := by
  cases h with
  | file => rfl
  | opens hopens hp haround =>
    rw [assignScopes, hp]
    · simp only [haround, hopens, if_true]
      rfl
    · rintro functions rfl
      cases hopens
  | stays hfile hopens hp haround =>
    rw [assignScopes, hp]
    · simp only [haround, hopens, Bool.false_eq_true, if_false]
    · exact hfile

/-- A node gets a scope if it is a file or the scope of its parent is known. -/
theorem exists_scopeStep (h : (∃ functions, x.2 = .file functions) ∨
    ∃ p around, a.parent x.1 = .ok p ∧ g.scopes.get? p = some around) :
    ∃ g', ScopeStep a g x g' := by
  obtain ⟨id, node⟩ := x
  by_cases hfile : ∃ functions, node = .file functions
  · obtain ⟨functions, rfl⟩ := hfile
    exact ⟨_, .file⟩
  · obtain ⟨p, around, hp, haround⟩ := h.resolve_left hfile
    cases hopens : opensScope node with
    | true => exact ⟨_, .opens hopens hp haround⟩
    | false => exact ⟨_, .stays (fun functions heq => hfile ⟨functions, heq⟩) hopens hp haround⟩

/-- A node that got its scope has one, and no other node lost its own. -/
theorem ScopeStep.get? (h : ScopeStep a g x g') {id : Nat}
    (hid : id = x.1 ∨ ∃ s, g.scopes.get? id = some s) : ∃ s, g'.scopes.get? id = some s := by
  have hinsert : ∀ (i : Nat) (s : Int), id = i ∨ (∃ s, g.scopes.get? id = some s) →
      ∃ s', (g.scopes.insert i s).get? id = some s' := by
    rintro i s (rfl | ⟨s', hs'⟩)
    · exact ⟨s, Table.get?_insert_self _ _ _⟩
    · rw [Table.get?_insert]
      split
      · exact ⟨s, rfl⟩
      · exact ⟨s', hs'⟩
  cases h <;> exact hinsert _ _ hid

/-- Scopes and the ends of edges are numbers that were given out, and no edge is kept twice. -/
structure Sound (g : ScopeGraph) : Prop where
  next : 0 ≤ g.graph.next
  scope : ∀ id s, g.scopes.get? id = some s → 0 ≤ s ∧ s < g.graph.next
  ends : ∀ v, g.graph.IsEnd v → 0 ≤ v ∧ v < g.graph.next
  nodup : g.graph.edges.Nodup

theorem Sound.insert {graph : Digraph} {id : Nat} {s : Int} (h : Sound ⟨graph, g.scopes⟩)
    (hs : 0 ≤ s ∧ s < graph.next) : Sound ⟨graph, g.scopes.insert id s⟩ := by
  refine ⟨h.next, fun i s' hs' => ?_, h.ends, h.nodup⟩
  dsimp only at hs'
  rw [Table.get?_insert] at hs'
  split at hs'
  · cases hs'
    exact hs
  · exact h.scope i s' hs'

theorem Sound.newVertex (h : Sound g) : Sound ⟨g.graph.newVertex.2, g.scopes⟩ := by
  have hwider : ∀ s, 0 ≤ s ∧ s < g.graph.next → 0 ≤ s ∧ s < g.graph.newVertex.2.next := by
    intro s hs
    rw [Digraph.next_newVertex]
    omega
  refine ⟨Int.le_add_one h.next, fun id s hs => hwider s (h.scope id s hs), ?_, ?_⟩
  · rintro v ⟨e, he, hv⟩
    rw [Digraph.edges_newVertex] at he
    exact hwider v (h.ends v ⟨e, he, hv⟩)
  · rw [Digraph.edges_newVertex]
    exact h.nodup

theorem Sound.addEdge {s t : Int} (h : Sound g) (hs : 0 ≤ s ∧ s < g.graph.next)
    (ht : 0 ≤ t ∧ t < g.graph.next) : Sound ⟨g.graph.addEdge s t, g.scopes⟩ := by
  refine ⟨?_, fun id s' hs' => ?_, fun v hv => ?_, Digraph.nodup_edges_addEdge h.nodup s t⟩
  · rw [Digraph.next_addEdge]
    exact h.next
  · rw [Digraph.next_addEdge]
    exact h.scope id s' hs'
  · rw [Digraph.next_addEdge]
    rcases Digraph.isEnd_addEdge.1 hv with hv | rfl | rfl
    · exact h.ends v hv
    · exact hs
    · exact ht

theorem ScopeStep.sound (h : ScopeStep a g x g') (hg : Sound g) : Sound g' := by
  have hnew := hg.newVertex
  have hnext : 0 ≤ g.graph.next ∧ g.graph.next < g.graph.newVertex.2.next :=
    ⟨hg.next, Int.lt_succ g.graph.next⟩
  cases h with
  | file => exact hnew.insert hnext
  | opens _ _ haround =>
    have hlinked := hnew.addEdge hnext (hnew.scope _ _ haround)
    exact hlinked.insert (by rwa [Digraph.next_addEdge])
  | stays _ _ _ haround => exact hg.insert (hg.scope _ _ haround)

/-- The nodes but files come after their parents, or the scopes of these are known. -/
def ParentsKnown (a : Arena Node) (g : ScopeGraph) (nodes : List (Nat × Node)) : Prop :=
  ∀ xs x ys, nodes = xs ++ x :: ys → (∃ functions, x.2 = .file functions) ∨
    ∃ p, a.parent x.1 = .ok p ∧ ((∃ y ∈ xs, y.1 = p) ∨ ∃ s, g.scopes.get? p = some s)

theorem ParentsKnown.step (h : ParentsKnown a g (x :: nodes)) (hstep : ScopeStep a g x g') :
    ParentsKnown a g' nodes := by
  intro xs y ys heq
  refine (h (x :: xs) y ys (by rw [heq]; rfl)).imp_right ?_
  rintro ⟨p, hp, ⟨z, hz, rfl⟩ | hknown⟩
  · rcases List.mem_cons.1 hz with rfl | hz
    · exact ⟨_, hp, .inr (hstep.get? (.inl rfl))⟩
    · exact ⟨_, hp, .inl ⟨z, hz, rfl⟩⟩
  · exact ⟨p, hp, .inr (hstep.get? (.inr hknown))⟩

/-- All nodes are given their scopes, and what each step keeps holds at the end. -/
theorem exists_assignScopes {motive : List (Nat × Node) → ScopeGraph → Prop}
    (hstep : ∀ x rest g g', motive (x :: rest) g → ScopeStep a g x g' → motive rest g')
    (h : ParentsKnown a g nodes) (hg : motive nodes g) :
    ∃ g', assignScopes a g nodes = .ok g' ∧ motive [] g' := by
  induction nodes generalizing g with
  | nil => exact ⟨g, rfl, hg⟩
  | cons x nodes ih =>
    have hfirst : (∃ functions, x.2 = .file functions) ∨
        ∃ p around, a.parent x.1 = .ok p ∧ g.scopes.get? p = some around := by
      refine (h [] x nodes rfl).imp_right ?_
      rintro ⟨p, hp, ⟨y, hy, -⟩ | ⟨s, hs⟩⟩
      · cases hy
      · exact ⟨p, s, hp, hs⟩
    obtain ⟨g₁, hg₁⟩ := exists_scopeStep hfirst
    rw [assignScopes_of_step hg₁]
    exact ih (h.step hg₁) (hstep x nodes g g₁ hg hg₁)

/-- Where the root is a file, preorder visits the other nodes after their parents. -/
theorem parentsKnown_preorder (hroot : ∀ s, a.slots[0]? = some s → ∃ fs, s.value = .file fs)
    (g : ScopeGraph) : ParentsKnown a g a.preorder := by
  intro xs x ys heq
  have hmem : x ∈ a.preorder := heq ▸ List.mem_append_right xs List.mem_cons_self
  obtain ⟨i, s, -, hs, rfl⟩ := Arena.mem_preorder_iff.1 hmem
  rcases Arena.parent_first_of_preorder heq with ⟨hzero, -⟩ | ⟨y, hy, hchild⟩
  · dsimp only at hzero
    exact .inl (hroot s (hzero ▸ hs))
  · obtain ⟨t, ht, -, hparent, -⟩ := Arena.isChild_eq_true_iff.1 hchild
    refine .inr ⟨y.1, ?_, .inl ⟨y, hy, rfl⟩⟩
    rw [Arena.parent, Arena.slot_of_slots ht]
    exact congrArg Except.ok (Int.ofNat.inj hparent)

theorem sound_empty : Sound ⟨.empty, ∅⟩ := by
  refine ⟨Int.le_refl 0, by simp, ?_, List.nodup_nil⟩
  rintro v ⟨e, he, -⟩
  cases he

/-- Where the root is a file, the scope graph is made. -/
theorem scopeGraph_eq_ok (hroot : ∀ s, a.slots[0]? = some s → ∃ fs, s.value = .file fs) :
    ∃ g, scopeGraph a = .ok g ∧ Sound g :=
  exists_assignScopes (motive := fun _ g => Sound g) (fun _ _ _ _ hg hstep => hstep.sound hg)
    (parentsKnown_preorder hroot _) sound_empty

end LetLang.Analysis
