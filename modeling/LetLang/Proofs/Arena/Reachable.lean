import LetLang.Proofs.Arena.Deletion

/-!
# Deletions in arenas that calls have built

Nodes may be added below a dead node, so a live slot can have a dead parent. A deletion does not go
down through the dead parent: it reaches all that lies below a node only if no such slot does.
-/

namespace LetLang.Arena

variable {α : Type} {a b : Arena α} {n i j : Nat} {s : Slot α}

/-- One call on an arena. -/
inductive Edit (α : Type)
  | setRoot (value : α)
  | add (value : α) (parent : Int)
  | setValue (n : Int) (value : α)
  | delete (n : Int)
  deriving Repr

/-- The arena after a call. A call that is refused leaves it as it was. -/
def apply (a : Arena α) : Edit α → Arena α
  | .setRoot value => a.setRoot value
  | .add value parent => (a.add value parent).toOption.getD a
  | .setValue n value => (a.setValue n value).toOption.getD a
  | .delete n => (a.delete n).toOption.getD a

/-- What calls can make of a new arena. -/
inductive Reachable : Arena α → Prop
  | empty : Reachable empty
  | ofRoot (value : α) : Reachable (ofRoot value)
  | apply {a : Arena α} (e : Edit α) : Reachable a → Reachable (a.apply e)

theorem Reachable.foldl (h : a.Reachable) (calls : List (Edit α)) :
    (calls.foldl Arena.apply a).Reachable := by
  induction calls generalizing a with
  | nil => exact h
  | cons e calls ih => exact ih (h.apply e)

/-- A parent came before its children, and the root is its own parent. -/
structure Ordered (a : Arena α) : Prop where
  root : ∀ s, a.slots[0]? = some s → s.parent = 0
  parent_lt : ∀ (i : Nat) (s : Slot α), 0 < i → a.slots[i]? = some s → s.parent < i

namespace Ordered

theorem parent_le (h : a.Ordered) (hs : a.slots[i]? = some s) : s.parent ≤ i := by
  rcases Nat.eq_zero_or_pos i with rfl | hi
  · exact Nat.le_of_eq (h.root s hs)
  · exact Nat.le_of_lt (h.parent_lt i s hi hs)

/-- Only the parents matter. -/
theorem of_parents (h : a.Ordered)
    (hparent : ∀ (i : Nat) (t : Slot α), b.slots[i]? = some t →
      ∃ s, a.slots[i]? = some s ∧ s.parent = t.parent) : b.Ordered where
  root t ht := by
    obtain ⟨s, hs, hst⟩ := hparent 0 t ht
    rw [← hst]
    exact h.root s hs
  parent_lt i t hi ht := by
    obtain ⟨s, hs, hst⟩ := hparent i t ht
    rw [← hst]
    exact h.parent_lt i s hi hs

theorem empty : (Arena.empty : Arena α).Ordered where
  root s hs := by simp [Arena.empty] at hs
  parent_lt i s _ hs := by simp [Arena.empty] at hs

theorem ofRoot (value : α) : (Arena.ofRoot value).Ordered where
  root s hs := by
    obtain rfl : (⟨value, true, 0⟩ : Slot α) = s := by simpa [Arena.ofRoot] using hs
    rfl
  parent_lt i s hi hs := by
    obtain ⟨hlt, -⟩ := Array.getElem?_eq_some_iff.1 hs
    simp only [Arena.ofRoot, List.size_toArray, List.length_singleton] at hlt
    omega

theorem setRoot (h : a.Ordered) (value : α) : (a.setRoot value).Ordered := by
  unfold Arena.setRoot
  split
  · exact .ofRoot value
  · next hne =>
    have hpos : 0 < a.slots.size := Array.size_pos_iff.2 (by simpa using hne)
    constructor
    · intro s hs
      rw [Array.getElem?_setIfInBounds_self_of_lt hpos] at hs
      cases hs
      rfl
    · intro i s hi hs
      rw [Array.getElem?_setIfInBounds_ne (by omega)] at hs
      exact h.parent_lt i s hi hs

theorem add {value : α} {p : Int} (h : a.Ordered) (hadd : a.add value p = .ok b) : b.Ordered := by
  obtain ⟨hp, hlt, hslots⟩ := slots_of_add hadd
  unfold size at hlt
  constructor
  · intro s hs
    rw [hslots, Array.getElem?_push_lt (by omega), ← Array.getElem?_eq_getElem] at hs
    exact h.root s hs
  · intro i s hi hs
    rw [hslots, Array.getElem?_push] at hs
    split at hs
    · next hi =>
      cases hs
      change p.toNat < i
      omega
    · exact h.parent_lt i s hi hs

theorem setValue {value : α} {m : Int} (h : a.Ordered) (hset : a.setValue m value = .ok b) :
    b.Ordered := by
  refine h.of_parents fun i t ht => ?_
  obtain ⟨s, hs, -, hparent⟩ := exists_slot_of_setValue hset ht
  exact ⟨s, hs, hparent⟩

theorem buries {dead : Nat → Prop} (h : a.Ordered) (hb : a.Buries b dead) : b.Ordered := by
  refine h.of_parents fun i t ht => ?_
  obtain ⟨s, hs, -, hparent, -⟩ := hb.exists_slot ht
  exact ⟨s, hs, hparent.symm⟩

theorem delete {m : Int} (h : a.Ordered) (hdelete : a.delete m = .ok b) : b.Ordered := by
  unfold Arena.delete at hdelete
  cases hs : a.slot m with
  | error e => simp [hs, Except.map] at hdelete
  | ok s =>
    simp only [hs, Except.map, Except.ok.injEq] at hdelete
    exact h.buries (hdelete ▸ buries_bury a [m.toNat])

theorem apply (h : a.Ordered) (e : Edit α) : (a.apply e).Ordered := by
  cases e with
  | setRoot value => exact h.setRoot value
  | add value parent =>
    change ((a.add value parent).toOption.getD a).Ordered
    cases hadd : a.add value parent with
    | error _ => exact h
    | ok b => exact h.add hadd
  | setValue m value =>
    change ((a.setValue m value).toOption.getD a).Ordered
    cases hset : a.setValue m value with
    | error _ => exact h
    | ok b => exact h.setValue hset
  | delete m =>
    change ((a.delete m).toOption.getD a).Ordered
    cases hdelete : a.delete m with
    | error _ => exact h
    | ok b => exact h.delete hdelete

end Ordered

theorem Reachable.ordered (h : a.Reachable) : a.Ordered := by
  induction h with
  | empty => exact .empty
  | ofRoot value => exact .ofRoot value
  | apply e _ ih => exact ih.apply e

theorem IsTree.ordered {a : Arena Node} (h : a.IsTree) : a.Ordered where
  root s hs := by
    obtain ⟨fs, hroot, -⟩ := h.root
    cases hroot.symm.trans hs
    rfl
  parent_lt := h.parent_lt

/-- The slot is the slot `n`, or its parents lead to it. -/
inductive Below (a : Arena α) (n : Nat) : Nat → Prop
  | self {s : Slot α} : a.slots[n]? = some s → Below a n n
  | child {i j : Nat} {s : Slot α} :
    Below a n i → a.slots[j]? = some s → s.parent = i → Below a n j

/-- A live slot with a dead parent. -/
def Orphan (a : Arena α) (i : Nat) : Prop :=
  ∃ s t, a.slots[i]? = some s ∧ s.live = true ∧ a.slots[s.parent]? = some t ∧ t.live = false

theorem Below.exists_slot (h : a.Below n i) : ∃ s, a.slots[i]? = some s := by
  cases h with
  | self hs => exact ⟨_, hs⟩
  | child _ hs _ => exact ⟨_, hs⟩

theorem Below.le (ha : a.Ordered) (h : a.Below n i) : n ≤ i := by
  induction h with
  | self => exact Nat.le_refl n
  | @child i j s _ hs hparent ih => exact Nat.le_trans ih (hparent ▸ ha.parent_le hs)

theorem Below.trans (h : a.Below n i) (h' : a.Below i j) : a.Below n j := by
  induction h' with
  | self => exact h
  | child _ hs hparent ih => exact ih.child hs hparent

theorem Below.of_isChild (h : a.Below n i) (hchild : a.isChild i j = true) : a.Below n j := by
  obtain ⟨s, hs, -, hparent, -⟩ := isChild_eq_true_iff.1 hchild
  exact h.child hs (by omega)

theorem below_of_hangsAlive (h : a.HangsAlive n i) : a.Below n i := by
  induction h with
  | self hs _ => exact .self hs
  | child _ hchild ih => exact ih.of_isChild hchild

theorem HangsAlive.not_orphan (h : a.HangsAlive n i) (hne : i ≠ n) : ¬ a.Orphan i := by
  rintro ⟨s, t, hs, -, ht, hdead⟩
  cases h with
  | self => exact hne rfl
  | child hi hchild =>
    obtain ⟨u, hu, hlive⟩ := hi.live
    obtain ⟨s', hs', -, hparent, -⟩ := isChild_eq_true_iff.1 hchild
    cases hs.symm.trans hs'
    obtain rfl := Int.ofNat.inj hparent
    cases hu.symm.trans ht
    exact Bool.false_ne_true (hdead.symm.trans hlive)

/-- What a node of a tree refers to comes later, and lies below what the node lies below. -/
theorem IsTree.exists_of_mem_references {a : Arena Node} (h : a.IsTree) {node : Node}
    (hi : a.node? i = some node) {r : Int} (hr : r ∈ node.references) :
    ∃ k : Nat, r = k ∧ i < k ∧ a.Below k k ∧ ∀ n, a.Below n i → a.Below n k := by
  obtain ⟨j, s, hj, hs, -, rfl⟩ := exists_slot_of_node? hi
  obtain rfl := Int.ofNat.inj hj
  obtain ⟨k, rfl, hchild⟩ := (h.mem_references_iff hs).1 hr
  obtain ⟨t, ht, -, hparent, hlt⟩ := isChild_eq_true_iff.1 hchild
  exact ⟨k, rfl, by omega, .self ht, fun n hn => hn.child ht (by omega)⟩

/-- Where no orphan lies between, a live slot below `n` hangs from it by live slots. -/
theorem Below.hangsAlive (ha : a.Ordered) (h : a.Below n i)
    (hno : ∀ j, a.Below n j → j ≠ n → ¬ a.Orphan j)
    (hs : a.slots[i]? = some s) (hlive : s.live = true) : a.HangsAlive n i := by
  induction h generalizing s with
  | self => exact .self hs hlive
  | @child i j t hi ht hparent ih =>
    obtain rfl : t = s := Option.some.inj (ht.symm.trans hs)
    by_cases hj : j = n
    · subst hj
      exact .self hs hlive
    · obtain ⟨u, hu⟩ := hi.exists_slot
      have hulive : u.live = true := by
        rw [← Bool.not_eq_false]
        intro hdead
        exact hno j (hi.child hs hparent) hj ⟨t, u, hs, hlive, hparent ▸ hu, hdead⟩
      have hlt : i < j := by
        have hnj : n ≤ j := (hi.child hs hparent).le ha
        exact hparent ▸ ha.parent_lt j t (by omega) hs
      exact (ih hu hulive).child (isChild_eq_true_iff.2 ⟨t, hs, hlive, by omega, by omega⟩)

/-- Deleting a node that was given out ends. It marks what hangs alive from the node as dead, the
node among it, and changes nothing else. That is all that lies below the node if and only if no
orphan does. -/
theorem delete_reaches_all_iff (ha : a.Reachable) (hn : n < a.size) :
    ∃ b, a.delete n = .ok b ∧ a.Buries b (a.HangsAlive n) ∧
      (∀ i, ¬ a.Below n i → b.slots[i]? = a.slots[i]?) ∧
      (∃ s, b.slots[n]? = some s ∧ s.live = false) ∧
      ((∀ i s, a.Below n i → b.slots[i]? = some s → s.live = false) ↔
        ∀ i, a.Below n i → i ≠ n → ¬ a.Orphan i) := by
  obtain ⟨b, hdelete, hb⟩ := exists_delete hn
  refine ⟨b, hdelete, hb, fun i hi => hb.slots_eq fun h => hi (below_of_hangsAlive h), ?_, ?_, ?_⟩
  · obtain ⟨s, hs⟩ : ∃ s, a.slots[n]? = some s := ⟨_, Array.getElem?_eq_getElem hn⟩
    obtain ⟨t, ht, -, -, hlive⟩ := hb.slot n s hs
    refine ⟨t, ht, Bool.eq_false_iff.2 fun h => ?_⟩
    obtain ⟨hslive, hnot⟩ := hlive.1 h
    exact hnot (.self hs hslive)
  · rintro hall i hi hne ⟨s, t, hs, hlive, ht⟩
    obtain ⟨u, hu, -, -, hulive⟩ := hb.slot i s hs
    have hdead : ¬ u.live = true := by simp [hall i u hi hu]
    have hhangs : a.HangsAlive n i := by
      by_contra hnot
      exact hdead (hulive.2 ⟨hlive, hnot⟩)
    exact hhangs.not_orphan hne ⟨s, t, hs, hlive, ht⟩
  · intro hno i u hi hu
    obtain ⟨s, hs⟩ := hi.exists_slot
    obtain ⟨u', hu', -, -, hulive⟩ := hb.slot i s hs
    cases hu'.symm.trans hu
    refine Bool.eq_false_iff.2 fun h => ?_
    obtain ⟨hlive, hnot⟩ := hulive.1 h
    exact hnot (hi.hangsAlive ha.ordered hno hs hlive)

/-- A node that was added below a dead one outlives the deletion of the root above both. -/
theorem orphan_survives :
    ∃ a b : Arena String, a.Reachable ∧
      a = (((ofRoot "r").apply (.add "a" 0)).apply (.delete 1)).apply (.add "b" 1) ∧
      a.delete 0 = .ok b ∧ a.Below 0 2 ∧ a.Orphan 2 ∧ b.slots[2]? = some ⟨"b", true, 1⟩ := by
  let a : Arena String := ⟨#[⟨"r", true, 0⟩, ⟨"a", false, 0⟩, ⟨"b", true, 1⟩]⟩
  have hadd : (ofRoot "r").apply (.add "a" 0) = ⟨#[⟨"r", true, 0⟩, ⟨"a", true, 0⟩]⟩ := by rfl
  have hkill : (⟨#[⟨"r", true, 0⟩, ⟨"a", true, 0⟩]⟩ : Arena String).apply (.delete 1) =
      ⟨#[⟨"r", true, 0⟩, ⟨"a", false, 0⟩]⟩ := by
    simp [apply, delete, slot, slot?, Except.map, Except.toOption, bury, kill, children, isChild,
      size, List.range_succ]
  have hcalls : a = (((ofRoot "r").apply (.add "a" 0)).apply (.delete 1)).apply (.add "b" 1) := by
    rw [hadd, hkill]
    rfl
  have ha : a.Reachable := hcalls ▸ (((Reachable.ofRoot "r").apply _).apply _).apply _
  obtain ⟨b, hdelete, hb, -, -, -⟩ := delete_reaches_all_iff ha (show 0 < a.size by decide)
  have hbelow : a.Below 0 2 :=
    .child (.child (.self (s := ⟨"r", true, 0⟩) rfl) (s := ⟨"a", false, 0⟩) rfl rfl)
      (s := ⟨"b", true, 1⟩) rfl rfl
  have horphan : a.Orphan 2 := ⟨⟨"b", true, 1⟩, ⟨"a", false, 0⟩, rfl, rfl, rfl, rfl⟩
  have hkept : b.slots[2]? = a.slots[2]? :=
    hb.slots_eq fun h => h.not_orphan (by decide) horphan
  exact ⟨a, b, ha, hcalls, hdelete, hbelow, horphan, hkept⟩

end LetLang.Arena
