import LetLang.Node
import LetLang.Proofs.Arena.Growth
import Mathlib.Data.List.Perm.Basic

/-!
# Arenas that are trees

An arena says twice what hangs below a node: by the parents that its slots keep, and by the numbers
that its nodes hold. In a tree both say the same, for all nodes but the root in the same order.
-/

namespace LetLang.Arena

section
variable {α : Type} {a b : Arena α} {v : α} {p : Int}

def childIds (a : Arena α) (n : Int) : List Int := (a.children n).map Nat.cast

theorem isChild_eq_true_iff {n : Int} {i : Nat} :
    a.isChild n i = true ↔ ∃ s, a.slots[i]? = some s ∧ s.live = true ∧ s.parent = n ∧ n < i := by
  unfold isChild
  cases a.slots[i]? <;> simp [and_assoc]

theorem isChild_unique {m n j : Nat} (h : a.isChild n j = true) (h' : a.isChild m j = true) :
    n = m := by
  obtain ⟨s, hs, -, hn, -⟩ := isChild_eq_true_iff.1 h
  obtain ⟨t, ht, -, hm, -⟩ := isChild_eq_true_iff.1 h'
  cases hs.symm.trans ht
  omega

theorem mem_children_iff {n : Int} {i : Nat} : i ∈ a.children n ↔ a.isChild n i = true := by
  simp only [children, List.mem_filter, List.mem_range, and_iff_right_iff_imp]
  intro h
  obtain ⟨s, hs, -⟩ := isChild_eq_true_iff.1 h
  exact (Array.getElem?_eq_some_iff.1 hs).1

theorem pairwise_children (a : Arena α) (n : Int) : (a.children n).Pairwise (· < ·) :=
  List.Pairwise.filter _ List.pairwise_lt_range

theorem pairwise_childIds (a : Arena α) (n : Int) : (a.childIds n).Pairwise (· < ·) :=
  (a.pairwise_children n).map _ fun i j hij => by omega

theorem mem_childIds_iff {n i : Int} :
    i ∈ a.childIds n ↔ ∃ (k : Nat) (s : Slot α), i = k ∧ a.slots[k]? = some s ∧ s.live = true ∧
      s.parent = n ∧ n < k := by
  simp only [childIds, children, List.mem_map, List.mem_filter, List.mem_range,
    isChild_eq_true_iff]
  constructor
  · rintro ⟨k, ⟨-, s, hs⟩, rfl⟩
    exact ⟨k, s, rfl, hs⟩
  · rintro ⟨k, s, rfl, hs, hrest⟩
    obtain ⟨hlt, -⟩ := Array.getElem?_eq_some_iff.1 hs
    exact ⟨k, ⟨hlt, s, hs, hrest⟩, rfl⟩

/-- A new node is the last child of its parent, and has no children itself. -/
theorem childIds_add (h : a.add v p = .ok b) (q : Int) :
    b.childIds q = a.childIds q ++ if q = p then [(a.size : Int)] else [] := by
  have hsize := size_add h
  obtain ⟨hp, hlt, hslots⟩ := slots_of_add h
  have hold : ∀ i ∈ List.range a.size, b.isChild q i = a.isChild q i := by
    intro i hi
    unfold isChild
    rw [hslots, Array.getElem?_push_lt (List.mem_range.1 hi), Array.getElem?_eq_getElem]
  have hnew : b.isChild q a.size = decide (q = p) := by
    rw [Bool.eq_iff_iff, isChild_eq_true_iff, decide_eq_true_iff, hslots]
    unfold size at *
    constructor
    · rintro ⟨s, hs, -, rfl, -⟩
      obtain rfl := Option.some.inj (Array.getElem?_push_size.symm.trans hs)
      exact Int.toNat_of_nonneg hp
    · rintro rfl
      exact ⟨_, Array.getElem?_push_size, rfl, Int.toNat_of_nonneg hp, hlt⟩
  unfold childIds children
  rw [hsize, List.range_succ, List.filter_append, List.filter_congr hold, List.filter_singleton,
    hnew, List.map_append]
  by_cases hq : q = p <;> simp [hq]

theorem isChild_of_setValue {n : Nat} (h : a.setValue n v = .ok b) (q : Int) (i : Nat) :
    b.isChild q i = a.isChild q i := by
  rw [Bool.eq_iff_iff, isChild_eq_true_iff, isChild_eq_true_iff]
  constructor
  · rintro ⟨t, ht, hlive, rfl, hlt⟩
    obtain ⟨s, hs, hsame, hparent⟩ := exists_slot_of_setValue h ht
    exact ⟨s, hs, hsame.trans hlive, by rw [hparent], hlt⟩
  · rintro ⟨s, hs, hlive, rfl, hlt⟩
    obtain ⟨t, ht, hsame, hparent⟩ := exists_slot_setValue h hs
    exact ⟨t, ht, hsame.trans hlive, by rw [hparent], hlt⟩

theorem mem_live_iff {n : Nat × α} :
    n ∈ a.live ↔ ∃ k s, a.slots[k]? = some s ∧ s.live = true ∧ n = (k, s.value) := by
  simp only [live, numbered, List.mem_filterMap, List.mem_map, List.mem_zipIdx_iff_getElem?,
    Prod.exists]
  constructor
  · rintro ⟨k, s, ⟨s', k', hs, heq⟩, hlive⟩
    cases heq
    split at hlive
    · next htrue =>
      cases hlive
      exact ⟨k, s, by simpa using hs, htrue, rfl⟩
    · cases hlive
  · rintro ⟨k, s, hs, hlive, rfl⟩
    exact ⟨k, s, ⟨s, k, by simpa using hs, rfl⟩, by simp [hlive]⟩

theorem childIds_of_size_le {n : Nat} (h : a.size ≤ n) : a.childIds n = [] := by
  refine List.eq_nil_iff_forall_not_mem.2 fun i hi => ?_
  obtain ⟨k, s, -, hs, -, -, hk⟩ := mem_childIds_iff.1 hi
  obtain ⟨hlt, -⟩ := Array.getElem?_eq_some_iff.1 hs
  unfold size at h
  omega

theorem childIds_setValue {n : Nat} (h : a.setValue n v = .ok b) (q : Int) :
    b.childIds q = a.childIds q := by
  unfold childIds children
  rw [size_setValue h, List.filter_congr fun i _ => isChild_of_setValue h q i]

end

variable {a b : Arena Node}

/-- The slot is live, its parent came before it, and its node refers to its children. -/
def Complete (a : Arena Node) (i : Nat) : Prop :=
  ∃ s, a.slots[i]? = some s ∧ s.live = true ∧ s.parent < i ∧ s.value.references = a.childIds i

theorem Complete.setValue {n i : Nat} {v : Node} (h : a.Complete i) (hne : i ≠ n)
    (hw : a.setValue n v = .ok b) : b.Complete i := by
  obtain ⟨s, hs, hlive, hparent, hrefs⟩ := h
  refine ⟨s, ?_, hlive, hparent, ?_⟩
  · rw [slots_of_setValue hw i hne]
    exact hs
  · rw [hrefs, childIds_setValue hw]

/-- The slots and the nodes tell the same tree. The root refers to its children in another order. -/
structure IsTree (a : Arena Node) : Prop where
  live : ∀ (i : Nat) (s : Slot Node), a.slots[i]? = some s → s.live = true
  parent_lt : ∀ (i : Nat) (s : Slot Node), 0 < i → a.slots[i]? = some s → s.parent < i
  references_eq : ∀ (i : Nat) (s : Slot Node), 0 < i → a.slots[i]? = some s →
    s.value.references = a.childIds i
  root : ∃ fs, a.slots[0]? = some ⟨.file fs, true, 0⟩ ∧ fs.Perm (a.childIds rootId)

theorem isTree_of_complete {fs : List Int} (hroot : a.slots[0]? = some ⟨.file fs, true, 0⟩)
    (hfs : fs.Perm (a.childIds rootId)) (h : ∀ i, 0 < i → i < a.size → a.Complete i) :
    a.IsTree := by
  have hslot : ∀ (i : Nat) (s : Slot Node), 0 < i → a.slots[i]? = some s →
      s.live = true ∧ s.parent < i ∧ s.value.references = a.childIds i := by
    intro i s hi hs
    obtain ⟨hlt, -⟩ := Array.getElem?_eq_some_iff.1 hs
    obtain ⟨s', hs', hcomplete⟩ := h i hi hlt
    cases hs'.symm.trans hs
    exact hcomplete
  refine ⟨fun i s hs => ?_, fun i s hi hs => (hslot i s hi hs).2.1,
    fun i s hi hs => (hslot i s hi hs).2.2, fs, hroot, hfs⟩
  rcases Nat.eq_zero_or_pos i with rfl | hi
  · cases hroot.symm.trans hs
    rfl
  · exact (hslot i s hi hs).1

namespace IsTree

variable {i j : Nat} {s s' : Slot Node}

theorem perm_references (h : a.IsTree) (hs : a.slots[i]? = some s) :
    s.value.references.Perm (a.childIds i) := by
  rcases Nat.eq_zero_or_pos i with rfl | hi
  · obtain ⟨fs, hroot, hperm⟩ := h.root
    cases hroot.symm.trans hs
    exact hperm
  · rw [h.references_eq i s hi hs]

theorem pairwise_references (h : a.IsTree) (hi : 0 < i) (hs : a.slots[i]? = some s) :
    s.value.references.Pairwise (· < ·) := by
  rw [h.references_eq i s hi hs]
  exact a.pairwise_childIds i

/-- A node refers to the live nodes that lie directly below it. -/
theorem mem_references_iff (h : a.IsTree) (hs : a.slots[i]? = some s) {r : Int} :
    r ∈ s.value.references ↔ ∃ k : Nat, r = k ∧ a.isChild i k = true := by
  rw [(h.perm_references hs).mem_iff, mem_childIds_iff]
  simp only [isChild_eq_true_iff, exists_and_left]

theorem placeholderId_not_mem (h : a.IsTree) (hs : a.slots[i]? = some s) :
    placeholderId ∉ s.value.references := by
  rw [h.mem_references_iff hs]
  rintro ⟨k, hk, -⟩
  unfold placeholderId at hk
  omega

/-- Every node but the root is referred to once, by its parent. -/
theorem count_references (h : a.IsTree) (hi : 0 < i) (hs : a.slots[i]? = some s)
    (hs' : a.slots[j]? = some s') :
    s'.value.references.count (i : Int) = if j = s.parent then 1 else 0 := by
  have hnodup : (a.childIds j).Nodup := (a.pairwise_childIds j).imp fun hlt => Int.ne_of_lt hlt
  have hmem : (i : Int) ∈ a.childIds j ↔ j = s.parent := by
    rw [mem_childIds_iff]
    constructor
    · rintro ⟨k, t, hk, ht, -, hparent, -⟩
      obtain rfl : i = k := by omega
      cases ht.symm.trans hs
      omega
    · rintro rfl
      have hlt := h.parent_lt i s hi hs
      exact ⟨i, s, rfl, hs, h.live i s hs, rfl, by omega⟩
  rw [(h.perm_references hs').count_eq, hnodup.count]
  simp only [hmem]

end IsTree

end LetLang.Arena
