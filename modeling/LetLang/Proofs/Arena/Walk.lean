import LetLang.Proofs.Arena.History
import Mathlib

/-!
# The walk of preorder

Preorder works off a queue that begins with the root: the first node is visited, and its children go
to the front, so that the last one of them comes next. In an arena that calls have built, this walk
goes through the live slots that no dead slot cuts off from the root. All that lies below a node
follows it at once, and of two children of one node the later one comes first.
-/

namespace LetLang.Arena

variable {α : Type} {a : Arena α} {n i j : Nat} {s t : Slot α}

/-- Working off the queue, the first node first, visits these nodes with their values. -/
inductive Visits (a : Arena α) : (queue : List Nat) → (visited : List (Nat × α)) → Prop
  | done : Visits a [] []
  | next {n : Nat} {s : Slot α} {queue : List Nat} {visited : List (Nat × α)} :
      a.slots[n]? = some s → Visits a ((a.children n).reverse ++ queue) visited →
      Visits a (n :: queue) ((n, s.value) :: visited)

theorem Visits.unique {queue : List Nat} {visited visited' : List (Nat × α)}
    (h : a.Visits queue visited) (h' : a.Visits queue visited') : visited = visited' := by
  induction h generalizing visited' with
  | done =>
    cases h'
    rfl
  | next hs _ ih =>
    cases h' with
    | next hs' h' =>
      cases hs.symm.trans hs'
      rw [ih h']

/-- The queue is worked off after as many visits as the walks from its nodes take. -/
theorem visits_flatMap {queue : List Nat} (hqueue : ∀ n ∈ queue, n < a.size) :
    a.Visits queue ((queue.flatMap a.preorderFrom).filterMap fun n =>
      a.slots[n]?.map fun s => (n, s.value)) := by
  generalize hlength : (queue.flatMap a.preorderFrom).length = length
  induction length generalizing queue with
  | zero =>
    cases queue with
    | nil => exact .done
    | cons n queue => simp [preorderFrom_eq a n] at hlength
  | succ length ih =>
    cases queue with
    | nil => simp at hlength
    | cons n queue =>
      obtain ⟨hn, hrest⟩ := List.forall_mem_cons.1 hqueue
      have hchildren : ∀ m ∈ (a.children n).reverse ++ queue, m < a.size := by
        intro m hm
        rcases List.mem_append.1 hm with hm | hm
        · exact (mem_children (List.mem_reverse.1 hm)).2
        · exact hrest m hm
      have hwalk : (n :: queue).flatMap a.preorderFrom =
          n :: ((a.children n).reverse ++ queue).flatMap a.preorderFrom := by
        rw [List.flatMap_cons, preorderFrom_eq, List.cons_append, List.flatMap_append]
      rw [hwalk, List.length_cons, Nat.succ_inj] at hlength
      have hs : a.slots[n]? = some a.slots[n] := Array.getElem?_eq_getElem hn
      rw [hwalk, List.filterMap_cons, hs]
      exact .next hs (ih hchildren hlength)

/-- The slot was given out, and all slots on the way from it up to the root are live, itself
included. -/
def Rooted (a : Arena α) (i : Nat) : Prop :=
  i < a.size ∧ ∀ j, a.Below j i → ∃ s, a.slots[j]? = some s ∧ s.live = true

theorem Rooted.above (h : a.Rooted j) (hi : a.Below i j) : a.Rooted i := by
  refine ⟨?_, fun k hk => h.2 k (hk.trans hi)⟩
  obtain ⟨s, hs, -⟩ := h.2 i hi
  exact (Array.getElem?_eq_some_iff.1 hs).1

theorem Rooted.hangsAlive (ha : a.Ordered) (hi : a.Rooted i) (h : a.Below n i) :
    a.HangsAlive n i := by
  induction h with
  | self hs =>
    obtain ⟨s, hs, hlive⟩ := hi.2 n (.self hs)
    exact .self hs hlive
  | @child i j s hbelow hs hparent ih =>
    subst hparent
    obtain ⟨t, ht⟩ := ha.exists_parent hs
    have hup := ih (hi.above ((Below.self ht).child hs rfl))
    obtain ⟨u, hu, hlive⟩ := hi.2 j (.self hs)
    cases hs.symm.trans hu
    rcases Nat.eq_zero_or_pos j with rfl | hpos
    · rwa [ha.root s hs] at hup
    · exact (hangsAlive_iff_of_live ha hs hlive).2 (.inr ⟨hpos, hup⟩)

/-- The root alone is its own parent, so the children of a node are all other live slots that have
it as their parent. -/
theorem isChild_iff_parent (ha : a.Ordered) :
    a.isChild n i = true ↔ ∃ s, a.slots[i]? = some s ∧ s.live = true ∧ s.parent = n ∧ i ≠ n := by
  rw [isChild_eq_true_iff]
  constructor
  · rintro ⟨s, hs, hlive, hparent, hlt⟩
    exact ⟨s, hs, hlive, Int.ofNat.inj hparent, by omega⟩
  · rintro ⟨s, hs, hlive, rfl, hne⟩
    have hle := ha.parent_le hs
    exact ⟨s, hs, hlive, rfl, by omega⟩

/-- All parents lead to the root. -/
theorem below_root (ha : a.Ordered) (hs : a.slots[i]? = some s) : a.Below 0 i := by
  induction i using Nat.strongRecOn generalizing s with
  | _ i ih =>
    rcases Nat.eq_zero_or_pos i with rfl | hpos
    · exact .self hs
    · obtain ⟨t, ht⟩ := ha.exists_parent hs
      exact (ih s.parent (ha.parent_lt i s hpos hs) ht).child hs rfl

theorem rooted_iff_hangsAlive (ha : a.Ordered) : a.Rooted i ↔ a.HangsAlive 0 i := by
  constructor
  · intro hi
    exact hi.hangsAlive ha (below_root ha (Array.getElem?_eq_getElem hi.1))
  · intro hi
    refine ⟨?_, fun j hj => ?_⟩
    · obtain ⟨s, hs, -⟩ := hi.live
      exact (Array.getElem?_eq_some_iff.1 hs).1
    · induction hi generalizing j with
      | self hs hlive =>
        obtain rfl := Nat.le_zero.1 (hj.le ha)
        exact ⟨_, hs, hlive⟩
      | child _ hchild ih =>
        obtain ⟨s, hs, hlive, hparent, -⟩ := isChild_eq_true_iff.1 hchild
        cases hj with
        | self => exact ⟨s, hs, hlive⟩
        | child hj ht htparent =>
          cases hs.symm.trans ht
          obtain rfl := Int.ofNat.inj (hparent.symm.trans (congrArg Nat.cast htparent))
          exact ih _ hj

theorem infix_preorderFrom (a : Arena α) : ∀ n : Nat, i ∈ a.preorderFrom n →
    a.preorderFrom i <:+: a.preorderFrom n := by
  refine inductionOnChildren a fun n ih hi => ?_
  rcases mem_preorderFrom_iff_cons.1 hi with rfl | ⟨c, hchild, hi⟩
  · exact List.infix_rfl
  · have hc : c ∈ (a.children n).reverse := List.mem_reverse.2 (mem_children_iff.2 hchild)
    rw [preorderFrom_eq a n]
    exact (ih c hchild hi).trans (List.infix_cons (List.infix_flatMap_of_mem hc _))

/-- What lies below a node follows it at once. -/
theorem exists_of_preorderFrom_eq {xs ys : List Nat} (h : a.preorderFrom 0 = xs ++ n :: ys) :
    ∃ ds zs, ys = ds ++ zs ∧ a.preorderFrom n = n :: ds := by
  have hn : n ∈ a.preorderFrom 0 := h ▸ List.mem_append_right xs List.mem_cons_self
  obtain ⟨us, vs, hsplit⟩ := infix_preorderFrom a 0 hn
  rw [preorderFrom_eq a n] at hsplit ⊢
  refine ⟨_, vs, ?_, rfl⟩
  rw [List.append_assoc, List.cons_append, h] at hsplit
  have hnodup := a.nodup_preorderFrom 0
  rw [h, List.nodup_middle, List.nodup_cons, List.mem_append, not_or] at hnodup
  have hnodup' := a.nodup_preorderFrom 0
  rw [h, ← hsplit, List.nodup_middle, List.nodup_cons, List.mem_append, not_or] at hnodup'
  exact ((List.append_cons_inj_of_notMem hnodup'.1.1 hnodup'.1.2).1 hsplit).2.2.symm

/-- Below a node the parent of a slot is found as well, unless the slot is the node. -/
theorem HangsAlive.parent {c p : Nat} (h : a.HangsAlive c i) (hne : i ≠ c)
    (hp : a.isChild p i = true) : a.HangsAlive c p := by
  cases h with
  | self => exact absurd rfl hne
  | child hk hchild =>
    obtain rfl := isChild_unique hchild hp
    exact hk

/-- Of two children of one node the later one is visited first. -/
theorem pairwise_preorderFrom (a : Arena α) : ∀ n : Nat, (a.preorderFrom n).Pairwise fun i j =>
    ∀ p : Nat, a.isChild p i = true → a.isChild p j = true → j < i := by
  refine inductionOnChildren a fun n ih => ?_
  have hchildren : ∀ c ∈ (a.children n).reverse, a.isChild n c = true := fun c hc =>
    mem_children_iff.1 (List.mem_reverse.1 hc)
  have hdecreasing : (a.children n).reverse.Pairwise fun c d => d < c :=
    List.pairwise_reverse.2 (a.pairwise_children n)
  -- A child of something else than `n` that hangs from a child of `n` has its parent there, too.
  have hparent : ∀ {c i p : Nat}, a.isChild n c = true → i ∈ a.preorderFrom c →
      a.isChild p i = true → (i = c ∧ p = n) ∨ (n < p ∧ a.HangsAlive c p) := by
    intro c i p hc hi hp
    by_cases heq : i = c
    · subst heq
      exact .inl ⟨rfl, isChild_unique hp hc⟩
    · have hup := (hangsAlive_of_mem_preorderFrom hc hi).parent heq hp
      have hlt := (mem_children (mem_children_iff.2 hc)).1
      exact .inr ⟨by have := hup.le; omega, hup⟩
  rw [preorderFrom_eq, List.pairwise_cons, List.pairwise_flatMap]
  refine ⟨fun j hj p hn hpj => ?_, fun c hc => ih c (hchildren c hc), ?_⟩
  · obtain ⟨c, hc, hj⟩ := List.mem_flatMap.1 hj
    have hlt := (mem_children (mem_children_iff.2 hn)).1
    rcases hparent (hchildren c hc) hj hpj with ⟨-, rfl⟩ | ⟨hlt', -⟩ <;> omega
  · refine hdecreasing.imp_of_mem fun {c d} hc hd hlt i hi j hj p hpi hpj => ?_
    have hci := hparent (hchildren c hc) hi hpi
    have hdj := hparent (hchildren d hd) hj hpj
    rcases hci with ⟨rfl, rfl⟩ | ⟨hpn, hcp⟩ <;> rcases hdj with ⟨rfl, hpn'⟩ | ⟨hpn', hdp⟩
    · exact hlt
    · omega
    · omega
    · have heq := eq_of_hangsAlive_children (hchildren c hc) (hchildren d hd) hcp hdp
      omega

/-- The numbers are those of a depth-first walk of the slots that are live up to the root, with the
last child first. -/
structure IsWalk (a : Arena α) (ids : List Nat) : Prop where
  nodup : ids.Nodup
  mem_iff : ∀ i, i ∈ ids ↔ a.Rooted i
  parent_before : ∀ xs i ys s, ids = xs ++ i :: ys → 0 < i → a.slots[i]? = some s → s.parent ∈ xs
  below_next : ∀ xs n ys, ids = xs ++ n :: ys →
    ∃ ds zs, ys = ds ++ zs ∧ ∀ i, i ∈ ds ↔ i ∈ ids ∧ i ≠ n ∧ a.Below n i
  siblings : ids.Pairwise fun i j => ∀ s t, 0 < i → 0 < j → a.slots[i]? = some s →
    a.slots[j]? = some t → s.parent = t.parent → j < i

theorem isWalk_preorderFrom (ha : a.Ordered) (hs : a.slots[0]? = some s) (hlive : s.live = true) :
    a.IsWalk (a.preorderFrom 0) where
  nodup := a.nodup_preorderFrom 0
  mem_iff i := (mem_preorderFrom_iff hs hlive).trans (rooted_iff_hangsAlive ha).symm
  parent_before xs i ys t h hpos ht := by
    rcases parent_first_of_preorderFrom a 0 h with ⟨rfl, -⟩ | ⟨p, hp, hchild⟩
    · exact absurd hpos (Nat.lt_irrefl 0)
    · obtain ⟨u, hu, -, hparent, -⟩ := isChild_eq_true_iff.1 hchild
      cases ht.symm.trans hu
      rwa [Int.ofNat.inj hparent]
  below_next xs n ys h := by
    have hn : n ∈ a.preorderFrom 0 := h ▸ List.mem_append_right xs List.mem_cons_self
    have hhangs := (mem_preorderFrom_iff hs hlive).1 hn
    obtain ⟨t, ht, htlive⟩ := hhangs.live
    obtain ⟨ds, zs, rfl, hds⟩ := exists_of_preorderFrom_eq h
    have hnodup := a.nodup_preorderFrom n
    rw [hds, List.nodup_cons] at hnodup
    refine ⟨ds, zs, rfl, fun i => ?_⟩
    have hmem : i ∈ n :: ds ↔ a.HangsAlive n i := hds ▸ mem_preorderFrom_iff ht htlive
    rw [mem_preorderFrom_iff hs hlive]
    constructor
    · intro hi
      have hni := hmem.1 (List.mem_cons_of_mem n hi)
      refine ⟨hhangs.trans hni, ?_, below_of_hangsAlive hni⟩
      rintro rfl
      exact hnodup.1 hi
    · rintro ⟨hi, hne, hbelow⟩
      have hni := ((rooted_iff_hangsAlive ha).2 hi).hangsAlive ha hbelow
      exact (List.mem_cons.1 (hmem.2 hni)).resolve_left hne
  siblings := by
    refine (a.pairwise_preorderFrom 0).imp_of_mem fun {i j} hi hj hsiblings => ?_
    intro t u hipos hjpos ht hu hparent
    have hchild : ∀ {k : Nat} {v : Slot α}, k ∈ a.preorderFrom 0 → 0 < k →
        a.slots[k]? = some v → a.isChild v.parent k = true := by
      intro k v hk hpos hv
      obtain ⟨w, hw, hwlive⟩ := ((mem_preorderFrom_iff hs hlive).1 hk).live
      cases hv.symm.trans hw
      have hlt := ha.parent_lt k v hpos hv
      exact (isChild_iff_parent ha).2 ⟨v, hv, hwlive, rfl, Nat.ne_of_gt hlt⟩
    exact hsiblings t.parent (hchild hi hipos ht) (hparent ▸ hchild hj hjpos hu)

/-- Nothing is live up to a root that is dead or missing. -/
theorem isWalk_nil (ha : a.Ordered) (hroot : ∀ s, a.slots[0]? = some s → s.live = false) :
    a.IsWalk [] where
  nodup := List.nodup_nil
  mem_iff i := by
    refine ⟨fun h => absurd h List.not_mem_nil, fun h => ?_⟩
    obtain ⟨s, hs, hlive⟩ := ((rooted_iff_hangsAlive ha).1 h).live_top
    exact absurd (hlive.symm.trans (hroot s hs)) Bool.noConfusion
  parent_before := by simp
  below_next := by simp
  siblings := .nil

theorem preorder_eq_nil (hroot : ∀ s, a.slots[0]? = some s → s.live = false) :
    a.preorder = [] := by
  unfold preorder
  split
  · next s hs => rw [hroot s hs, if_neg Bool.false_ne_true]
  · rfl

/-- In an arena that calls have built, preorder is a depth-first walk of the slots that are live up
to the root, with the last child first, and gives the value that each slot holds. Working off the
queue that begins with a live root ends, and visits just that. Without a live root there is nothing
to visit. -/
theorem preorder_walks_live_tree (h : a.Reachable) :
    a.IsWalk (a.preorder.map Prod.fst) ∧
      (∀ i v, (i, v) ∈ a.preorder ↔ a.Rooted i ∧ ∃ s, a.slots[i]? = some s ∧ s.value = v) ∧
      (∀ s, a.slots[0]? = some s → s.live = true →
        ∀ visited, a.Visits [0] visited ↔ visited = a.preorder) ∧
      ((∀ s, a.slots[0]? = some s → s.live = false) → a.preorder = []) := by
  have ha := h.ordered
  refine ⟨?_, fun i v => ?_, fun s hs hlive visited => ?_, preorder_eq_nil⟩
  · by_cases hroot : ∃ s, a.slots[0]? = some s ∧ s.live = true
    · obtain ⟨s, hs, hlive⟩ := hroot
      rw [map_fst_preorder hs hlive]
      exact isWalk_preorderFrom ha hs hlive
    · have hdead : ∀ s, a.slots[0]? = some s → s.live = false := fun s hs =>
        Bool.eq_false_iff.2 fun hlive => hroot ⟨s, hs, hlive⟩
      rw [preorder_eq_nil hdead]
      exact isWalk_nil ha hdead
  · rw [mem_preorder_iff, rooted_iff_hangsAlive ha]
    constructor
    · rintro ⟨_, s, hi, hs, ⟨⟩⟩
      exact ⟨hi, s, hs, rfl⟩
    · rintro ⟨hi, s, hs, rfl⟩
      exact ⟨i, s, hi, hs, rfl⟩
  · have hvisits : a.Visits [0] a.preorder := by
      obtain ⟨hlt, -⟩ := Array.getElem?_eq_some_iff.1 hs
      have hqueue : ∀ n ∈ [0], n < a.size := List.forall_mem_singleton.2 hlt
      have hwalk := visits_flatMap hqueue
      rw [List.flatMap_singleton] at hwalk
      unfold preorder
      rw [hs]
      simpa only [hlive, if_true] using hwalk
    constructor
    · exact fun hvisited => hvisited.unique hvisits
    · rintro rfl
      exact hvisits

/-- A live node below a deleted one is not visited, and of the children of the root the second one
comes first. -/
theorem walk_passes_over_orphan :
    ∃ a : Arena String, a.Reachable ∧ a.Orphan 5 ∧
      a.preorder = [(0, "r"), (2, "b"), (1, "a"), (3, "c")] ∧ a.IsWalk [0, 2, 1, 3] ∧
      a.Visits [0] [(0, "r"), (2, "b"), (1, "a"), (3, "c")] := by
  let a : Arena String := ⟨#[⟨"r", true, 0⟩, ⟨"a", true, 0⟩, ⟨"b", true, 0⟩, ⟨"c", true, 1⟩,
    ⟨"d", false, 2⟩, ⟨"e", true, 4⟩]⟩
  have hcalls : [.add "a" 0, .add "b" 0, .add "c" 1, .add "d" 2, .delete 4, .add "e" 4].foldl apply
      (ofRoot "r") = a := by cbv
  have ha : a.Reachable := hcalls ▸ (Reachable.ofRoot "r").foldl _
  have hpreorder : a.preorder = [(0, "r"), (2, "b"), (1, "a"), (3, "c")] := by cbv
  obtain ⟨hwalk, -, hvisits, -⟩ := preorder_walks_live_tree ha
  rw [hpreorder] at hwalk
  exact ⟨a, ha, ⟨⟨"e", true, 4⟩, ⟨"d", false, 2⟩, rfl, rfl, rfl, rfl⟩, hpreorder, hwalk,
    (hvisits ⟨"r", true, 0⟩ rfl rfl _).2 hpreorder.symm⟩

end LetLang.Arena
