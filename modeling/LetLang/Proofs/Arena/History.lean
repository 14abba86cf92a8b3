import LetLang.Proofs.Arena.Preorder
import LetLang.Proofs.Arena.Reachable

/-!
# Marks and the calls so far

A client that keeps the root and adds nodes below live ones only can read the marks off its own
calls: a slot is live exactly if no deletion named it or a slot above it. The slots that a node
lists as its children, and the two walks over the live slots, follow from that.
-/

namespace LetLang.Arena

variable {α : Type} {a b : Arena α} {calls : List (Edit α)} {n i : Nat} {s t : Slot α}

/-- The call leaves the root as it is, adds below a live node, and names a node that was given
out. -/
def Edit.Careful (a : Arena α) : Edit α → Prop
  | .setRoot _ => False
  | .add _ parent => a.isLive parent = .ok true
  | .setValue n _ | .delete n => 0 ≤ n ∧ n < a.size

/-- The calls, in order, make the arena of one that holds a root only, and each is careful. -/
inductive CarefulRun : List (Edit α) → Arena α → Prop
  | ofRoot (value : α) : CarefulRun [] (ofRoot value)
  | snoc {calls : List (Edit α)} {a : Arena α} {e : Edit α} :
      CarefulRun calls a → e.Careful a → CarefulRun (calls ++ [e]) (a.apply e)

def Edit.parent? : Edit α → Option Int
  | .add _ parent => some parent
  | _ => none

def Edit.target? : Edit α → Option Int
  | .delete n => some n
  | _ => none

/-- The slot was made by a call that puts it below `n`. The root was there before all calls, and
each call that adds a node makes the next slot. -/
def CreatedUnder (calls : List (Edit α)) (n i : Nat) : Prop :=
  ∃ k, i = k + 1 ∧ (calls.filterMap Edit.parent?)[k]? = some (n : Int)

theorem mem_targets_iff {m : Int} : m ∈ calls.filterMap Edit.target? ↔ .delete m ∈ calls := by
  rw [List.mem_filterMap]
  constructor
  · rintro ⟨e, he, htarget⟩
    cases e <;> cases htarget
    exact he
  · exact fun h => ⟨_, h, rfl⟩

theorem isLive_eq_true_iff {m : Int} :
    a.isLive m = .ok true ↔ ∃ (n : Nat) (s : Slot α), m = n ∧ a.slots[n]? = some s ∧
      s.live = true := by
  unfold isLive
  constructor
  · intro h
    cases hslot : a.slot m with
    | error e => simp [hslot, Except.map] at h
    | ok s =>
      obtain ⟨n, hn, hs⟩ := slot_eq_ok_iff_slots.1 hslot
      exact ⟨n, s, hn, hs, by simpa [hslot, Except.map] using h⟩
  · rintro ⟨n, s, rfl, hs, hlive⟩
    simp [slot_of_slots hs, Except.map, hlive]

/-- A slot that is marked as dead. -/
def Dead (a : Arena α) (i : Nat) : Prop := ∃ s, a.slots[i]? = some s ∧ s.live = false

theorem dead_iff_of_slot (hs : a.slots[i]? = some s) : a.Dead i ↔ s.live = false := by
  simp [Dead, hs]

theorem dead_buries_iff {dead : Nat → Prop} (h : a.Buries b dead) (hs : a.slots[i]? = some s) :
    b.Dead i ↔ s.live = false ∨ dead i := by
  obtain ⟨t, ht, -, -, hlive⟩ := h.slot i s hs
  rw [dead_iff_of_slot ht, ← Bool.not_eq_true, hlive, not_and_or, not_not, Bool.not_eq_true]

theorem Ordered.exists_parent (h : a.Ordered) (hs : a.slots[i]? = some s) :
    ∃ t, a.slots[s.parent]? = some t := by
  have hle := h.parent_le hs
  obtain ⟨hlt, -⟩ := Array.getElem?_eq_some_iff.1 hs
  exact ⟨_, Array.getElem?_eq_getElem (by omega)⟩

/-- A live slot hangs where its parent does. -/
theorem hangsAlive_iff_of_live (h : a.Ordered) (hs : a.slots[i]? = some s)
    (hlive : s.live = true) :
    a.HangsAlive n i ↔ i = n ∨ 0 < i ∧ a.HangsAlive n s.parent := by
  constructor
  · intro hi
    cases hi with
    | self => exact .inl rfl
    | child hj hchild =>
      obtain ⟨t, ht, -, hparent, hlt⟩ := isChild_eq_true_iff.1 hchild
      cases hs.symm.trans ht
      obtain rfl := Int.ofNat.inj hparent
      exact .inr ⟨by omega, hj⟩
  · rintro (rfl | ⟨hpos, hj⟩)
    · exact .self hs hlive
    · have hlt := h.parent_lt i s hpos hs
      exact hj.child (isChild_eq_true_iff.2 ⟨s, hs, hlive, rfl, by omega⟩)

/-- The arena is what adding below `parents` and deleting `targets` leave of one with a root. A slot
is dead if it was deleted itself, or if its parent is dead. -/
structure Recorded (parents targets : List Int) (a : Arena α) : Prop where
  ordered : a.Ordered
  size : a.size = parents.length + 1
  parent : ∀ (k : Nat) (s : Slot α), a.slots[k + 1]? = some s →
    parents[k]? = some (s.parent : Int)
  issued : ∀ m ∈ targets, m < a.size
  dead_iff : ∀ (i : Nat) (s : Slot α), a.slots[i]? = some s →
    (s.live = false ↔ (i : Int) ∈ targets ∨ 0 < i ∧ a.Dead s.parent)

namespace Recorded

variable {parents targets : List Int} {value : α}

theorem ofRoot (value : α) : Recorded [] [] (ofRoot value) where
  ordered := .ofRoot value
  size := rfl
  parent k s hs := by simp [Arena.ofRoot] at hs
  issued := by simp
  dead_iff i s hs := by
    obtain ⟨hlt, rfl⟩ := Array.getElem?_eq_some_iff.1 hs
    obtain rfl : i = 0 := Nat.lt_one_iff.1 hlt
    simp [Arena.ofRoot]

theorem add {p : Int} (h : Recorded parents targets a) (hp : a.isLive p = .ok true)
    (hadd : a.add value p = .ok b) : Recorded (parents ++ [p]) targets b := by
  obtain ⟨q, u, rfl, hu, hlive⟩ := isLive_eq_true_iff.1 hp
  obtain ⟨-, hlt, -⟩ := slots_of_add hadd
  have hsize := h.size
  have hsize' := size_add hadd
  have hnew : b.slots[a.size]? = some ⟨value, true, q⟩ := slots_of_add_self hadd
  have hcases : ∀ {j : Nat} {s : Slot α}, b.slots[j]? = some s → j < a.size ∨ j = a.size := by
    intro j s hs
    obtain ⟨hj, -⟩ := Array.getElem?_eq_some_iff.1 hs
    unfold Arena.size at hsize' ⊢
    omega
  refine ⟨h.ordered.add hadd, ?_, fun k s hs => ?_, fun m hm => ?_, fun j s hs => ?_⟩
  · rw [hsize', hsize, List.length_append, List.length_singleton]
  · rcases hcases hs with hk | hk
    · rw [slots_of_add_lt hadd hk] at hs
      rw [List.getElem?_append_left (by omega)]
      exact h.parent k s hs
    · obtain rfl : k = parents.length := by omega
      rw [hk, hnew] at hs
      cases hs
      exact List.getElem?_concat_length
  · have hissued := h.issued m hm
    omega
  · rcases hcases hs with hj | rfl
    · rw [slots_of_add_lt hadd hj] at hs
      have hparent := h.ordered.parent_le hs
      unfold Dead
      rw [slots_of_add_lt hadd (by omega)]
      exact h.dead_iff j s hs
    · -- The new slot is live, it is younger than all deletions, and its parent is live.
      cases hnew.symm.trans hs
      have hissued := h.issued a.size
      have hq : b.slots[q]? = some u := by rw [slots_of_add_lt hadd (by omega), hu]
      simp only [dead_iff_of_slot hq, hlive, Bool.true_eq_false, and_false, or_false, false_iff]
      intro hm
      have hyounger := hissued hm
      omega

theorem setValue (h : Recorded parents targets a) (hset : a.setValue n value = .ok b) :
    Recorded parents targets b := by
  have hsize := size_setValue hset
  have hdead : ∀ j, b.Dead j ↔ a.Dead j := by
    intro j
    constructor
    · rintro ⟨t, ht, hlive⟩
      obtain ⟨s, hs, heq, -⟩ := exists_slot_of_setValue hset ht
      exact ⟨s, hs, heq.trans hlive⟩
    · rintro ⟨s, hs, hlive⟩
      obtain ⟨t, ht, heq, -⟩ := exists_slot_setValue hset hs
      exact ⟨t, ht, heq.trans hlive⟩
  refine ⟨h.ordered.setValue hset, hsize.trans h.size, fun k t ht => ?_, fun m hm => ?_,
    fun j t ht => ?_⟩
  · obtain ⟨s, hs, -, hparent⟩ := exists_slot_of_setValue hset ht
    rw [← hparent]
    exact h.parent k s hs
  · rw [hsize]
    exact h.issued m hm
  · obtain ⟨s, hs, hlive, hparent⟩ := exists_slot_of_setValue hset ht
    rw [← hlive, ← hparent, hdead]
    exact h.dead_iff j s hs

theorem buries (h : Recorded parents targets a) (hn : n < a.size)
    (hb : a.Buries b (a.HangsAlive n)) : Recorded parents (targets ++ [(n : Int)]) b := by
  refine ⟨h.ordered.buries hb, hb.size.trans h.size, fun k t ht => ?_, fun m hm => ?_,
    fun j t ht => ?_⟩
  · obtain ⟨s, hs, -, hparent, -⟩ := hb.exists_slot ht
    rw [hparent]
    exact h.parent k s hs
  · rw [hb.size]
    rcases List.mem_append.1 hm with hm | hm
    · exact h.issued m hm
    · rw [List.mem_singleton.1 hm]
      omega
  · obtain ⟨s, hs, -, hparent, -⟩ := hb.exists_slot ht
    obtain ⟨u, hu⟩ := h.ordered.exists_parent hs
    have hself := h.dead_iff j s hs
    have habove : b.Dead t.parent ↔ a.Dead s.parent ∨ a.HangsAlive n s.parent := by
      rw [hparent, dead_buries_iff hb hu, dead_iff_of_slot hu]
    have hnew : (j : Int) ∈ targets ++ [(n : Int)] ↔ (j : Int) ∈ targets ∨ j = n := by
      rw [List.mem_append, List.mem_singleton, Int.natCast_inj]
    rw [← dead_iff_of_slot ht, dead_buries_iff hb hs, habove, hnew]
    cases hlive : s.live with
    | false =>
      refine iff_of_true (.inl rfl) ?_
      rcases hself.1 hlive with hdeleted | ⟨hpos, hdead⟩
      · exact .inl (.inl hdeleted)
      · exact .inr ⟨hpos, .inl hdead⟩
    | true =>
      have hhangs := hangsAlive_iff_of_live (n := n) h.ordered hs hlive
      obtain ⟨hdeleted, hdead⟩ := not_or.1 (hself.not.1 (by simp [hlive]))
      simp only [hhangs, hdeleted, hdead, and_or_left, Bool.true_eq_false, false_or]

/-- A careful call is answered, and the record grows by what it adds or deletes. -/
theorem apply {e : Edit α} (h : Recorded parents targets a) (he : e.Careful a) :
    Recorded (parents ++ [e].filterMap Edit.parent?) (targets ++ [e].filterMap Edit.target?)
      (a.apply e) := by
  cases e with
  | setRoot => exact he.elim
  | add value p =>
    change Recorded (parents ++ [p]) (targets ++ []) ((a.add value p).toOption.getD a)
    rw [List.append_nil]
    cases hadd : a.add value p with
    | ok b => exact h.add he hadd
    | error e =>
      obtain ⟨n, s, rfl, hs, -⟩ := isLive_eq_true_iff.1 he
      simp [Arena.add, slot_of_slots hs, Except.map] at hadd
  | setValue m value =>
    obtain ⟨n, rfl⟩ := Int.eq_ofNat_of_zero_le he.1
    change Recorded (parents ++ []) (targets ++ []) ((a.setValue n value).toOption.getD a)
    rw [List.append_nil, List.append_nil]
    cases hset : a.setValue n value with
    | ok b => exact h.setValue hset
    | error e => exact h
  | delete m =>
    obtain ⟨n, rfl⟩ := Int.eq_ofNat_of_zero_le he.1
    have hn : n < a.size := by
      have hlt := he.2
      omega
    obtain ⟨b, hdelete, hb⟩ := exists_delete hn
    change Recorded (parents ++ []) (targets ++ [(n : Int)]) ((a.delete n).toOption.getD a)
    rw [List.append_nil, hdelete]
    exact h.buries hn hb

end Recorded

theorem CarefulRun.recorded (h : CarefulRun calls a) :
    Recorded (calls.filterMap Edit.parent?) (calls.filterMap Edit.target?) a := by
  induction h with
  | ofRoot value => exact .ofRoot value
  | snoc _ he ih =>
    rw [List.filterMap_append, List.filterMap_append]
    exact ih.apply he

namespace Recorded

variable {parents targets : List Int}

theorem dead_iff_below (h : Recorded parents targets a) (hs : a.slots[i]? = some s) :
    s.live = false ↔ ∃ n : Nat, (n : Int) ∈ targets ∧ a.Below n i := by
  constructor
  · -- The slot was deleted, or its parent is dead, and the parent came earlier.
    intro hdead
    induction i using Nat.strongRecOn generalizing s with
    | _ i ih =>
      rcases (h.dead_iff i s hs).1 hdead with hdeleted | ⟨hpos, t, ht, htdead⟩
      · exact ⟨i, hdeleted, .self hs⟩
      · obtain ⟨n, hn, hbelow⟩ := ih s.parent (h.ordered.parent_lt i s hpos hs) ht htdead
        exact ⟨n, hn, hbelow.child hs rfl⟩
  · rintro ⟨n, hn, hbelow⟩
    induction hbelow generalizing s with
    | self => exact (h.dead_iff n s hs).2 (.inl hn)
    | @child i j t hi ht hparent ih =>
      cases ht.symm.trans hs
      obtain ⟨u, hu⟩ := hi.exists_slot
      rcases Nat.eq_zero_or_pos j with rfl | hpos
      · obtain rfl : i = 0 := hparent.symm.trans (h.ordered.root t ht)
        exact ih ht
      · exact (h.dead_iff j t ht).2 (.inr ⟨hpos, u, hparent ▸ hu, ih hu⟩)

theorem parent_live (h : Recorded parents targets a) (hs : a.slots[i]? = some s)
    (hlive : s.live = true) : ∃ t, a.slots[s.parent]? = some t ∧ t.live = true := by
  obtain ⟨t, ht⟩ := h.ordered.exists_parent hs
  rcases Nat.eq_zero_or_pos i with rfl | hpos
  · have hroot := h.ordered.root s hs
    exact ⟨s, hroot ▸ hs, hlive⟩
  · refine ⟨t, ht, ?_⟩
    have hdead := (h.dead_iff i s hs).not.1 (by simp [hlive])
    rw [← Bool.not_eq_false]
    exact fun htdead => hdead (.inr ⟨hpos, t, ht, htdead⟩)

theorem hangsAlive_root (h : Recorded parents targets a) (hs : a.slots[i]? = some s)
    (hlive : s.live = true) : a.HangsAlive 0 i := by
  induction i using Nat.strongRecOn generalizing s with
  | _ i ih =>
    rw [hangsAlive_iff_of_live h.ordered hs hlive]
    rcases Nat.eq_zero_or_pos i with hzero | hpos
    · exact .inl hzero
    · obtain ⟨t, ht, htlive⟩ := h.parent_live hs hlive
      exact .inr ⟨hpos, ih s.parent (h.ordered.parent_lt i s hpos hs) ht htlive⟩

theorem mem_children_iff_parent (h : Recorded parents targets a) :
    i ∈ a.children n ↔ (∃ k, i = k + 1 ∧ parents[k]? = some (n : Int)) ∧ a.isLive i = .ok true := by
  rw [mem_children_iff, isChild_eq_true_iff, isLive_eq_true_iff]
  constructor
  · rintro ⟨s, hs, hlive, hparent, hlt⟩
    have hpos : 0 < i := by omega
    obtain ⟨k, rfl⟩ := Nat.exists_eq_add_of_lt hpos
    rw [Nat.zero_add] at *
    exact ⟨⟨k, rfl, hparent ▸ h.parent k s hs⟩, _, s, rfl, hs, hlive⟩
  · rintro ⟨⟨k, rfl, hk⟩, j, s, hj, hs, hlive⟩
    obtain rfl := Int.ofNat.inj hj
    have hparent := Option.some.inj ((h.parent k s hs).symm.trans hk)
    have hlt := h.ordered.parent_lt (k + 1) s (Nat.succ_pos k) hs
    exact ⟨s, hs, hlive, hparent, by omega⟩

end Recorded

/-- The live slots are listed in order of creation. -/
theorem pairwise_live (a : Arena α) : a.live.Pairwise fun x y => x.1 < y.1 := by
  have hnumbered : a.numbered.Pairwise fun p q => p.1 < q.1 := by
    rw [← List.pairwise_map (f := Prod.fst), numbered, List.map_map]
    change (a.slots.toList.zipIdx.map Prod.snd).Pairwise (· < ·)
    rw [List.zipIdx_map_snd]
    exact List.pairwise_lt_range'
  refine hnumbered.filterMap _ fun p q hpq x hx y hy => ?_
  have hfst : ∀ {p : Nat × Slot α} {x : Nat × α},
      (if p.2.live then some (p.1, p.2.value) else none) = some x → x.1 = p.1 := by
    intro p x hx
    split at hx <;> cases hx
    rfl
  rw [hfst hx, hfst hy]
  exact hpq

/-- After careful calls a slot is live if and only if neither it nor a slot above it was ever
deleted, and the parent of a live slot is live. The children of a node are the live slots that were
created under it, in order of creation. Preorder visits the live slots, each once. -/
theorem live_iff_never_deleted (h : CarefulRun calls a) :
    (∀ (i : Nat) (s : Slot α), a.slots[i]? = some s →
      (s.live = true ↔ ∀ n : Nat, .delete n ∈ calls → ¬ a.Below n i)) ∧
    (∀ (i : Nat) (s : Slot α), a.slots[i]? = some s → s.live = true →
      ∃ t, a.slots[s.parent]? = some t ∧ t.live = true) ∧
    (∀ n : Nat, (a.children n).Pairwise (· < ·) ∧
      ∀ i, i ∈ a.children n ↔ CreatedUnder calls n i ∧ a.isLive i = .ok true) ∧
    a.preorder.Perm a.live := by
  have hr := h.recorded
  refine ⟨fun i s hs => ?_, fun i s hs => hr.parent_live hs,
    fun n => ⟨a.pairwise_children n, fun i => hr.mem_children_iff_parent⟩, ?_⟩
  · rw [← Bool.not_eq_false, hr.dead_iff_below hs]
    simp only [mem_targets_iff, not_exists, not_and]
  · have hnodup : a.live.Nodup := a.pairwise_live.imp fun hlt heq =>
      Nat.ne_of_lt hlt (congrArg Prod.fst heq)
    rw [List.perm_ext_iff_of_nodup a.nodup_preorder hnodup]
    intro x
    rw [mem_preorder_iff, mem_live_iff]
    constructor
    · rintro ⟨i, s, hi, hs, rfl⟩
      obtain ⟨t, ht, hlive⟩ := hi.live
      cases hs.symm.trans ht
      exact ⟨i, s, hs, hlive, rfl⟩
    · rintro ⟨i, s, hs, hlive, rfl⟩
      exact ⟨i, s, hr.hangsAlive_root hs hlive, hs, rfl⟩

/-- What lies below a deleted node is dead, and a node that is added later is live. -/
theorem deletion_recorded :
    ∃ a : Arena String, CarefulRun [.add "a" 0, .add "b" 1, .delete 1, .add "c" 0] a ∧
      a.Below 1 2 ∧ (∀ s, a.slots[2]? = some s → s.live = false) ∧ 3 ∈ a.children (0 : Nat) ∧
      a.preorder.Perm a.live := by
  let a : Arena String :=
    ⟨#[⟨"r", true, 0⟩, ⟨"a", false, 0⟩, ⟨"b", false, 1⟩, ⟨"c", true, 0⟩]⟩
  have hdelete : (((ofRoot "r").apply (.add "a" 0)).apply (.add "b" 1)).apply (.delete 1) =
      ⟨#[⟨"r", true, 0⟩, ⟨"a", false, 0⟩, ⟨"b", false, 1⟩]⟩ := by
    simp [apply, add, delete, slot, slot?, ofRoot, Except.map, Except.toOption, bury, kill,
      children, isChild, size, List.range_succ]
  have h₁ : CarefulRun _ _ := (CarefulRun.ofRoot "r").snoc (e := .add "a" 0) rfl
  have h₂ : CarefulRun _ _ := h₁.snoc (e := .add "b" 1) rfl
  have h₃ : CarefulRun _ _ := h₂.snoc (e := .delete 1) ⟨by decide, by decide⟩
  rw [hdelete] at h₃
  have h : CarefulRun [.add "a" 0, .add "b" 1, .delete 1, .add "c" 0] a :=
    h₃.snoc (e := .add "c" 0) rfl
  obtain ⟨hlive, -, hchildren, hperm⟩ := live_iff_never_deleted h
  have hbelow : a.Below 1 2 :=
    .child (.self (s := ⟨"a", false, 0⟩) rfl) (s := ⟨"b", false, 1⟩) rfl rfl
  refine ⟨a, h, hbelow, fun s hs => ?_, ((hchildren 0).2 3).2 ⟨⟨2, rfl, rfl⟩, rfl⟩, hperm⟩
  rw [← Bool.not_eq_true, hlive 2 s hs]
  exact fun hnever => hnever 1 (by simp) hbelow

end LetLang.Arena
