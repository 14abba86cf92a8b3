import LetLang.Proofs.Arena.Tree

/-!
# What a deletion marks

A deletion goes down from a node by live children. It marks those slots that hang from the node by
live slots only, and leaves all else as it was.
-/

namespace LetLang.Arena

variable {α : Type} {a b c : Arena α} {n i j : Nat} {s : Slot α}

/-- The slot, the slot `n` and all slots on the way from the one up to the other are live. -/
inductive HangsAlive (a : Arena α) (n : Nat) : Nat → Prop
  | self {s : Slot α} : a.slots[n]? = some s → s.live = true → HangsAlive a n n
  | child {i j : Nat} : HangsAlive a n i → a.isChild i j = true → HangsAlive a n j

namespace HangsAlive

theorem live (h : a.HangsAlive n i) : ∃ s, a.slots[i]? = some s ∧ s.live = true := by
  cases h with
  | self hs hlive => exact ⟨_, hs, hlive⟩
  | child _ hchild =>
    obtain ⟨s, hs, hlive, -⟩ := isChild_eq_true_iff.1 hchild
    exact ⟨s, hs, hlive⟩

theorem live_top (h : a.HangsAlive n i) : ∃ s, a.slots[n]? = some s ∧ s.live = true := by
  induction h with
  | self hs hlive => exact ⟨_, hs, hlive⟩
  | child _ _ ih => exact ih

theorem trans (h : a.HangsAlive n i) (h' : a.HangsAlive i j) : a.HangsAlive n j := by
  induction h' with
  | self => exact h
  | child _ hchild ih => exact ih.child hchild

end HangsAlive

theorem slots_kill_self (hs : a.slots[n]? = some s) :
    (a.kill n s).slots[n]? = some { s with live := false } := by
  obtain ⟨hlt, -⟩ := Array.getElem?_eq_some_iff.1 hs
  exact Array.getElem?_setIfInBounds_self_of_lt hlt

theorem slots_kill_of_ne (s : Slot α) (h : i ≠ n) : (a.kill n s).slots[i]? = a.slots[i]? :=
  Array.getElem?_setIfInBounds_ne h.symm

theorem isChild_kill_iff (hs : a.slots[n]? = some s) (q : Int) :
    (a.kill n s).isChild q j = true ↔ j ≠ n ∧ a.isChild q j = true := by
  rw [isChild_eq_true_iff, isChild_eq_true_iff]
  by_cases h : j = n
  · subst h
    simp [slots_kill_self hs]
  · simp [slots_kill_of_ne s h, h]

theorem HangsAlive.of_kill (hs : a.slots[n]? = some s) {m : Nat}
    (h : (a.kill n s).HangsAlive m i) : a.HangsAlive m i := by
  induction h with
  | @self t ht hlive =>
    have hne : m ≠ n := by
      rintro rfl
      rw [slots_kill_self hs] at ht
      cases ht
      cases hlive
    rw [slots_kill_of_ne s hne] at ht
    exact .self ht hlive
  | child _ hchild ih => exact ih.child ((isChild_kill_iff hs _).1 hchild).2

/-- What hangs from pending slots, of which the first is live, is the first one, and what hangs from
its children and from the others once it is dead. -/
theorem exists_hangsAlive_cons_iff (hs : a.slots[n]? = some s) (hlive : s.live = true)
    (pending : List Nat) :
    (∃ m ∈ n :: pending, a.HangsAlive m i) ↔
      i = n ∨ ∃ m ∈ ((a.kill n s).children n).reverse ++ pending,
        (a.kill n s).HangsAlive m i := by
  simp only [List.mem_append, List.mem_reverse, mem_children_iff, List.mem_cons]
  constructor
  · rintro ⟨m, hm, h⟩
    induction h with
    | @self t ht htlive =>
      rcases Decidable.em (m = n) with hmn | hmn
      · exact .inl hmn
      · rw [← slots_kill_of_ne s hmn] at ht
        exact .inr ⟨m, .inr (hm.resolve_left hmn), .self ht htlive⟩
    | @child i j _ hchild ih =>
      rcases Decidable.em (j = n) with hjn | hjn
      · exact .inl hjn
      · have hchild' := (isChild_kill_iff hs _).2 ⟨hjn, hchild⟩
        rcases ih with rfl | ⟨m', hm', h'⟩
        · obtain ⟨t, ht, htlive, -⟩ := isChild_eq_true_iff.1 hchild'
          exact .inr ⟨j, .inl hchild', .self ht htlive⟩
        · exact .inr ⟨m', hm', h'.child hchild'⟩
  · have hn : a.HangsAlive n n := .self hs hlive
    rintro (rfl | ⟨m, hm | hm, h⟩)
    · exact ⟨i, .inl rfl, hn⟩
    · have hchild := ((isChild_kill_iff hs _).1 hm).2
      exact ⟨n, .inl rfl, (hn.child hchild).trans (h.of_kill hs)⟩
    · exact ⟨m, .inr hm, h.of_kill hs⟩

/-- From `a` to `b` the slots of `dead` died, and nothing else changed. -/
structure Buries (a b : Arena α) (dead : Nat → Prop) : Prop where
  size : b.size = a.size
  slot : ∀ (i : Nat) (s : Slot α), a.slots[i]? = some s → ∃ t, b.slots[i]? = some t ∧
    t.value = s.value ∧ t.parent = s.parent ∧ (t.live = true ↔ s.live = true ∧ ¬ dead i)

namespace Buries

variable {dead dead' : Nat → Prop}

theorem congr (h : a.Buries b dead) (hdead : ∀ i, dead i ↔ dead' i) : a.Buries b dead' := by
  obtain rfl : dead = dead' := funext fun i => propext (hdead i)
  exact h

theorem refl (a : Arena α) : a.Buries a fun _ => False where
  size := rfl
  slot i s hs := ⟨s, hs, rfl, rfl, by simp⟩

theorem trans (h : a.Buries b dead) (h' : b.Buries c dead') :
    a.Buries c fun i => dead i ∨ dead' i where
  size := h'.size.trans h.size
  slot i s hs := by
    obtain ⟨t, ht, hvalue, hparent, hlive⟩ := h.slot i s hs
    obtain ⟨u, hu, hvalue', hparent', hlive'⟩ := h'.slot i t ht
    refine ⟨u, hu, hvalue'.trans hvalue, hparent'.trans hparent, ?_⟩
    rw [hlive', hlive, not_or, and_assoc]

theorem kill (hs : a.slots[n]? = some s) : a.Buries (a.kill n s) fun i => i = n where
  size := size_kill a n s
  slot i t ht := by
    by_cases hi : i = n
    · subst hi
      cases hs.symm.trans ht
      exact ⟨_, slots_kill_self hs, rfl, rfl, by simp⟩
    · exact ⟨t, (slots_kill_of_ne s hi).trans ht, rfl, rfl, by simp [hi]⟩

/-- No slot is new. -/
theorem exists_slot {t : Slot α} (h : a.Buries b dead) (ht : b.slots[i]? = some t) :
    ∃ s, a.slots[i]? = some s ∧ t.value = s.value ∧ t.parent = s.parent ∧
      (t.live = true ↔ s.live = true ∧ ¬ dead i) := by
  have hsize : b.slots.size = a.slots.size := h.size
  obtain ⟨hlt, -⟩ := Array.getElem?_eq_some_iff.1 ht
  have hs := Array.getElem?_eq_getElem (hsize ▸ hlt)
  obtain ⟨t', ht', hslot⟩ := h.slot i _ hs
  cases ht'.symm.trans ht
  exact ⟨_, hs, hslot⟩

/-- Where nothing died, nothing changed. -/
theorem slots_eq (h : a.Buries b dead) (hi : ¬ dead i) : b.slots[i]? = a.slots[i]? := by
  cases hs : a.slots[i]? with
  | none =>
    have hsize := h.size
    unfold Arena.size at hsize
    rw [Array.getElem?_eq_none_iff] at hs ⊢
    omega
  | some s =>
    obtain ⟨⟨value, live, parent⟩, ht, rfl, rfl, hlive⟩ := h.slot i s hs
    have heq : live = s.live := Bool.eq_iff_iff.2 (hlive.trans (and_iff_left hi))
    rw [ht, heq]

theorem node?_eq (h : a.Buries b dead) (hi : ¬ dead i) : b.node? i = a.node? i := by
  unfold node?
  rw [slot?_natCast, slot?_natCast, h.slots_eq hi]

end Buries

/-- Working through pending slots marks what hangs alive from one of them. -/
theorem buries_bury (a : Arena α) (pending : List Nat) :
    a.Buries (a.bury pending) fun i => ∃ m ∈ pending, a.HangsAlive m i := by
  fun_induction bury a pending with
  | case1 a => exact (Buries.refl a).congr (by simp)
  | case2 a n pending s hs hlive b _ ih =>
    refine ((Buries.kill hs).trans ih).congr fun i => ?_
    exact (exists_hangsAlive_cons_iff hs hlive pending).symm
  | case3 a n pending s hs hdead ih =>
    refine ih.congr fun i => ?_
    have hnone : ¬ a.HangsAlive n i := by
      intro h
      obtain ⟨t, ht, hlive⟩ := h.live_top
      cases hs.symm.trans ht
      exact hdead hlive
    simp [hnone]
  | case4 a n pending hs ih =>
    refine ih.congr fun i => ?_
    have hnone : ¬ a.HangsAlive n i := by
      intro h
      obtain ⟨t, ht, -⟩ := h.live_top
      cases hs.symm.trans ht
    simp [hnone]

/-- A node that was given out can be deleted, which marks what hangs alive from it. -/
theorem exists_delete (hn : n < a.size) :
    ∃ b, a.delete n = .ok b ∧ a.Buries b (a.HangsAlive n) := by
  obtain ⟨s, hs⟩ : ∃ s, a.slot n = .ok s := by
    cases hs : a.slot n with
    | ok s => exact ⟨s, rfl⟩
    | error e =>
      obtain ⟨-, hout⟩ := slot_eq_error_iff.1 hs
      omega
  refine ⟨a.bury [n], by rw [delete, hs]; rfl, (buries_bury a [n]).congr fun i => ?_⟩
  simp

theorem Buries.isChild {dead : Nat → Prop} (h : a.Buries b dead) {q : Int} :
    b.isChild q i = true ↔ a.isChild q i = true ∧ ¬ dead i := by
  simp only [isChild_eq_true_iff]
  constructor
  · rintro ⟨t, ht, hlive, hparent, hlt⟩
    obtain ⟨s, hs, -, hsame, hmark⟩ := h.exists_slot ht
    obtain ⟨hslive, hnot⟩ := hmark.1 hlive
    exact ⟨⟨s, hs, hslive, hsame ▸ hparent, hlt⟩, hnot⟩
  · rintro ⟨⟨s, hs, hlive, hparent, hlt⟩, hnot⟩
    obtain ⟨t, ht, -, hsame, hmark⟩ := h.slot i s hs
    exact ⟨t, ht, hmark.2 ⟨hlive, hnot⟩, hsame ▸ hparent, hlt⟩

theorem HangsAlive.of_buries {dead : Nat → Prop} (h : a.Buries b dead) {m : Nat}
    (hi : b.HangsAlive m i) : a.HangsAlive m i := by
  induction hi with
  | self ht hlive =>
    obtain ⟨s, hs, -, -, hmark⟩ := h.exists_slot ht
    exact .self hs (hmark.1 hlive).1
  | child _ hchild ih => exact ih.child (h.isChild.1 hchild).1

/-- Where all dies that hangs from some nodes, what hangs from none of them hangs as before. -/
theorem HangsAlive.buries {P : Nat → Prop} {m : Nat} (h : a.HangsAlive m i)
    (hb : a.Buries b fun i => ∃ n, P n ∧ a.HangsAlive n i)
    (hi : ¬ ∃ n, P n ∧ a.HangsAlive n i) : b.HangsAlive m i := by
  induction h with
  | self hs hlive =>
    obtain ⟨t, ht, -, -, hmark⟩ := hb.slot m _ hs
    exact .self ht (hmark.2 ⟨hlive, hi⟩)
  | @child i j _ hchild ih =>
    have hup : ¬ ∃ n, P n ∧ a.HangsAlive n i := fun ⟨n, hn, h⟩ => hi ⟨n, hn, h.child hchild⟩
    exact (ih hup).child (hb.isChild.2 ⟨hchild, hi⟩)

/-- What hangs from other nodes after a deletion, together with what the deletion marked, is what
hung from any of them before. -/
theorem exists_hangsAlive_or_iff {P Q : Nat → Prop}
    (hb : a.Buries b fun i => ∃ n, P n ∧ a.HangsAlive n i) :
    (∃ n, P n ∧ a.HangsAlive n i) ∨ (∃ n, Q n ∧ b.HangsAlive n i) ↔
      ∃ n, (P n ∨ Q n) ∧ a.HangsAlive n i := by
  constructor
  · rintro (⟨n, hn, h⟩ | ⟨n, hn, h⟩)
    · exact ⟨n, .inl hn, h⟩
    · exact ⟨n, .inr hn, h.of_buries hb⟩
  · rintro ⟨n, hn | hn, h⟩
    · exact .inl ⟨n, hn, h⟩
    · by_cases hi : ∃ n, P n ∧ a.HangsAlive n i
      · exact .inl hi
      · exact .inr ⟨n, hn, h.buries hb hi⟩

/-- Nodes that were given out can be deleted in any order, which marks what hangs alive from one of
them. -/
theorem exists_deleteAll {ids : List Int} (hids : ∀ id ∈ ids, 0 ≤ id ∧ id < a.size) :
    ∃ b, ids.foldlM Arena.delete a = .ok b ∧
      a.Buries b fun i => ∃ n : Nat, (n : Int) ∈ ids ∧ a.HangsAlive n i := by
  induction ids generalizing a with
  | nil => exact ⟨a, rfl, (Buries.refl a).congr (by simp)⟩
  | cons id ids ih =>
    obtain ⟨⟨hpos, hlt⟩, hids⟩ := List.forall_mem_cons.1 hids
    lift id to Nat using hpos with n
    obtain ⟨b, hdelete, hb⟩ := exists_delete (a := a) (n := n) (by omega)
    obtain ⟨c, hrest, hc⟩ := ih (a := b) (by rw [hb.size]; exact hids)
    have hfirst : a.Buries b fun i => ∃ m : Nat, (m : Int) = n ∧ a.HangsAlive m i :=
      hb.congr fun i => by simp only [Int.natCast_inj, exists_eq_left]
    refine ⟨c, ?_, (hfirst.trans hc).congr fun i => ?_⟩
    · rw [List.foldlM_cons, hdelete]
      exact hrest
    · rw [exists_hangsAlive_or_iff hfirst]
      simp only [List.mem_cons]

end LetLang.Arena
