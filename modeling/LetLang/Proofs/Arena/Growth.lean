import LetLang.Arena

/-!
# Growing arenas

An arena that is being built only grows: a later arena keeps every slot of an earlier one. The nodes
that were added since an arena had a certain size are a partial map from numbers, and a larger arena
or an earlier starting size knows at least as many of them.
-/

namespace LetLang.Arena

variable {α : Type} {a b c : Arena α}

@[simp] theorem slot?_natCast (a : Arena α) (n : Nat) : a.slot? n = a.slots[n]? := by
  unfold slot?
  rw [if_neg (by omega), Int.toNat_natCast]

theorem slot?_eq_some_iff {m : Int} {s : Slot α} :
    a.slot? m = some s ↔ ∃ n : Nat, m = n ∧ a.slots[n]? = some s := by
  constructor
  · intro h
    unfold slot? at h
    split at h
    · cases h
    · exact ⟨m.toNat, by omega, h⟩
  · rintro ⟨n, rfl, hs⟩
    rwa [slot?_natCast]

theorem slot_eq_ok_iff_slots {m : Int} {s : Slot α} :
    a.slot m = .ok s ↔ ∃ n : Nat, m = n ∧ a.slots[n]? = some s :=
  slot_eq_ok_iff.trans slot?_eq_some_iff

theorem slot_of_slots {n : Nat} {s : Slot α} (hs : a.slots[n]? = some s) : a.slot n = .ok s :=
  slot_eq_ok_iff_slots.2 ⟨n, rfl, hs⟩

def node? (a : Arena α) (id : Int) : Option α :=
  (a.slot? id).bind fun s => if s.live then some s.value else none

theorem value?_eq_some_iff {id : Int} {v : α} :
    a.value? id = .ok (some v) ↔ a.node? id = some v := by
  unfold value? node? slot
  cases hs : a.slot? id with
  | none => simp [Except.map]
  | some s => cases hl : s.live <;> simp [Except.map, hl]

theorem exists_slot_of_node? {id : Int} {v : α} (h : a.node? id = some v) :
    ∃ (n : Nat) (s : Slot α), id = n ∧ a.slots[n]? = some s ∧ s.live = true ∧ s.value = v := by
  obtain ⟨s, hs, h⟩ := Option.bind_eq_some_iff.1 h
  obtain ⟨n, hn, hget⟩ := slot?_eq_some_iff.1 hs
  split at h
  · next hlive => exact ⟨n, s, hn, hget, hlive, Option.some.inj h⟩
  · cases h

theorem node?_of_slot {n : Nat} {s : Slot α} (hs : a.slots[n]? = some s) (hlive : s.live = true) :
    a.node? n = some s.value := by
  unfold node?
  rw [slot?_natCast, hs]
  simp [hlive]

/-- `b` keeps every slot of `a`. -/
def Extends (a b : Arena α) : Prop :=
  ∀ (i : Nat) (s : Slot α), a.slots[i]? = some s → b.slots[i]? = some s

theorem Extends.refl (a : Arena α) : a.Extends a := fun _ _ h => h

theorem Extends.trans (hab : a.Extends b) (hbc : b.Extends c) : a.Extends c :=
  fun i s h => hbc i s (hab i s h)

theorem Extends.size_le (h : a.Extends b) : a.size ≤ b.size := by
  rcases Nat.eq_zero_or_pos a.size with h0 | hpos
  · omega
  · have hlast := h (a.size - 1) _ (Array.getElem?_eq_getElem (by unfold size at *; omega))
    obtain ⟨hlt, -⟩ := Array.getElem?_eq_some_iff.1 hlast
    unfold size at *
    omega

def since (a : Arena α) (n : Nat) (id : Int) : Option α := if n ≤ id then a.node? id else none

theorem since_eq_some_iff {n : Nat} {id : Int} {v : α} :
    a.since n id = some v ↔ n ≤ id ∧ a.node? id = some v := by
  unfold since
  split
  · next h => simp [h]
  · next h => simp [h]

/-- `f` knows every node that `g` knows. -/
def Covers (f g : Int → Option α) : Prop := ∀ id v, g id = some v → f id = some v

theorem Covers.trans {f g h : Int → Option α} (hfg : Covers f g) (hgh : Covers g h) :
    Covers f h := fun id v hv => hfg id v (hgh id v hv)

theorem covers_node? (a : Arena α) (n : Nat) : Covers a.node? (a.since n) :=
  fun _ _ h => (since_eq_some_iff.1 h).2

theorem Extends.node? (h : a.Extends b) {id : Int} {v : α} (hv : a.node? id = some v) :
    b.node? id = some v := by
  obtain ⟨n, s, rfl, hs, hlive, rfl⟩ := exists_slot_of_node? hv
  exact node?_of_slot (h n s hs) hlive

theorem Extends.covers_since (h : a.Extends b) {m n : Nat} (hmn : m ≤ n) :
    Covers (b.since m) (a.since n) := by
  intro id v hv
  obtain ⟨hle, hv⟩ := since_eq_some_iff.1 hv
  exact since_eq_some_iff.2 ⟨by omega, h.node? hv⟩

section
variable {v w : α}

theorem slots_of_add {p : Int} (h : a.add v p = .ok b) :
    0 ≤ p ∧ p < a.size ∧ b.slots = a.slots.push ⟨v, true, p.toNat⟩ := by
  unfold add at h
  cases hs : a.slot p with
  | error e => simp [hs, Except.map] at h
  | ok s =>
    simp only [hs, Except.map, Except.ok.injEq] at h
    subst h
    obtain ⟨n, rfl, hget⟩ := slot_eq_ok_iff_slots.1 hs
    obtain ⟨hlt, -⟩ := Array.getElem?_eq_some_iff.1 hget
    exact ⟨Int.natCast_nonneg n, Int.ofNat_lt.2 hlt, rfl⟩

theorem slots_of_add_lt {p : Int} {i : Nat} (h : a.add v p = .ok b) (hi : i < a.size) :
    b.slots[i]? = a.slots[i]? := by
  obtain ⟨-, -, hslots⟩ := slots_of_add h
  rw [hslots, Array.getElem?_push, if_neg (show i ≠ a.slots.size from Nat.ne_of_lt hi)]

theorem slots_of_add_self {p : Int} (h : a.add v p = .ok b) :
    b.slots[a.size]? = some ⟨v, true, p.toNat⟩ := by
  obtain ⟨-, -, hslots⟩ := slots_of_add h
  rw [hslots]
  exact Array.getElem?_push_size

theorem extends_of_add {p : Int} (h : a.add v p = .ok b) : a.Extends b := by
  intro i s hi
  obtain ⟨hlt, -⟩ := Array.getElem?_eq_some_iff.1 hi
  rw [slots_of_add_lt h hlt, hi]

theorem node?_of_add {p : Int} (h : a.add v p = .ok b) : b.node? a.size = some v :=
  node?_of_slot (slots_of_add_self h) rfl

/-- Only a live slot is written. -/
theorem setValue_eq_ok {m : Int} (h : a.setValue m w = .ok b) :
    ∃ (n : Nat) (s : Slot α), m = n ∧ a.slots[n]? = some s ∧
      b.slots = if s.live then a.slots.setIfInBounds n { s with value := w } else a.slots := by
  unfold setValue at h
  cases hs : a.slot m with
  | error e => simp [hs, Except.map] at h
  | ok s =>
    obtain ⟨n, rfl, hget⟩ := slot_eq_ok_iff_slots.1 hs
    simp only [hs, Except.map, Except.ok.injEq, Int.toNat_natCast] at h
    subst h
    refine ⟨n, s, rfl, hget, ?_⟩
    split <;> rfl

theorem slots_of_setValue {n : Nat} (h : a.setValue n w = .ok b) (i : Nat) (hi : i ≠ n) :
    b.slots[i]? = a.slots[i]? := by
  obtain ⟨k, s, hk, -, hslots⟩ := setValue_eq_ok h
  obtain rfl := Int.ofNat.inj hk
  rw [hslots]
  split
  · exact Array.getElem?_setIfInBounds_ne (Ne.symm hi)
  · rfl

theorem slots_of_setValue_at {n : Nat} {s : Slot α} (h : a.setValue n w = .ok b)
    (hs : a.slots[n]? = some s) :
    b.slots[n]? = some (if s.live then { s with value := w } else s) := by
  obtain ⟨k, t, hk, ht, hslots⟩ := setValue_eq_ok h
  obtain rfl := Int.ofNat.inj hk
  cases hs.symm.trans ht
  obtain ⟨hlt, -⟩ := Array.getElem?_eq_some_iff.1 hs
  rw [hslots]
  split
  · exact Array.getElem?_setIfInBounds_self_of_lt hlt
  · exact hs

theorem slots_of_setValue_self {n : Nat} {s : Slot α} (h : a.setValue n w = .ok b)
    (hs : a.slots[n]? = some s) (hlive : s.live = true) :
    b.slots[n]? = some { s with value := w } := by
  rw [slots_of_setValue_at h hs, if_pos hlive]

/-- Writing a node keeps its mark and its parent. -/
theorem exists_slot_setValue {m : Int} {i : Nat} {s : Slot α} (h : a.setValue m w = .ok b)
    (hs : a.slots[i]? = some s) :
    ∃ t, b.slots[i]? = some t ∧ t.live = s.live ∧ t.parent = s.parent := by
  obtain ⟨n, u, rfl, -⟩ := setValue_eq_ok h
  by_cases hi : i = n
  · subst hi
    refine ⟨_, slots_of_setValue_at h hs, ?_⟩
    split <;> exact ⟨rfl, rfl⟩
  · exact ⟨s, (slots_of_setValue h i hi).trans hs, rfl, rfl⟩

theorem exists_slot_of_setValue {m : Int} {i : Nat} {t : Slot α} (h : a.setValue m w = .ok b)
    (ht : b.slots[i]? = some t) :
    ∃ s, a.slots[i]? = some s ∧ s.live = t.live ∧ s.parent = t.parent := by
  have hsize := size_setValue h
  unfold size at hsize
  obtain ⟨hlt, -⟩ := Array.getElem?_eq_some_iff.1 ht
  have hs : a.slots[i]? = some a.slots[i] := Array.getElem?_eq_getElem (by omega)
  obtain ⟨t', ht', hlive, hparent⟩ := exists_slot_setValue h hs
  cases ht.symm.trans ht'
  exact ⟨_, hs, hlive.symm, hparent.symm⟩

theorem node?_of_setValue {n : Nat} (h : a.setValue n w = .ok b) (hv : a.node? n = some v) :
    b.node? n = some w := by
  obtain ⟨k, s, hk, hs, hlive, -⟩ := exists_slot_of_node? hv
  obtain rfl := Int.ofNat.inj hk
  exact node?_of_slot (slots_of_setValue_self h hs hlive) hlive

/-- Writing a live node as it is changes nothing. -/
theorem setValue_self {n : Nat} (h : a.node? n = some v) : a.setValue n v = .ok a := by
  obtain ⟨m, s, hm, hget, hlive, rfl⟩ := exists_slot_of_node? h
  obtain rfl : n = m := by omega
  have hset : a.slots.setIfInBounds n s = a.slots := by
    refine Array.ext_getElem? fun i => ?_
    by_cases hi : n = i
    · subst hi
      obtain ⟨hlt, -⟩ := Array.getElem?_eq_some_iff.1 hget
      rw [Array.getElem?_setIfInBounds_self_of_lt hlt, hget]
    · rw [Array.getElem?_setIfInBounds_ne hi]
  unfold setValue
  simp only [slot_of_slots hget, Except.map, Int.toNat_natCast]
  rw [if_pos hlive]
  exact congrArg (fun slots => Except.ok (Arena.mk slots)) hset

theorem node?_of_setValue_ne {n : Nat} {id : Int} (h : a.setValue n w = .ok b) (hne : id ≠ n) :
    b.node? id = a.node? id := by
  unfold node? slot?
  split
  · rfl
  · rw [slots_of_setValue h _ (by omega)]

/-- Who knows an arena after a node was written knows what came after the node as it was before. -/
theorem Covers.of_setValue {f : Int → Option α} {k m n : Nat} (hf : Covers f (b.since k))
    (h : a.setValue n w = .ok b) (hkm : k ≤ m) (hnm : n < m) : Covers f (a.since m) := by
  intro id v hv
  obtain ⟨hle, hv⟩ := since_eq_some_iff.1 hv
  refine hf id v (since_eq_some_iff.2 ⟨by omega, ?_⟩)
  rw [node?_of_setValue_ne h (by omega), hv]

/-- Writing a node that came after `a` leaves `a` extended. -/
theorem Extends.setValue {n : Nat} (hab : a.Extends b) (hn : a.size ≤ n)
    (h : b.setValue n w = .ok c) : a.Extends c := by
  intro i s hi
  obtain ⟨hlt, -⟩ := Array.getElem?_eq_some_iff.1 hi
  have hne : i ≠ n := by unfold size at hn; omega
  rw [slots_of_setValue h i hne]
  exact hab i s hi

end

end LetLang.Arena
