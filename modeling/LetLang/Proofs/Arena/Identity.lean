import LetLang.Proofs.Arena.Reachable
import LetLang.Proofs.Step

/-!
# Numbers that stay

A number that an arena gave out names the same slot for ever: the slot keeps its parent, and once it
is dead it stays as it is, the root apart. Calls are steps here that keep the arena also when they
are refused, so that a deletion that stops half way would show. Every call that names a number which
was never given out is refused, but for the list of children, which can be asked of any number.
-/

namespace LetLang.Arena

variable {α : Type} {a b c : Arena α} {n i : Nat} {s t : Slot α}

/-- A step on an arena, which is there afterwards also if the step is refused. -/
abbrev Access (α : Type) := EStateM Unissued (Arena α)

/-- The slot of a number, which must have been given out. -/
def look (n : Int) : Access α (Slot α) := fun a =>
  match a.slot n with
  | .ok s => .ok s a
  | .error e => .error e a

/-- Works through pending numbers, the first one first, as `bury` does with slots. A number that was
never given out is noticed when its turn comes, and what was marked until then stays marked. -/
def sweepFrom (a : Arena α) : (pending : List Int) → EStateM.Result Unissued (Arena α) Unit
  | [] => .ok () a
  | n :: pending =>
    match hs : a.slot n with
    | .ok s =>
      if hlive : s.live then
        let b := a.kill n.toNat s
        have : b.liveCount < a.liveCount := by
          obtain ⟨k, rfl, hslot⟩ := slot_eq_ok_iff_slots.1 hs
          exact liveCount_kill_lt hslot hlive
        b.sweepFrom ((b.childIds n).reverse ++ pending)
      else a.sweepFrom pending
    | .error e => .error e a
termination_by pending => (a.liveCount, pending.length)

def sweep (pending : List Int) : Access α Unit := fun a => a.sweepFrom pending

inductive Call (α : Type)
  | edit (e : Edit α)
  | value (n : Int)
  | isLive (n : Int)
  | parent (n : Int)
  | children (n : Int)
  | live
  | preorder
  | size
  | display (show' : α → String)

inductive Answer (α : Type)
  | done
  | number (n : Nat)
  | value (v : Option α)
  | mark (live : Bool)
  | numbers (ns : List Nat)
  | nodes (xs : List (Nat × α))
  | text (s : String)

namespace Call

def run : Call α → Access α (Answer α)
  | .edit (.setRoot v) => do
    modify fun a => a.setRoot v
    return .done
  | .edit (.add v p) => do
    let _ ← look p
    let a ← get
    set (Arena.mk (a.slots.push ⟨v, true, p.toNat⟩))
    return .number a.size
  | .edit (.setValue n v) => do
    let s ← look n
    if s.live then modify fun a => ⟨a.slots.setIfInBounds n.toNat { s with value := v }⟩
    return .done
  | .edit (.delete n) => do
    sweep [n]
    return .done
  | .value n => do
    let s ← look n
    return .value (if s.live then some s.value else none)
  | .isLive n => do
    let s ← look n
    return .mark s.live
  | .parent n => do
    let s ← look n
    return .number s.parent
  | .children n => return .numbers ((← get).children n)
  | .live => return .nodes (← get).live
  | .preorder => return .nodes (← get).preorder
  | .size => return .number (← get).size
  | .display show' => return .text ((← get).display show')

/-- What a call answers and makes of an arena, if it is not refused. -/
def outcome (a : Arena α) : Call α → Except Unissued (Answer α × Arena α)
  | .edit (.setRoot v) => .ok (.done, a.setRoot v)
  | .edit (.add v p) => (a.add v p).map fun b => (.number a.size, b)
  | .edit (.setValue n v) => (a.setValue n v).map fun b => (.done, b)
  | .edit (.delete n) => (a.delete n).map fun b => (.done, b)
  | .value n => (a.value? n).map fun v => (.value v, a)
  | .isLive n => (a.isLive n).map fun live => (.mark live, a)
  | .parent n => (a.parent n).map fun p => (.number p, a)
  | .children n => .ok (.numbers (a.children n), a)
  | .live => .ok (.nodes a.live, a)
  | .preorder => .ok (.nodes a.preorder, a)
  | .size => .ok (.number a.size, a)
  | .display show' => .ok (.text (a.display show'), a)

def number? : Call α → Option Int
  | .edit (.add _ n) | .edit (.setValue n _) | .edit (.delete n) => some n
  | .value n | .isLive n | .parent n | .children n => some n
  | _ => none

def after (a : Arena α) (call : Call α) : Arena α :=
  match call.run a with
  | .ok _ b => b
  | .error _ b => b

end Call

theorem look_bind {β : Type} (n : Int) (f : Slot α → Access α β) (a : Arena α) :
    (look n >>= f) a = match a.slot n with
      | .ok s => f s a
      | .error e => .error e a := by
  change EStateM.bind (look n) f a = _
  unfold EStateM.bind look
  cases a.slot n <;> rfl

theorem forall_mem_childIds (a : Arena α) (n : Int) :
    ∀ m ∈ a.childIds n, ∃ k : Nat, m = k ∧ k < a.size := by
  intro m hm
  obtain ⟨k, s, rfl, hs, -⟩ := mem_childIds_iff.1 hm
  exact ⟨k, rfl, (Array.getElem?_eq_some_iff.1 hs).1⟩

theorem bury_cons_live (hs : a.slots[n]? = some s) (hlive : s.live = true) (pending : List Nat) :
    a.bury (n :: pending) =
      (a.kill n s).bury (((a.kill n s).children n).reverse ++ pending) := by
  rw [bury]
  split
  · next t ht =>
    cases hs.symm.trans ht
    rw [dif_pos hlive]
  · next ht => cases hs.symm.trans ht

theorem bury_cons_dead (hs : a.slots[n]? = some s) (hdead : ¬ s.live = true) (pending : List Nat) :
    a.bury (n :: pending) = a.bury pending := by
  rw [bury]
  split
  · next t ht =>
    cases hs.symm.trans ht
    rw [dif_neg hdead]
  · rfl

/-- From numbers that were given out, only such numbers become pending. -/
theorem sweepFrom_eq (a : Arena α) (pending : List Int)
    (h : ∀ m ∈ pending, ∃ k : Nat, m = k ∧ k < a.size) :
    a.sweepFrom pending = .ok () (a.bury (pending.map Int.toNat)) := by
  fun_induction sweepFrom a pending with
  | case1 a => simp [bury]
  | case2 a n pending s hs hlive b _ ih =>
    obtain ⟨k, rfl, hslot⟩ := slot_eq_ok_iff_slots.1 hs
    have hpending : ∀ m ∈ (b.childIds k).reverse ++ pending, ∃ k : Nat, m = k ∧ k < b.size := by
      intro m hm
      rcases List.mem_append.1 hm with hm | hm
      · exact b.forall_mem_childIds k m (List.mem_reverse.1 hm)
      · obtain ⟨j, hj, hlt⟩ := h m (List.mem_cons_of_mem _ hm)
        exact ⟨j, hj, by rwa [size_kill]⟩
    have hchildren : (b.childIds k).map Int.toNat = b.children k := by
      simp [childIds, Function.comp_def]
    rw [ih hpending, List.map_cons, Int.toNat_natCast, bury_cons_live hslot hlive, List.map_append,
      List.map_reverse, hchildren]
    rfl
  | case3 a n pending s hs hdead ih =>
    obtain ⟨k, rfl, hslot⟩ := slot_eq_ok_iff_slots.1 hs
    rw [ih fun m hm => h m (List.mem_cons_of_mem _ hm), List.map_cons, Int.toNat_natCast,
      bury_cons_dead hslot hdead]
  | case4 a n pending e hs =>
    obtain ⟨k, rfl, hlt⟩ := h n List.mem_cons_self
    obtain ⟨-, hout⟩ := slot_eq_error_iff.1 hs
    omega

/-- A deletion is noticed to be wrong before anything is marked. -/
theorem sweep_singleton (n : Int) (a : Arena α) :
    sweep [n] a = match a.delete n with
      | .ok b => .ok () b
      | .error e => .error e a := by
  rw [sweep, delete]
  cases hs : a.slot n with
  | error e =>
    rw [sweepFrom]
    split
    · next ht => cases hs.symm.trans ht
    · next ht =>
      cases hs.symm.trans ht
      rfl
  | ok s =>
    obtain ⟨k, rfl, hslot⟩ := slot_eq_ok_iff_slots.1 hs
    obtain ⟨hlt, -⟩ := Array.getElem?_eq_some_iff.1 hslot
    rw [sweepFrom_eq a [(k : Int)] (List.forall_mem_singleton.2 ⟨k, rfl, hlt⟩)]
    rfl

theorem Call.run_eq (call : Call α) (a : Arena α) :
    call.run a = match call.outcome a with
      | .ok (x, b) => .ok x b
      | .error e => .error e a := by
  cases call with
  | edit e =>
    cases e with
    | setRoot v => rfl
    | add v p =>
      rw [run, look_bind, outcome, Arena.add]
      cases a.slot p <;> rfl
    | setValue n v =>
      rw [run, look_bind, outcome, Arena.setValue]
      cases a.slot n with
      | error => rfl
      | ok s =>
        obtain ⟨_, live, _⟩ := s
        cases live <;> rfl
    | delete n =>
      have hsweep := sweep_singleton n a
      cases hdelete : a.delete n with
      | error e =>
        rw [hdelete] at hsweep
        rw [run, bind_of_error hsweep, outcome, hdelete]
        rfl
      | ok b =>
        rw [hdelete] at hsweep
        rw [run, bind_of_ok hsweep, outcome, hdelete]
        rfl
  | value n =>
    rw [run, look_bind, outcome, Arena.value?]
    cases a.slot n <;> rfl
  | isLive n =>
    rw [run, look_bind, outcome, Arena.isLive]
    cases a.slot n <;> rfl
  | parent n =>
    rw [run, look_bind, outcome, Arena.parent]
    cases a.slot n <;> rfl
  | children n => rfl
  | live => rfl
  | preorder => rfl
  | size => rfl
  | display show' => rfl

theorem map_eq_error_iff {ε β γ : Type} {f : β → γ} {x : Except ε β} {e : ε} :
    x.map f = .error e ↔ x = .error e := by
  cases x <;> simp [Except.map]

theorem slot_refused_iff {n : Int} {e : Unissued} :
    a.slot n = .error e ↔ some n = some e.id ∧ (e.id < 0 ∨ (a.size : Int) ≤ e.id) := by
  rw [slot_eq_error_iff]
  constructor
  · rintro ⟨rfl, hout⟩
    exact ⟨rfl, hout⟩
  · rintro ⟨⟨⟩, hout⟩
    exact ⟨rfl, hout⟩

namespace Call

theorem outcome_eq_error_iff {call : Call α} {e : Unissued} :
    call.outcome a = .error e ↔
      call.number? = some e.id ∧ (e.id < 0 ∨ (a.size : Int) ≤ e.id) ∧ ∀ n, call ≠ .children n := by
  cases call with
  | edit d =>
    cases d <;>
      simp [outcome, Arena.add, Arena.setValue, Arena.delete, map_eq_error_iff, slot_refused_iff,
        number?]
  | value | isLive | parent =>
    simp [outcome, Arena.value?, Arena.isLive, Arena.parent, map_eq_error_iff, slot_refused_iff,
      number?]
  | children => simp [outcome]
  | live | preorder | size | display => simp [outcome, number?]

theorem run_eq_error_iff {call : Call α} {e : Unissued} :
    call.run a = .error e c ↔ c = a ∧ call.outcome a = .error e := by
  rw [run_eq]
  cases h : call.outcome a with
  | ok x => simp
  | error d => simp [eq_comm, and_comm]

theorem after_edit (e : Edit α) (a : Arena α) : (edit e).after a = a.apply e := by
  rw [after, run_eq]
  cases e with
  | setRoot v => rfl
  | add v p =>
    rw [outcome, Arena.apply]
    cases a.add v p <;> rfl
  | setValue n v =>
    rw [outcome, Arena.apply]
    cases a.setValue n v <;> rfl
  | delete n =>
    rw [outcome, Arena.apply]
    cases a.delete n <;> rfl

/-- Reading changes nothing. -/
theorem after_of_read {call : Call α} (h : ∀ e, call ≠ edit e) (a : Arena α) : call.after a = a := by
  rw [after, run_eq]
  cases call with
  | edit e => exact absurd rfl (h e)
  | value n =>
    rw [outcome]
    cases a.value? n <;> rfl
  | isLive n =>
    rw [outcome]
    cases a.isLive n <;> rfl
  | parent n =>
    rw [outcome]
    cases a.parent n <;> rfl
  | _ => rfl

end Call

/-- What the slots of `a` are in `b`, which the calls made of `a`. -/
structure Lasts (calls : List (Call α)) (a b : Arena α) : Prop where
  size_le : a.size ≤ b.size
  parent : ∀ (i : Nat) (s : Slot α), a.slots[i]? = some s →
    ∃ t, b.slots[i]? = some t ∧ t.parent = s.parent
  dead : ∀ (i : Nat) (s : Slot α), a.slots[i]? = some s → s.live = false →
    (i = 0 → ∀ v, .edit (.setRoot v) ∉ calls) → b.slots[i]? = some s

namespace Lasts

variable {calls more : List (Call α)}

theorem of_extends (h : a.Extends b) : Lasts calls a b where
  size_le := h.size_le
  parent i s hs := ⟨s, h i s hs, rfl⟩
  dead i s hs _ _ := h i s hs

theorem trans (h : Lasts calls a b) (h' : Lasts more b c) : Lasts (calls ++ more) a c where
  size_le := Nat.le_trans h.size_le h'.size_le
  parent i s hs := by
    obtain ⟨t, ht, hparent⟩ := h.parent i s hs
    obtain ⟨u, hu, hparent'⟩ := h'.parent i t ht
    exact ⟨u, hu, hparent'.trans hparent⟩
  dead i s hs hdead hroot := by
    have hb := h.dead i s hs hdead fun hi v hv => hroot hi v (List.mem_append_left _ hv)
    exact h'.dead i s hb hdead fun hi v hv => hroot hi v (List.mem_append_right _ hv)

theorem setRoot (ha : a.Ordered) (v : α) : Lasts [.edit (.setRoot v)] a (a.setRoot v) := by
  unfold Arena.setRoot
  split
  · next hempty =>
    have hnone : ∀ (i : Nat) (s : Slot α), a.slots[i]? ≠ some s := by simp_all
    exact of_extends fun i s hs => absurd hs (hnone i s)
  · next hne =>
    have hpos : 0 < a.slots.size := Array.size_pos_iff.2 (by simpa using hne)
    refine ⟨by simp [size], fun i s hs => ?_, fun i s hs _ hroot => ?_⟩
    · rcases Nat.eq_zero_or_pos i with rfl | hi
      · exact ⟨_, Array.getElem?_setIfInBounds_self_of_lt hpos, (ha.root s hs).symm⟩
      · exact ⟨s, (Array.getElem?_setIfInBounds_ne (by omega)).trans hs, rfl⟩
    · have hi : 0 ≠ i := fun hi => hroot hi.symm v (List.mem_singleton.2 rfl)
      exact (Array.getElem?_setIfInBounds_ne hi).trans hs

theorem setValue {m : Int} {v : α} (h : a.setValue m v = .ok b) : Lasts calls a b := by
  obtain ⟨n, u, rfl, -⟩ := setValue_eq_ok h
  refine ⟨Nat.le_of_eq (size_setValue h).symm, fun i s hs => ?_, fun i s hs hdead _ => ?_⟩
  · obtain ⟨t, ht, -, hparent⟩ := exists_slot_setValue h hs
    exact ⟨t, ht, hparent⟩
  · by_cases hi : i = n
    · subst hi
      rw [slots_of_setValue_at h hs, hdead, if_neg Bool.false_ne_true]
    · exact (slots_of_setValue h i hi).trans hs

theorem buries {dead : Nat → Prop} (h : a.Buries b dead) : Lasts calls a b := by
  refine ⟨Nat.le_of_eq h.size.symm, fun i s hs => ?_, fun i s hs hdead _ => ?_⟩
  · obtain ⟨t, ht, -, hparent, -⟩ := h.slot i s hs
    exact ⟨t, ht, hparent⟩
  · obtain ⟨⟨v, live, p⟩, ht, rfl, rfl, hlive⟩ := h.slot i s hs
    have hsame : live = s.live := by
      rw [hdead, Bool.eq_false_iff]
      exact fun htrue => Bool.false_ne_true (hdead.symm.trans (hlive.1 htrue).1)
    rw [ht, hsame]

theorem apply (ha : a.Ordered) (e : Edit α) : Lasts [.edit e] a (a.apply e) := by
  cases e with
  | setRoot v => exact setRoot ha v
  | add v p =>
    change Lasts _ a ((a.add v p).toOption.getD a)
    cases h : a.add v p with
    | error _ => exact of_extends (Extends.refl a)
    | ok b => exact of_extends (extends_of_add h)
  | setValue n v =>
    change Lasts _ a ((a.setValue n v).toOption.getD a)
    cases h : a.setValue n v with
    | error _ => exact of_extends (Extends.refl a)
    | ok b => exact setValue h
  | delete n =>
    change Lasts _ a ((a.delete n).toOption.getD a)
    unfold Arena.delete
    cases a.slot n with
    | error _ => exact of_extends (Extends.refl a)
    | ok s => exact buries (buries_bury a [n.toNat])

end Lasts

theorem Ordered.after (ha : a.Ordered) (call : Call α) : (call.after a).Ordered := by
  by_cases h : ∃ e, call = .edit e
  · obtain ⟨e, rfl⟩ := h
    rw [Call.after_edit]
    exact ha.apply e
  · rwa [Call.after_of_read fun e he => h ⟨e, he⟩]

theorem Lasts.after (ha : a.Ordered) (call : Call α) : Lasts [call] a (call.after a) := by
  by_cases h : ∃ e, call = .edit e
  · obtain ⟨e, rfl⟩ := h
    rw [Call.after_edit]
    exact Lasts.apply ha e
  · rw [Call.after_of_read fun e he => h ⟨e, he⟩]
    exact of_extends (Extends.refl a)

theorem Ordered.afterAll (ha : a.Ordered) (calls : List (Call α)) :
    (calls.foldl Call.after a).Ordered := by
  induction calls generalizing a with
  | nil => exact ha
  | cons call calls ih => exact ih (ha.after call)

theorem Lasts.afterAll (ha : a.Ordered) (calls : List (Call α)) :
    Lasts calls a (calls.foldl Call.after a) := by
  induction calls generalizing a with
  | nil => exact of_extends (Extends.refl a)
  | cons call calls ih => exact (Lasts.after ha call).trans (ih (ha.after call))

/-- The arena before all calls: an empty one, or one with a root. -/
def start : Option α → Arena α
  | none => empty
  | some root => ofRoot root

theorem ordered_start (root : Option α) : (start root).Ordered := by
  cases root with
  | none => exact .empty
  | some root => exact .ofRoot root

/-- A number that was never given out is the parent of nothing. -/
theorem children_eq_nil {n : Int} (h : n < 0 ∨ (a.size : Int) ≤ n) : a.children n = [] := by
  refine List.eq_nil_iff_forall_not_mem.2 fun i hi => ?_
  have hlt := mem_children hi
  obtain ⟨s, -, -, hparent, -⟩ := isChild_eq_true_iff.1 (mem_children_iff.1 hi)
  omega

/-- Whatever calls came before, and whatever calls come after: the root is its own parent, and every
other parent came before its child; no slot goes away or changes its parent; a dead slot stays as it
is, but for the root, which a new root replaces. A node that is added has the number of slots as its
number. A call is refused exactly if it names a number that was never given out and does not ask for
its children, and then it changes nothing; such a number has no children. -/
theorem numbers_stay (root : Option α) (before after : List (Call α)) (call : Call α) :
    let a := before.foldl Call.after (start root)
    let b := after.foldl Call.after a
    a.Ordered ∧ Lasts after a b ∧
      (∀ v p x c, call = .edit (.add v p) → call.run a = .ok x c →
        x = .number a.size ∧ c.slots = a.slots.push ⟨v, true, p.toNat⟩) ∧
      (∀ e c, call.run a = .error e c ↔ c = a ∧ call.number? = some e.id ∧
        (e.id < 0 ∨ (a.size : Int) ≤ e.id) ∧ ∀ n, call ≠ .children n) ∧
      ∀ n : Int, n < 0 ∨ (a.size : Int) ≤ n → (Call.children n).run a = .ok (.numbers []) a := by
  intro a b
  have ha : a.Ordered := (ordered_start root).afterAll before
  refine ⟨ha, Lasts.afterAll ha after, fun v p x c hcall hrun => ?_, fun e c => ?_, fun n hn => ?_⟩
  · subst hcall
    rw [Call.run_eq, Call.outcome] at hrun
    cases hadd : a.add v p with
    | error e =>
      rw [hadd] at hrun
      cases hrun
    | ok d =>
      rw [hadd] at hrun
      cases hrun
      exact ⟨rfl, (slots_of_add hadd).2.2⟩
  · rw [Call.run_eq_error_iff, Call.outcome_eq_error_iff]
  · rw [Call.run_eq, Call.outcome, children_eq_nil hn]

/-- A number that was never given out can be asked for its children, but not for its parent. -/
theorem unissued_children_listed :
    (Call.children 1).run (ofRoot "r") = .ok (.numbers []) (ofRoot "r") ∧
      (Call.parent 1).run (ofRoot "r") = .error ⟨1⟩ (ofRoot "r") := by
  have h := numbers_stay (some "r") [] [] (.parent 1)
  obtain ⟨-, -, -, hrefused, hchildren⟩ := h
  exact ⟨hchildren 1 (.inr (by decide)),
    (hrefused ⟨1⟩ _).2 ⟨rfl, rfl, .inr (by decide), by simp⟩⟩

end LetLang.Arena
