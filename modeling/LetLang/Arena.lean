/-!
# Arenas

An arena keeps the nodes of one tree in slots. A node's number is its slot and stays the same; a
slot knows its parent, whose number is smaller, and only the root is its own parent. Deleting a
node marks it and the live nodes below it as dead; no slot ever goes away.

Numbers come from outside as integers, so that a number that was never given out can be named and
refused.
-/

namespace LetLang

def rootId : Int := 0

/-- The number that stands in a node for a child that is not known yet. -/
def placeholderId : Int := -1

/-- A node with its mark and its parent. -/
structure Slot (α : Type) where
  value : α
  live : Bool
  parent : Nat
  deriving Repr

/-- Nodes in order of creation. -/
structure Arena (α : Type) where
  slots : Array (Slot α)
  deriving Repr

/-- A number that the arena never gave out. -/
structure Unissued where
  id : Int
  deriving Repr, DecidableEq

def Unissued.message (e : Unissued) : String :=
  s!"Node id {e.id} was never issued by this tree"

namespace Arena

variable {α : Type}

def empty : Arena α := ⟨#[]⟩

def ofRoot (value : α) : Arena α := ⟨#[⟨value, true, 0⟩]⟩

/-- The number of slots, dead ones included. -/
def size (a : Arena α) : Nat := a.slots.size

def slot? (a : Arena α) (n : Int) : Option (Slot α) :=
  if n < 0 then none else a.slots[n.toNat]?

/-- The slot of a number, or the complaint that there is none. -/
def slot (a : Arena α) (n : Int) : Except Unissued (Slot α) :=
  match a.slot? n with
  | some s => .ok s
  | none => .error ⟨n⟩

theorem slot?_eq_none_iff {a : Arena α} {n : Int} :
    a.slot? n = none ↔ n < 0 ∨ (a.size : Int) ≤ n := by
  unfold slot? size
  split
  · simp_all
  · rw [Array.getElem?_eq_none_iff]
    omega

theorem slot_eq_ok_iff {a : Arena α} {n : Int} {s : Slot α} :
    a.slot n = .ok s ↔ a.slot? n = some s := by
  unfold slot
  cases a.slot? n <;> simp

/-- Exactly the numbers that were never given out are refused. -/
theorem slot_eq_error_iff {a : Arena α} {n : Int} {e : Unissued} :
    a.slot n = .error e ↔ e = ⟨n⟩ ∧ (n < 0 ∨ (a.size : Int) ≤ n) := by
  rw [← slot?_eq_none_iff]
  unfold slot
  cases a.slot? n <;> simp [eq_comm]

/-- Puts a live root into the arena, in place of the one that is there. -/
def setRoot (a : Arena α) (value : α) : Arena α :=
  if a.slots.isEmpty then ofRoot value else ⟨a.slots.setIfInBounds 0 ⟨value, true, 0⟩⟩

/-- Adds a node under a parent, dead or alive; its number is the size before. -/
def add (a : Arena α) (value : α) (parent : Int) : Except Unissued (Arena α) :=
  (a.slot parent).map fun _ => ⟨a.slots.push ⟨value, true, parent.toNat⟩⟩

/-- Replaces the value of a live node; a dead one keeps its value. -/
def setValue (a : Arena α) (n : Int) (value : α) : Except Unissued (Arena α) :=
  (a.slot n).map fun s =>
    if s.live then ⟨a.slots.setIfInBounds n.toNat { s with value }⟩ else a

theorem size_add {a b : Arena α} {value : α} {parent : Int} (h : a.add value parent = .ok b) :
    b.size = a.size + 1 := by
  unfold add at h
  cases hs : a.slot parent <;> rw [hs] at h <;>
    simp only [Except.map, reduceCtorEq, Except.ok.injEq] at h
  simp [← h, size]

theorem size_setValue {a b : Arena α} {n : Int} {value : α} (h : a.setValue n value = .ok b) :
    b.size = a.size := by
  unfold setValue at h
  cases hs : a.slot n <;> rw [hs] at h <;>
    simp only [Except.map, reduceCtorEq, Except.ok.injEq] at h
  subst h
  split <;> simp [size]

/-- The value of a node, if it is live. -/
def value? (a : Arena α) (n : Int) : Except Unissued (Option α) :=
  (a.slot n).map fun s => if s.live then some s.value else none

def isLive (a : Arena α) (n : Int) : Except Unissued Bool := (a.slot n).map Slot.live

def parent (a : Arena α) (n : Int) : Except Unissued Nat := (a.slot n).map Slot.parent

def numbered (a : Arena α) : List (Nat × Slot α) :=
  a.slots.toList.zipIdx.map fun p => (p.2, p.1)

/-- The live nodes in order of creation, with their values. -/
def live (a : Arena α) : List (Nat × α) :=
  a.numbered.filterMap fun p => if p.2.live then some (p.1, p.2.value) else none

/-- The slot is live and lies directly below `n`. -/
def isChild (a : Arena α) (n : Int) (i : Nat) : Bool :=
  match a.slots[i]? with
  | some s => s.live && s.parent = n && n < i
  | none => false

/-- The live nodes directly below a number, in order of creation. -/
def children (a : Arena α) (n : Int) : List Nat := (List.range a.size).filter (a.isChild n)

theorem mem_children {a : Arena α} {n : Int} {i : Nat} (h : i ∈ a.children n) :
    n < i ∧ i < a.size := by
  simp only [children, isChild, List.mem_filter, List.mem_range] at h
  refine ⟨?_, h.1⟩
  obtain ⟨_, h⟩ := h
  split at h
  · simp_all
  · simp at h

def liveCount (a : Arena α) : Nat := a.slots.countP Slot.live

/-- Marks the slot `n`, which holds `s`, as dead. -/
def kill (a : Arena α) (n : Nat) (s : Slot α) : Arena α :=
  ⟨a.slots.setIfInBounds n { s with live := false }⟩

theorem size_kill (a : Arena α) (n : Nat) (s : Slot α) : (a.kill n s).size = a.size := by
  simp [kill, size]

theorem liveCount_kill_lt {a : Arena α} {n : Nat} {s : Slot α} (hs : a.slots[n]? = some s)
    (hlive : s.live = true) : (a.kill n s).liveCount < a.liveCount := by
  obtain ⟨hlt, rfl⟩ := Array.getElem?_eq_some_iff.1 hs
  have hpos : 0 < a.slots.countP Slot.live :=
    Array.countP_pos_iff.2 ⟨_, Array.getElem_mem hlt, hlive⟩
  simp only [liveCount, kill, Array.setIfInBounds, hlt, dite_true, Array.countP_set, hlive]
  simp only [if_true, Bool.false_eq_true, if_false]
  omega

/-- Works through pending slots, the first one first. A live slot is marked as dead, and its
children become pending, the last one first; a dead slot is passed over, and so is what hangs below
it. -/
def bury (a : Arena α) : (pending : List Nat) → Arena α
  | [] => a
  | n :: pending =>
    match hs : a.slots[n]? with
    | some s =>
      if hlive : s.live then
        let b := a.kill n s
        have : b.liveCount < a.liveCount := liveCount_kill_lt hs hlive
        b.bury ((b.children n).reverse ++ pending)
      else a.bury pending
    | none => a.bury pending
termination_by pending => (a.liveCount, pending.length)

/-- Marks a live node and the live nodes below it as dead. A node that is dead already is left as it
is, and so are the nodes below it. -/
def delete (a : Arena α) (n : Int) : Except Unissued (Arena α) :=
  (a.slot n).map fun _ => a.bury [n.toNat]

/-- A node, and after it, for each child from the last to the first, all that hangs below it. -/
def preorderFrom (a : Arena α) (n : Nat) : List Nat :=
  n :: (a.children n).reverse.attach.flatMap fun c => a.preorderFrom c.1
termination_by a.size - n
decreasing_by
  have h := mem_children (List.mem_reverse.1 c.2)
  omega

/-- The live nodes, every parent before the nodes below it, with their values. -/
def preorder (a : Arena α) : List (Nat × α) :=
  match a.slots[0]? with
  | some root =>
    if root.live then
      (a.preorderFrom 0).filterMap fun n => a.slots[n]?.map fun s => (n, s.value)
    else []
  | none => []

/-- The text of an arena: its slots, dead ones included. -/
def display (show' : α → String) (a : Arena α) : String :=
  let slot (s : Slot α) : String :=
    "(" ++ show' s.value ++ ", " ++ (if s.live then "True" else "False") ++ s!", {s.parent})"
  "Tree [" ++ String.intercalate ", " (a.slots.toList.map slot) ++ "]"

end Arena

end LetLang
