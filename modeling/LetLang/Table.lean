/-!
# Tables in order of insertion

A table pairs keys with values and remembers the order in which the keys came. A key that is entered
again keeps its place and takes the new value; a key that was erased and is entered again goes last.
-/

namespace LetLang

/-- A list of entries, read from the front. -/
structure Table (κ : Type) (α : Type) where
  entries : List (κ × α)
  deriving Repr

namespace Table

variable {κ α : Type} [DecidableEq κ]

def empty : Table κ α := ⟨[]⟩

instance : EmptyCollection (Table κ α) := ⟨empty⟩

instance : Inhabited (Table κ α) := ⟨empty⟩

def lookup (key : κ) : List (κ × α) → Option α
  | [] => none
  | (k, a) :: rest => if k = key then some a else lookup key rest

def enter (key : κ) (value : α) : List (κ × α) → List (κ × α)
  | [] => [(key, value)]
  | (k, a) :: rest => if k = key then (k, value) :: rest else (k, a) :: enter key value rest

def get? (t : Table κ α) (key : κ) : Option α := lookup key t.entries

def contains (t : Table κ α) (key : κ) : Bool := (t.get? key).isSome

def insert (t : Table κ α) (key : κ) (value : α) : Table κ α := ⟨enter key value t.entries⟩

def erase (t : Table κ α) (key : κ) : Table κ α := ⟨t.entries.filter fun e => e.1 ≠ key⟩

def keys (t : Table κ α) : List κ := t.entries.map Prod.fst

def size (t : Table κ α) : Nat := t.entries.length

/-- The table that a list of entries makes when they are entered one after the other. -/
def ofList (entries : List (κ × α)) : Table κ α :=
  entries.foldl (fun t e => t.insert e.1 e.2) ∅

theorem lookup_enter (key key' : κ) (value : α) (entries : List (κ × α)) :
    lookup key' (enter key value entries) =
      if key = key' then some value else lookup key' entries := by
  induction entries with
  | nil => simp [enter, lookup]
  | cons e rest ih =>
    obtain ⟨k, a⟩ := e
    by_cases hk : k = key <;> by_cases hk' : k = key' <;> simp_all [enter, lookup]
    · intro h
      exact absurd h.symm hk

@[simp] theorem get?_insert_self (t : Table κ α) (key : κ) (value : α) :
    (t.insert key value).get? key = some value := by
  simp [get?, insert, lookup_enter]

theorem get?_insert (t : Table κ α) (key key' : κ) (value : α) :
    (t.insert key value).get? key' = if key = key' then some value else t.get? key' := by
  simp [get?, insert, lookup_enter]

theorem get?_insert_of_ne (t : Table κ α) {key key' : κ} (value : α) (h : key ≠ key') :
    (t.insert key value).get? key' = t.get? key' := by
  simp [get?_insert, h]

@[simp] theorem get?_empty (key : κ) : (∅ : Table κ α).get? key = none := rfl

end Table

end LetLang
