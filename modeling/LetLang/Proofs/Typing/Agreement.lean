import LetLang.Proofs.Typing.Inhabits

/-!
# Where the check and the evaluation agree

The check knows every variable of the file, an evaluation only those of the call at hand, and it
looks callees up by name. A policy says at which sites of a program both have to see the same.
-/

namespace LetLang.Typing

/-- How closely the check and the evaluation have to agree. -/
structure Policy where
  /-- What is read, applied or calculated with has to be there and of the right form. -/
  strict : Bool
  /-- The first function may read the names of functions as variables. -/
  functionsBound : Bool
  /-- The types at which an empty array may stand besides the array types of length 0. -/
  loose : Ty → Bool
  functionsBound_of_not_strict : strict = false → functionsBound = true
  not_loose_of_strict : ∀ a, a.isInteger = true → strict = true → loose (.atom a) = false

namespace Policy

/-- Evaluations that end have to give values of their types. -/
def preserving : Policy where
  strict := false
  functionsBound := true
  loose _ := false
  functionsBound_of_not_strict _ := rfl
  not_loose_of_strict _ _ h := absurd h (by decide)

/-- Evaluations have to go on until they end with a value or leave the program for good reasons. -/
def progressing (functionsBound : Bool) : Policy where
  strict := true
  functionsBound := functionsBound
  loose
    | .atom a => !a.isInteger
    | _ => true
  functionsBound_of_not_strict h := absurd h (by decide)
  not_loose_of_strict a ha _ := by simp [ha]

variable (π : Policy)

/-- What is found, if anything, has the type `u`. A strict policy asks that something is found. -/
def Sees (u : Ty) (o : Option Ty) : Prop :=
  (∀ v, o = some v → v = u) ∧ (π.strict = true → o.isSome = true)

theorem sees_some (u : Ty) : π.Sees u (some u) := by
  constructor
  · intro v hv
    cases hv
    rfl
  · intro _
    rfl

/-- The check and the evaluation agree at a site, where the program has functions of these types. -/
def Agrees (functions : Table String Ty) : Site → Prop
  | .read _ u bound => π.Sees u bound
  | .applied x u => π.Sees u (functions.get? x) ∧
      (π.strict = true → π.functionsBound = true → x ≠ Evaluation.entryName)
  | .emptyArray u => π.loose u = true ∨ ∃ e, u = .array e 0
  | .operands u => π.strict = true → ∃ a, u = .atom a ∧ a.isInteger = true
  | .position o => π.strict = true → ∃ a, o = some (.atom a) ∧ a.isInteger = true
  | .localFunction _ => π.strict = false

/-- The variables besides the parameters with which a call of a function begins. -/
def base (functions : Table String Ty) (x : String) : Table String Ty :=
  if π.functionsBound = true ∧ x = Evaluation.entryName then functions else ∅

theorem base_eq_empty {functions : Table String Ty} {x : String}
    (h : π.functionsBound = true → x ≠ Evaluation.entryName) : π.base functions x = ∅ := by
  unfold base
  rw [if_neg]
  rintro ⟨hbound, hx⟩
  exact h hbound hx

/-- The variables that are bound in an environment have values of their types. Under a strict policy
all variables that should be bound are; otherwise only those are that should be. -/
structure EnvTyped (bound : Table String Ty) (e : Environment) : Prop where
  fits : ∀ x v u, e.get? x = some v → bound.get? x = some u → v.Fits π.loose u
  known : π.strict = false → ∀ x, bound.get? x = none → e.get? x = none
  present : π.strict = true → ∀ x, e.get? x = none → bound.get? x = none

variable {π} {bound : Table String Ty} {e : Environment}

/-- An environment without variables has the typings without variables, and if the policy is not
strict all others. -/
theorem EnvTyped.empty (h : π.strict = true → bound = ∅) : π.EnvTyped bound ∅ := by
  constructor
  · intro x v u hv
    rw [Table.get?_empty] at hv
    cases hv
  · intro _ x _
    exact Table.get?_empty x
  · intro hstrict x _
    rw [h hstrict, Table.get?_empty]

theorem EnvTyped.insert {x : String} {v : Value} {u : Ty} (h : π.EnvTyped bound e)
    (hv : v.Fits π.loose u) : π.EnvTyped (bound.insert x u) (e.insert x v) := by
  constructor
  · intro y w t hw ht
    rw [Table.get?_insert] at hw ht
    split at hw
    · next hy =>
      rw [if_pos hy] at ht
      cases hw
      cases ht
      exact hv
    · next hy =>
      rw [if_neg hy] at ht
      exact h.fits y w t hw ht
  · intro hstrict y hy
    rw [Table.get?_insert] at hy ⊢
    split at hy
    · cases hy
    · next hne =>
      rw [if_neg hne]
      exact h.known hstrict y hy
  · intro hstrict y hy
    rw [Table.get?_insert] at hy ⊢
    split at hy
    · cases hy
    · next hne =>
      rw [if_neg hne]
      exact h.present hstrict y hy

theorem EnvTyped.insertAll {vs : List (String × Value)} {es : List (String × Ty)}
    (h : π.EnvTyped bound e) (hes : List.Forall₂ (EntryFits π.loose) vs es) :
    π.EnvTyped (bound.insertAll es) (e.insertAll vs) := by
  induction hes generalizing bound e with
  | nil => exact h
  | @cons v t vs es hv _ ih =>
    obtain ⟨x, w⟩ := v
    obtain ⟨y, u⟩ := t
    obtain ⟨rfl, hfits⟩ := hv
    exact ih (h.insert hfits)

end Policy

end LetLang.Typing
