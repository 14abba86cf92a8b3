import LetLang.Evaluation
import Mathlib.Data.List.Forall2

/-!
# Relations of steps

A relation of steps is a congruence if it holds of steps that are put together from related ones. It
then passes from the parts of a block, a tuple or an array to the whole, so that no relation of
evaluations needs an induction over the parts of its own.
-/

namespace LetLang.Evaluation

/-- The relation holds of equal values, and of a step and what follows it if it holds of both. -/
structure Congruence (R : (α : Type) → Step α → Step α → Prop) : Prop where
  pure : ∀ {α : Type} (a : α), R α (pure a) (pure a)
  bind : ∀ {α β : Type} {x y : Step α} {p q : α → Step β}, R α x y → (∀ a, R β (p a) (q a)) →
    R β (x >>= p) (y >>= q)

namespace Congruence

theorem eq : Congruence fun _ x y => x = y where
  pure _ := rfl
  bind h hpq := by rw [h, funext hpq]

section
variable {R : (α : Type) → Step α → Step α → Prop} (hR : Congruence R) {ι κ : Type}
  (run : ι → Step Value) (run' : κ → Step Value) {is : List ι} {js : List κ}
  (h : List.Forall₂ (fun i j => R Value (run i) (run' j)) is js)
include hR h

theorem inSequence (hempty : R Value (fail .emptySequence) (fail .emptySequence)) :
    R Value (inSequence run is) (inSequence run' js) := by
  induction h with
  | nil => exact hempty
  | @cons i j is js hij hrest ih =>
    cases hrest with
    | nil => exact hij
    | cons => exact hR.bind hij fun _ => ih

theorem inOrder : R (List Value) (inOrder run is) (inOrder run' js) := by
  induction h with
  | nil => exact hR.pure []
  | cons hij _ ih => exact hR.bind hij fun v => hR.bind ih fun vs => hR.pure (v :: vs)

end

end Congruence

end LetLang.Evaluation
