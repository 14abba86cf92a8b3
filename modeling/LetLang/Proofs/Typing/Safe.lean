import LetLang.Proofs.Evaluation.Nodes
import LetLang.Proofs.Step
import LetLang.Proofs.Typing.Agreement
import LetLang.Session

/-!
# Safe steps

A step is safe when from an environment of one typing it reaches an environment of another typing
with a value of which something holds, or stops. Under a strict policy it does not stop with a
failure of the program that is run.
-/

namespace LetLang.Typing

open Evaluation (Frame fail look inCall lift)
open Policy (EnvTyped)

variable {α β : Type} {π : Policy}

def Allowed (π : Policy) (e : RunError) : Prop := π.strict = true → e.stage? ≠ some .interpret

theorem allowed_of_stage? {e : RunError} (h : e.stage? ≠ some .interpret) : Allowed π e :=
  fun _ => h

/-- A value without a text is no fault of the program that is run. -/
theorem allowed_unwritten (v : Value) : Allowed π (.unwritten v) := allowed_of_stage? nofun

theorem allowed_showing {e : RunError} (h : Allowed π e) (vs : List Value) :
    Allowed π (.showing vs e) :=
  Evaluation.showing_holds h (fun v _ => allowed_unwritten v) vs

/-- The result is a value with the property in a typed environment, or an allowed failure. -/
inductive ResultSafe (π : Policy) (bound : Table String Ty) (R : α → Prop) :
    EStateM.Result Halt Frame α → Prop
  | ok {a : α} {f : Frame} : R a → π.EnvTyped bound f.environment → ResultSafe π bound R (.ok a f)
  | failed {e : RunError} {f : Frame} : Allowed π e → ResultSafe π bound R (.error (.failed e) f)
  | outOfFuel {f : Frame} : ResultSafe π bound R (.error .outOfFuel f)

/-- From the typing `bound` of the environment the step reaches the typing `bound'`, with a value
that has the property. -/
def Safe (π : Policy) (bound : Table String Ty) (x : Evaluation.Step α) (bound' : Table String Ty)
    (R : α → Prop) : Prop :=
  ∀ f : Frame, π.EnvTyped bound f.environment → ResultSafe π bound' R (x f)

namespace Safe

variable {b b' b₁ : Table String Ty} {R : α → Prop} {S : β → Prop} {x : Evaluation.Step α}

theorem pure {a : α} (h : R a) : Safe π b (pure a) b R := fun _ hf => .ok h hf

theorem fail {e : RunError} (h : Allowed π e) : Safe π b (fail e) b' R := fun _ _ => .failed h

theorem outOfFuel : Safe π b (throw .outOfFuel) b' R := fun _ _ => .outOfFuel

theorem bind {p : α → Evaluation.Step β} (h : Safe π b x b₁ R)
    (hp : ∀ a, R a → Safe π b₁ (p a) b' S) : Safe π b (x >>= p) b' S := by
  intro f hf
  have hx := h f hf
  change ResultSafe π b' S (EStateM.bind x p f)
  unfold EStateM.bind
  generalize x f = r at hx
  cases hx with
  | ok ha hg => exact hp _ ha _ hg
  | failed he => exact .failed he
  | outOfFuel => exact .outOfFuel

theorem mono {R' : α → Prop} (h : Safe π b x b' R) (hR : ∀ a, R a → R' a) : Safe π b x b' R' := by
  intro f hf
  have hx := h f hf
  generalize x f = r at hx
  cases hx with
  | ok ha hg => exact .ok (hR _ ha) hg
  | failed he => exact .failed he
  | outOfFuel => exact .outOfFuel

/-- A variable that is seen at a type is bound to a value of the type, unless the policy allows that
it is missing. -/
theorem look {name : String} {u : Ty} (h : π.Sees u (b.get? name)) :
    Safe π b (look name) b fun o =>
      (∃ v, o = some v ∧ v.Fits π.loose u) ∨ o = none ∧ π.strict = false := by
  intro f hf
  refine .ok ?_ hf
  obtain ⟨htype, hsome⟩ := h
  cases hv : f.environment.get? name with
  | some v =>
    left
    cases hu : b.get? name with
    | some t =>
      obtain rfl := htype t hu
      exact ⟨v, rfl, hf.fits name v t hv hu⟩
    | none =>
      cases hstrict : π.strict with
      | false => exact absurd (hf.known hstrict name hu) (by simp [hv])
      | true => exact absurd (hsome hstrict) (by simp [hu])
  | none =>
    right
    refine ⟨rfl, ?_⟩
    cases hstrict : π.strict with
    | false => rfl
    | true => exact absurd (hsome hstrict) (by simp [hf.present hstrict name hv])

theorem bindName {name : String} {v : Value} {u : Ty} (h : v.Fits π.loose u) :
    Safe π b (Evaluation.bind name v) (b.insert name u) fun _ => True :=
  fun _ hf => .ok trivial (hf.insert h)

theorem print (s : String) : Safe π b (Evaluation.print s) b fun _ => True :=
  fun _ hf => .ok trivial hf

theorem lift {r : Except RunError α} (hok : ∀ a, r = .ok a → R a)
    (herror : ∀ e, r = .error e → Allowed π e) : Safe π b (lift r) b R := by
  cases r with
  | ok a => exact pure (hok a rfl)
  | error e => exact fail (herror e rfl)

/-- A call leaves the environment of its caller as it was. -/
theorem inCall {e : Environment} (he : π.EnvTyped b₁ e) (h : Safe π b₁ x b' R) :
    Safe π b (inCall e x) b R := by
  intro f hf
  have hx := h ⟨e, f.printed⟩ he
  unfold Evaluation.inCall
  generalize x ⟨e, f.printed⟩ = r at hx
  cases hx with
  | ok ha _ => exact .ok ha hf
  | failed he => exact .failed he
  | outOfFuel => exact .outOfFuel

end Safe

end LetLang.Typing
