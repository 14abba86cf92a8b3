import LetLang.Proofs.Evaluation.Direct
import LetLang.Proofs.Evaluation.Nodes

/-!
# Fuel

A run that ends with some fuel ends in the same way with more, so how a run ends does not depend on
the fuel. A run that ends with no fuel at all goes on for ever.
-/

namespace LetLang.Evaluation

variable {α β : Type}

/-- With enough fuel the run ends with this outcome. -/
def Ends (run : Nat → Outcome) (o : Outcome) : Prop :=
  o.result ≠ .error .outOfFuel ∧ ∃ n, ∀ fuel, n ≤ fuel → run fuel = o

/-- No fuel is enough for the run. -/
def Diverges (run : Nat → Outcome) : Prop := ∀ fuel, (run fuel).result = .error .outOfFuel

/-- One unit of fuel more changes an outcome only if the fuel was used up. -/
def Stable (run : Nat → Outcome) : Prop :=
  ∀ fuel, (run fuel).result ≠ .error .outOfFuel → run (fuel + 1) = run fuel

theorem Stable.ends {run : Nat → Outcome} (h : Stable run) {fuel : Nat}
    (hfuel : (run fuel).result ≠ .error .outOfFuel) : Ends run (run fuel) := by
  refine ⟨hfuel, fuel, fun more hle => ?_⟩
  induction hle with
  | refl => rfl
  | step _ ih => rw [h _ (by rwa [ih]), ih]

/-- If two runs agree for every fuel, the second one ends where the first one does. -/
theorem Ends.exists_of_agree {run run' : Nat → Outcome} {V : Outcome → Outcome → Prop}
    (hs : Stable run') (hV : ∀ fuel, V (run fuel) (run' fuel))
    (hfuel : ∀ o o', V o o' → (o.result = .error .outOfFuel ↔ o'.result = .error .outOfFuel))
    {o : Outcome} (h : Ends run o) : ∃ o', Ends run' o' ∧ V o o' := by
  obtain ⟨hne, n, hn⟩ := h
  have hVn := hV n
  rw [hn n (Nat.le_refl n)] at hVn
  have hne' : (run' n).result ≠ .error .outOfFuel := fun hout => hne ((hfuel _ _ hVn).2 hout)
  exact ⟨run' n, hs.ends hne', hVn⟩

/-- `y` does what `x` does, unless `x` runs out of fuel. -/
def Continues (x y : Step α) : Prop := ∀ f, (∃ g, x f = .error .outOfFuel g) ∨ y f = x f

namespace Continues

variable {x y : Step α}

theorem refl (x : Step α) : Continues x x := fun _ => .inr rfl

theorem outOfFuel : Continues (throw .outOfFuel) x := fun f => .inl ⟨f, rfl⟩

theorem bind {p q : α → Step β} (h : Continues x y) (hpq : ∀ a, Continues (p a) (q a)) :
    Continues (x >>= p) (y >>= q) := by
  intro f
  change (∃ g, EStateM.bind x p f = .error .outOfFuel g) ∨ EStateM.bind y q f = EStateM.bind x p f
  unfold EStateM.bind
  rcases h f with ⟨g, hx⟩ | hxy
  · left
    exact ⟨g, by rw [hx]⟩
  · rw [hxy]
    cases x f with
    | ok a g => exact hpq a g
    | error e g => exact .inr rfl

theorem inCall (e : Environment) (h : Continues x y) : Continues (inCall e x) (inCall e y) := by
  intro f
  unfold Evaluation.inCall
  rcases h ⟨e, f.printed⟩ with ⟨g, hx⟩ | hxy
  · left
    exact ⟨_, by rw [hx]⟩
  · right
    rw [hxy]

theorem congruence : Congruence fun _ => Continues where
  pure a := refl (Pure.pure a)
  bind := bind

section
variable {ι : Type} {run run' : ι → Step Value} (h : ∀ i, Continues (run i) (run' i))
include h

theorem inSequence (is : List ι) : Continues (inSequence run is) (inSequence run' is) :=
  congruence.inSequence run run' (List.forall₂_same.2 fun i _ => h i) (refl _)

theorem inOrder (is : List ι) : Continues (inOrder run is) (inOrder run' is) :=
  congruence.inOrder run run' (List.forall₂_same.2 fun i _ => h i)

end

end Continues

theorem nodeCongruence_continues (files : Files) : NodeCongruence files fun _ => Continues where
  toCongruence := Continues.congruence
  fail _ _ := .refl _

theorem continues_enter {m : Machine} {run run' : Int → Step Value}
    (h : ∀ i, Continues (run i) (run' i)) (f : Function) :
    Continues (enter m run f) (enter m run' f) :=
  (nodeCongruence_continues m.files).enter run run' (fun _ => .refl _) h f

theorem continues_call {m : Machine} {run run' : Int → Step Value}
    (h : ∀ i, Continues (run i) (run' i)) (x : String) (v : Value) :
    Continues (call m run x v) (call m run' x v) :=
  (nodeCongruence_continues m.files).call run run' (fun f e _ => (continues_enter h f).inCall e) v

theorem continues_evaluate (m : Machine) (fuel : Nat) :
    ∀ id, Continues (evaluate m fuel id) (evaluate m (fuel + 1) id) := by
  induction fuel with
  | zero => exact fun _ => .outOfFuel
  | succ fuel ih =>
    intro id
    exact (nodeCongruence_continues m.files).evaluate fuel (fuel + 1) (fun _ _ i _ => ih i)
      (fun _ _ => .refl _) (fun _ _ _ _ _ _ _ => .refl _) fun _ _ x _ _ v => continues_call ih x v

theorem continues_runEntry (m : Machine) (fuel : Nat) :
    Continues (runEntry m fuel) (runEntry m (fuel + 1)) := by
  unfold runEntry
  cases m.program.get? entryName with
  | none => exact .refl _
  | some f =>
    exact (Continues.refl _).bind fun _ => (continues_enter (continues_evaluate m fuel) f).inCall _

theorem stable_run (m : Machine) : Stable (run m) := by
  intro fuel hfuel
  unfold run at *
  rcases continues_runEntry m fuel ⟨∅, ""⟩ with ⟨g, hg⟩ | heq
  · rw [hg] at hfuel
    exact absurd rfl hfuel
  · rw [heq]

end LetLang.Evaluation

namespace LetLang.Direct

open Evaluation (Step Continues Stable)

theorem continues_apply {w : World} {run run' : Tree String → Step Value}
    (h : ∀ t, Continues (run t) (run' t)) (x : String) (d : Definition) (v : Value) :
    Continues (apply w run x d v) (apply w run' x d v) := by
  cases d with
  | intrinsic => exact .refl _
  | written _ body => exact (Continues.refl _).bind fun e => (h body).inCall e

theorem continues_step {w : World} {run run' : Tree String → Step Value}
    (h : ∀ t, Continues (run t) (run' t)) (t : Tree String) :
    Continues (step w run t) (step w run' t) := by
  cases t with
  | bind id type value =>
    cases id with
    | identifier x =>
      cases value with
      | lambda => exact .refl _
      | _ => exact (h _).bind fun _ => .refl _
    | _ => exact .refl _
  | block ts => exact .inSequence h ts
  | binary left right op => exact (h left).bind fun _ => (h right).bind fun _ => .refl _
  | apply callee argument =>
    cases callee with
    | lambda ps body => exact (h argument).bind fun v => continues_apply h anonymous _ v
    | identifier x =>
      refine (h argument).bind fun v => ?_
      cases w.definitions.get? x with
      | none => exact .refl _
      | some d => exact continues_apply h x d v
    | _ => exact .refl _
  | tuple ts | array ts => exact (Continues.inOrder h ts).bind fun _ => .refl _
  | _ => exact .refl _

theorem continues_evaluate (w : World) (fuel : Nat) :
    ∀ t, Continues (evaluate w fuel t) (evaluate w (fuel + 1) t) := by
  induction fuel with
  | zero => exact fun _ => .outOfFuel
  | succ fuel ih => exact continues_step ih

theorem continues_runEntry (w : World) (fuel : Nat) :
    Continues (runEntry w fuel) (runEntry w (fuel + 1)) := by
  unfold runEntry
  cases w.definitions.get? Evaluation.entryName with
  | none => exact .refl _
  | some d =>
    cases d with
    | written ps body => exact (continues_evaluate w fuel body).inCall _
    | intrinsic i => exact .refl _

theorem stable_run (ts : List (Tree String)) (files : Files) : Stable (run ts files) := by
  intro fuel hfuel
  unfold run at *
  rcases continues_runEntry ⟨definitions ts, files⟩ fuel ⟨∅, ""⟩ with ⟨g, hg⟩ | heq
  · rw [hg] at hfuel
    exact absurd rfl hfuel
  · rw [heq]

end LetLang.Direct
