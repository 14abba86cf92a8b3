import LetLang.Proofs.Evaluation.Nodes
import LetLang.Proofs.Step

/-!
# Failures of evaluations

What an evaluation fails with is what one of its parts fails with: a node fails with what its
operands and its call fail with, and with complaints of its own, of which those about a file are
true. One consequence holds of every program: a complaint about a file is true.
-/

namespace LetLang

def Halt.By (P : RunError → Prop) : Halt → Prop
  | .failed e => P e
  | .outOfFuel => True

namespace Evaluation

variable {α β ι : Type} {P : RunError → Prop}

abbrev FailsBy (P : RunError → Prop) (x : Step α) : Prop := FailsOnly (Halt.By P) x

section
variable {P : Halt → Prop} {x : Step α}

theorem failsOnly_look (name : String) : FailsOnly P (look name) := by
  rintro f e f' ⟨⟩

/-- Of a call only the environment that it begins with is known. -/
theorem failsOnly_inCallWith {environment : Environment}
    (h : ∀ printed e f', x ⟨environment, printed⟩ = .error e f' → P e) :
    FailsOnly P (inCall environment x) := by
  intro f halt f' hcall
  unfold Evaluation.inCall at hcall
  cases hx : x ⟨environment, f.printed⟩ with
  | ok a g =>
    rw [hx] at hcall
    cases hcall
  | error halt' g =>
    rw [hx] at hcall
    cases hcall
    exact h _ _ _ hx

theorem failsOnly_inCall (environment : Environment) (h : FailsOnly P x) :
    FailsOnly P (inCall environment x) :=
  failsOnly_inCallWith fun printed e f' hx => h ⟨environment, printed⟩ e f' hx

/-- What follows a part only matters for what the part gives. -/
theorem failsOnly_liftBind {r : Except RunError α} {k : α → Step β}
    (h : ∀ e, r = .error e → P (.failed e)) (hk : ∀ a, r = .ok a → FailsOnly P (k a)) :
    FailsOnly P (lift r >>= k) := by
  cases r with
  | ok a => exact hk a rfl
  | error e =>
    rintro f _ f' ⟨⟩
    exact h e rfl

theorem failsOnly_lift {r : Except RunError α} (h : ∀ e, r = .error e → P (.failed e)) :
    FailsOnly P (lift r) := by
  cases r with
  | ok a => exact FailsOnly.pure a
  | error e => exact FailsOnly.throw (h e rfl)

theorem congruence_failsOnly (P : Halt → Prop) :
    Congruence fun _ x _ => FailsOnly P x where
  pure := FailsOnly.pure
  bind := FailsOnly.bind

variable {run : ι → Step Value}

theorem failsOnly_inSequence {is : List ι} (hempty : P (.failed .emptySequence))
    (h : ∀ i ∈ is, FailsOnly P (run i)) : FailsOnly P (inSequence run is) :=
  (congruence_failsOnly P).inSequence run run (List.forall₂_same.2 h) (FailsOnly.throw hempty)

theorem failsOnly_inOrder {is : List ι} (h : ∀ i ∈ is, FailsOnly P (run i)) :
    FailsOnly P (inOrder run is) :=
  (congruence_failsOnly P).inOrder run run (List.forall₂_same.2 h)

end

namespace FailsBy

theorem fail {e : RunError} (h : P e) : FailsBy P (fail e : Step α) := FailsOnly.throw h

theorem outOfFuel : FailsBy P (throw .outOfFuel : Step α) := FailsOnly.throw trivial

theorem inCallWith {x : Step α} {environment : Environment}
    (h : ∀ printed e f', x ⟨environment, printed⟩ = .error (.failed e) f' → P e) :
    FailsBy P (inCall environment x) := by
  refine failsOnly_inCallWith fun printed halt f' hx => ?_
  cases halt with
  | failed e => exact h _ e _ hx
  | outOfFuel => exact trivial

end FailsBy

section
variable {m : Machine} {P : Halt → Prop} (hP : ∀ e, Truthful m.files e → P (.failed e))
include hP

theorem nodeCongruence_failsOnly : NodeCongruence m.files fun _ x _ => FailsOnly P x where
  toCongruence := congruence_failsOnly P
  fail e h := FailsOnly.throw (hP e h)

theorem failsOnly_perform (action : Action) : FailsOnly P (perform m action) := by
  refine (nodeCongruence_failsOnly hP).perform (failsOnly_look _) (fun _ => FailsOnly.modify _) ?_
    action
  rintro f e f' ⟨⟩

variable {run : Int → Step Value}

theorem failsOnly_enter (hrun : ∀ id, FailsOnly P (run id)) (f : Function) :
    FailsOnly P (enter m run f) :=
  (nodeCongruence_failsOnly hP).enter run run (failsOnly_perform hP) hrun f

theorem failsOnly_call {name : String}
    (henter : ∀ f, m.program.get? name = some f → FailsOnly P (enter m run f)) (v : Value) :
    FailsOnly P (call m run name v) :=
  (nodeCongruence_failsOnly hP).call run run
    (fun f environment hf => failsOnly_inCall environment (henter f hf)) v

/-- A node fails with what its operands, its call and its own complaints fail with. -/
theorem failsOnly_evaluate {fuel : Nat} {id : Int}
    (hrun : ∀ node, m.arena.node? id = some node → ∀ i ∈ node.references,
      FailsOnly P (evaluate m fuel i))
    (hcall : ∀ callee argument name, m.arena.node? id = some (.apply callee argument) →
      m.arena.node? callee = some (.identifier name) → ∀ v,
      FailsOnly P (call m (evaluate m fuel) name v)) :
    FailsOnly P (evaluate m (fuel + 1) id) := by
  refine (nodeCongruence_failsOnly hP).evaluate fuel fuel (fun node hnode i hi => ?_)
    (fun _ _ => failsOnly_look _) (fun _ _ _ _ _ _ _ => FailsOnly.modify _) hcall
  exact hrun node hnode i (node.evaluated_subset hi)

theorem failsOnly_runEntry {fuel : Nat}
    (henter : ∀ f, m.program.get? entryName = some f → FailsOnly P (enter m (evaluate m fuel) f)) :
    FailsOnly P (runEntry m fuel) := by
  unfold runEntry
  split
  · exact (nodeCongruence_failsOnly hP).fail _ (by simp [Truthful])
  · next f hf =>
    exact FailsOnly.bind ((nodeCongruence_failsOnly hP).parameterNames f) fun _ =>
      failsOnly_inCall _ (henter f hf)

end

theorem truthful_evaluate (m : Machine) (fuel : Nat) (id : Int) :
    FailsBy (Truthful m.files) (evaluate m fuel id) := by
  induction fuel generalizing id with
  | zero => exact .outOfFuel
  | succ fuel ih =>
    have hP : ∀ e, Truthful m.files e → Halt.By (Truthful m.files) (.failed e) := fun _ h => h
    exact failsOnly_evaluate hP (fun _ _ i _ => ih i) fun _ _ _ _ _ =>
      failsOnly_call hP fun f _ => failsOnly_enter hP ih f

theorem truthful_runEntry (m : Machine) (fuel : Nat) :
    FailsBy (Truthful m.files) (runEntry m fuel) :=
  failsOnly_runEntry (fun _ h => h) fun f _ =>
    failsOnly_enter (fun _ h => h) (truthful_evaluate m fuel) f

/-- What holds of all failures of the first function holds of the failure of a run. -/
theorem FailsBy.run {m : Machine} {fuel : Nat} (h : FailsBy P (runEntry m fuel)) {e : RunError}
    (he : (Evaluation.run m fuel).result = .error (.failed e)) : P e := by
  unfold Evaluation.run at he
  split at he
  · cases he
  · next halt f hhalt =>
    cases he
    exact h _ (.failed e) f hhalt

end Evaluation

end LetLang
