import LetLang.Lowering
import LetLang.Proofs.Evaluation.Congruence

/-!
# Steps that end alike

Two steps end alike when from frames that agree they reach frames that agree, with the same value or
with failures that say the same. Frames agree when the same was printed and the names that a source
text can write are bound alike; a made name may be bound in one of them only. Failures may differ in
one point, the name of an applied lambda.
-/

namespace LetLang

/-- The failures say the same. The second may call an applied lambda by the name made for it. -/
inductive RunError.Alike (anonymous : String) : RunError → RunError → Prop
  | same (e : RunError) : Alike anonymous e e
  | lambda (k m n : Nat) :
      Alike anonymous (.argumentCount anonymous m n) (.argumentCount (Lowering.liftedName k) m n)

inductive Halt.Alike (anonymous : String) : Halt → Halt → Prop
  | failed {e e' : RunError} : e.Alike anonymous e' → Alike anonymous (.failed e) (.failed e')
  | outOfFuel : Alike anonymous .outOfFuel .outOfFuel

namespace Evaluation

/-- The environments bind every name without a hash sign alike. -/
def SameNames (e e' : Environment) : Prop :=
  ∀ x : String, '#' ∉ x.toList → e.get? x = e'.get? x

theorem SameNames.refl (e : Environment) : SameNames e e := fun _ _ => rfl

theorem SameNames.insert {e e' : Environment} (h : SameNames e e') (x : String) (v : Value) :
    SameNames (e.insert x v) (e'.insert x v) := by
  intro y hy
  rw [Table.get?_insert, Table.get?_insert, h y hy]

/-- The same was printed, and the names of the source are bound alike. -/
structure Frame.Agree (f g : Frame) : Prop where
  environment : SameNames f.environment g.environment
  printed : f.printed = g.printed

variable {α β γ δ : Type} {anonymous : String}

/-- The results are related values or failures that say the same, in frames that agree. -/
inductive ResultsAlike (anonymous : String) (V : α → β → Prop) :
    EStateM.Result Halt Frame α → EStateM.Result Halt Frame β → Prop
  | ok {a : α} {b : β} {f g : Frame} : V a b → f.Agree g →
      ResultsAlike anonymous V (.ok a f) (.ok b g)
  | error {h k : Halt} {f g : Frame} : h.Alike anonymous k → f.Agree g →
      ResultsAlike anonymous V (.error h f) (.error k g)

/-- From frames that agree the steps end alike, with values that `V` relates. -/
def Alike (anonymous : String) (V : α → β → Prop) (x : Step α) (y : Step β) : Prop :=
  ∀ f g : Frame, f.Agree g → ResultsAlike anonymous V (x f) (y g)

namespace Alike

variable {V : α → β → Prop} {W : γ → δ → Prop} {x : Step α} {y : Step β}

theorem pure {a : α} {b : β} (h : V a b) : Alike anonymous V (pure a) (pure b) :=
  fun _ _ hfg => .ok h hfg

theorem fail {e e' : RunError} (h : e.Alike anonymous e') :
    Alike anonymous V (Evaluation.fail e) (Evaluation.fail e') :=
  fun _ _ hfg => .error (.failed h) hfg

theorem failSame (e : RunError) : Alike anonymous V (Evaluation.fail e) (Evaluation.fail e) :=
  fail (.same e)

theorem outOfFuel : Alike anonymous V (throw .outOfFuel) (throw .outOfFuel) :=
  fun _ _ hfg => .error .outOfFuel hfg

theorem bind {p : α → Step γ} {q : β → Step δ} (h : Alike anonymous V x y)
    (hpq : ∀ a b, V a b → Alike anonymous W (p a) (q b)) :
    Alike anonymous W (x >>= p) (y >>= q) := by
  intro f g hfg
  have hxy := h f g hfg
  change ResultsAlike anonymous W (EStateM.bind x p f) (EStateM.bind y q g)
  unfold EStateM.bind
  generalize x f = r, y g = r' at hxy
  cases hxy with
  | ok hv hfg' => exact hpq _ _ hv _ _ hfg'
  | error hh hfg' => exact .error hh hfg'

/-- If the first parts end with the same value, the second parts get the same one. -/
theorem bindSame {x y : Step α} {p : α → Step γ} {q : α → Step δ} (h : Alike anonymous Eq x y)
    (hpq : ∀ a, Alike anonymous W (p a) (q a)) : Alike anonymous W (x >>= p) (y >>= q) := by
  refine h.bind fun a b hab => ?_
  subst hab
  exact hpq a

theorem mapRight {W : α → δ → Prop} {k : β → δ} (h : Alike anonymous V x y)
    (hk : ∀ a b, V a b → W a (k b)) :
    Alike anonymous W x (y >>= fun b => Pure.pure (k b)) := by
  have hbind := h.bind (W := W) (p := Pure.pure) (q := fun b => Pure.pure (k b))
    fun a b hab => pure (hk a b hab)
  rwa [bind_pure] at hbind

theorem look {name : String} (hname : '#' ∉ name.toList) :
    Alike anonymous Eq (look name) (look name) :=
  fun _ _ hfg => .ok (hfg.environment name hname) hfg

theorem bindName (name : String) (v : Value) :
    Alike anonymous Eq (Evaluation.bind name v) (Evaluation.bind name v) :=
  fun _ _ hfg => .ok rfl ⟨hfg.environment.insert name v, hfg.printed⟩

theorem print (s : String) : Alike anonymous Eq (print s) (print s) :=
  fun _ _ hfg => .ok rfl ⟨hfg.environment, congrArg (· ++ s) hfg.printed⟩

theorem liftSame (r : Except RunError α) :
    Alike anonymous Eq (Evaluation.lift r) (Evaluation.lift r) := by
  cases r with
  | ok a => exact pure rfl
  | error e => exact failSame e

/-- What a call binds is lost when it ends, so that only the environments it begins with count. -/
theorem inCall {e e' : Environment} (he : SameNames e e') (h : Alike anonymous V x y) :
    Alike anonymous V (inCall e x) (inCall e' y) := by
  intro f g hfg
  have hxy := h ⟨e, f.printed⟩ ⟨e', g.printed⟩ ⟨he, hfg.printed⟩
  unfold Evaluation.inCall
  generalize x ⟨e, f.printed⟩ = r, y ⟨e', g.printed⟩ = r' at hxy
  cases hxy with
  | ok hv hfg' => exact .ok hv ⟨hfg.environment, hfg'.printed⟩
  | error hh hfg' => exact .error hh ⟨hfg.environment, hfg'.printed⟩

theorem congruence : Congruence fun _ => Alike anonymous Eq where
  pure _ := pure rfl
  bind := bindSame

section
variable {ι κ : Type} {run : ι → Step Value} {run' : κ → Step Value} {is : List ι} {js : List κ}
  (h : List.Forall₂ (fun i j => Alike anonymous Eq (run i) (run' j)) is js)
include h

theorem inSequence : Alike anonymous Eq (inSequence run is) (inSequence run' js) :=
  congruence.inSequence run run' h (failSame _)

theorem inOrder : Alike anonymous Eq (inOrder run is) (inOrder run' js) :=
  congruence.inOrder run run' h

end

end Alike

/-- The same was printed, and the results are the same values or failures that say the same. -/
def Outcome.Alike (anonymous : String) (o o' : Outcome) : Prop :=
  o.printed = o'.printed ∧
    match o.result, o'.result with
    | .ok v, .ok v' => v = v'
    | .error h, .error h' => h.Alike anonymous h'
    | _, _ => False

theorem Outcome.Alike.outOfFuel_iff {o o' : Outcome} (h : o.Alike anonymous o') :
    o.result = .error .outOfFuel ↔ o'.result = .error .outOfFuel := by
  obtain ⟨-, h⟩ := h
  split at h
  · next hv hv' => simp [hv, hv']
  · next hh hh' =>
    rw [hh, hh']
    cases h <;> simp
  · exact h.elim

end Evaluation

end LetLang
