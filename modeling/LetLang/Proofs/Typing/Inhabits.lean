import LetLang.Proofs.Typing.Rules

/-!
# Values of a type

A value fits a type when it has the form that the type says. An empty array also fits the types that
are called loose; if none is, fitting is what one means by inhabiting a type.
-/

namespace LetLang

/-- The value has the form that the type says, or is an empty array where the type is loose. -/
inductive Value.Fits (loose : Ty → Bool) : Value → Ty → Prop
  | number {n : Int} {a : Atom} : a.isInteger = true → Fits loose (.number n) (.atom a)
  | boolean {b : Bool} : Fits loose (.boolean b) (.atom .boolean)
  | text {s : String} : Fits loose (.text s) (.atom .text)
  | void : Fits loose .void .unit
  | function {x : String} {a b : Ty} : Fits loose (.function x) (.function a b)
  | tuple {vs : List Value} {us : List Ty} : List.Forall₂ (Fits loose) vs us →
      Fits loose (.tuple vs) (.product us)
  | array {vs : List Value} {e : Ty} {n : Int} : vs.length = n → (∀ v ∈ vs, Fits loose v e) →
      Fits loose (.array vs) (.array e n)
  | empty {u : Ty} : loose u = true → Fits loose (.array []) u

/-- The value inhabits the type: numbers the integer types, booleans and texts their types, the void
value the unit type, a tuple a product of its length element by element, an array the array type of
exactly its length if all its elements inhabit the element type, and a function a function type. -/
def Value.Inhabits (v : Value) (u : Ty) : Prop := v.Fits (fun _ => false) u

/-- The type is an integer type or a product of integer types. -/
def Ty.isIntegral : Ty → Bool
  | .atom a => a.isInteger
  | .product us => us.all fun u => match u with
    | .atom a => a.isInteger
    | _ => false
  | _ => false

namespace Typing

open Direct (spread)

variable {loose : Ty → Bool}

theorem length_spread_of_fits {v : Value} {us : List Ty} (h : v.Fits loose (.product us))
    (hlen : us.length ≠ 1) : List.Forall₂ (Value.Fits loose) (spread v) us ∨ spread v = [v] := by
  cases h with
  | @tuple vs _ hvs =>
    left
    have hne : vs.length ≠ 1 := by rwa [hvs.length_eq]
    match vs, hne with
    | [], _ => exact hvs
    | _ :: _ :: _, _ => exact hvs
  | empty => exact .inr rfl

/-- As far as the number of parameters is right, the values that are spread over them fit. -/
theorem spread_fits {ps : List String} {v : Value} {a : Ty} {es : List (String × Ty)}
    (hes : parameterTypes ps a = some es) (hlen : ∀ us, a = .product us → us.length ≠ 1)
    (hv : v.Fits loose a) (hcount : ps.length = (spread v).length) :
    ∃ us, es = ps.zip us ∧ List.Forall₂ (Value.Fits loose) (spread v) us := by
  unfold parameterTypes at hes
  split at hes
  · next us =>
    split at hes
    · next hps =>
      cases hes
      refine ⟨us, rfl, ?_⟩
      rcases length_spread_of_fits hv (hlen us rfl) with h | h
      · exact h
      · rw [h] at hcount
        exact absurd (hps.trans hcount) (hlen us rfl)
    · cases hes
  · cases hes
  · next p hproduct _ =>
    cases hes
    have hspread : spread v = [v] := by
      cases hv with
      | tuple => exact absurd rfl (hproduct _)
      | _ => rfl
    rw [hspread]
    exact ⟨[a], rfl, .cons hv .nil⟩
  · cases hes

/-- The entry binds the variable of the other one, to a value of its type. -/
def EntryFits (loose : Ty → Bool) (e : String × Value) (f : String × Ty) : Prop :=
  e.1 = f.1 ∧ e.2.Fits loose f.2

/-- Values and types that go together pair by pair still do under the names of parameters. -/
theorem forall₂_zip {R : Value → Ty → Prop} {vs : List Value} {us : List Ty}
    (h : List.Forall₂ R vs us) (ps : List String) :
    List.Forall₂ (fun e f => e.1 = f.1 ∧ R e.2 f.2) (ps.zip vs) (ps.zip us) := by
  induction h generalizing ps with
  | nil =>
    rw [List.zip_nil_right, List.zip_nil_right]
    exact .nil
  | cons hv _ ih =>
    cases ps with
    | nil => exact .nil
    | cons p ps => exact .cons ⟨rfl, hv⟩ (ih ps)

/-- Where an argument fits the type, a call binds every parameter to a value that fits, or the count
of the arguments is wrong. -/
theorem arguments_fit {ps : List String} {v : Value} {a : Ty} {es : List (String × Ty)}
    (hes : parameterTypes ps a = some es) (hlen : ∀ us, a = .product us → us.length ≠ 1)
    (hv : v.Fits loose a) (x : String) :
    (∃ vs, Direct.arguments x ps v = .ok (.ofList vs) ∧ List.Forall₂ (EntryFits loose) vs es) ∨
      ∃ m n, Direct.arguments x ps v = .error (.argumentCount x m n) := by
  unfold Direct.arguments
  dsimp only
  split
  · next hcount =>
    left
    obtain ⟨us, rfl, hus⟩ := spread_fits hes hlen hv hcount
    exact ⟨_, rfl, forall₂_zip hus ps⟩
  · right
    exact ⟨_, _, rfl⟩

theorem forall₂_seed {us : List Ty} (hus : ∀ u ∈ us, ∃ a, u = .atom a ∧ a.isInteger = true)
    {ps : List String} (hlen : us.length = ps.length) (n : Int) :
    List.Forall₂ (EntryFits loose) (ps.map fun p => (p, .number n)) (ps.zip us) := by
  induction ps generalizing us with
  | nil => exact .nil
  | cons p ps ih =>
    cases us with
    | nil => cases hlen
    | cons u us =>
      obtain ⟨⟨a, rfl, ha⟩, hrest⟩ := List.forall_mem_cons.1 hus
      exact .cons ⟨rfl, .number ha⟩ (ih hrest (Nat.succ.inj hlen))

theorem integers_of_isIntegral {us : List Ty} (h : (Ty.product us).isIntegral = true) :
    ∀ u ∈ us, ∃ a, u = .atom a ∧ a.isInteger = true := by
  intro u hu
  have hall := List.all_eq_true.1 h u hu
  cases u with
  | atom a => exact ⟨a, rfl, hall⟩
  | _ => cases hall

/-- A number fits every parameter if the argument type is an integer type or a product of such. -/
theorem seeds_fit {ps : List String} {a : Ty} {es : List (String × Ty)}
    (hes : parameterTypes ps a = some es) (ha : a.isIntegral = true) (n : Int) :
    List.Forall₂ (EntryFits loose) (ps.map fun p => (p, .number n)) es := by
  unfold parameterTypes at hes
  split at hes
  · split at hes
    · next hlen =>
      cases hes
      exact forall₂_seed (integers_of_isIntegral ha) hlen n
    · cases hes
  · cases hes
  · next p hproduct _ =>
    cases hes
    cases a with
    | atom a => exact .cons ⟨rfl, .number ha⟩ .nil
    | product us => exact absurd rfl (hproduct us)
    | _ => cases ha
  · cases hes

end Typing

end LetLang
