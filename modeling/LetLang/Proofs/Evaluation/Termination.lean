import LetLang.Proofs.Arena.Reachable
import LetLang.Proofs.Evaluation.Failures
import LetLang.Proofs.Evaluation.Fuel
import LetLang.Proofs.Table
import Mathlib.Data.Finset.Order
import Mathlib.Data.Set.Finite.Basic

/-!
# Runs that end

Only a name that stands in the arena is called, never a value. So an evaluation goes down in the
tree until it calls a function by its name, and the calls end where no function that is reached
calls itself, directly or through others.
-/

namespace LetLang

open Relation (ReflTransGen TransGen)

/-- In the tree below the node `b`, the name is applied. -/
def Arena.Applies (a : Arena Node) (b : Int) (name : String) : Prop :=
  ∃ (n i : Nat) (callee argument : Int), b = n ∧ a.Below n i ∧
    a.node? i = some (.apply callee argument) ∧ a.node? callee = some (.identifier name)

/-- The body of the function under the name `f` applies the name `g`. -/
def Program.Calls (p : Program) (a : Arena Node) (f g : String) : Prop :=
  ∃ name is b, p.get? f = some (.lowered name is b) ∧ a.Applies b g

/-- From `x` on, no step of the relation leads back to where it began. -/
def NoCycleFrom {α : Type} (r : α → α → Prop) (x : α) : Prop :=
  ∀ y, ReflTransGen r x y → ¬ TransGen r y y

/-- Where only finitely many elements have successors, walks without cycles end. -/
theorem acc_of_noCycleFrom {α : Type} {r : α → α → Prop} {x : α} (hfin : {y | ∃ z, r y z}.Finite)
    (hx : NoCycleFrom r x) : Acc (flip r) x := by
  have hsink : ∀ y, (¬ ∃ z, r y z) → Acc (flip r) y :=
    fun y hy => Acc.intro y fun z hz => absurd ⟨z, hz⟩ hy
  let Inner := {y // y ∈ {y | ∃ z, r y z} ∧ ReflTransGen r x y}
  let After : Inner → Inner → Prop := fun z y => TransGen r y.1 z.1
  have hfinite : Finite Inner := (hfin.subset fun y hy => hy.1 : Set.Finite {y | _ ∧ _}).to_subtype
  have hirrefl : Std.Irrefl After := ⟨fun y => hx y.1 y.2.2⟩
  have htrans : IsTrans Inner After := ⟨fun _ _ _ h h' => h'.trans h⟩
  have hinner : ∀ y : Inner, Acc (flip r) y.1 := by
    intro y
    induction y using (Finite.wellFounded_of_trans_of_irrefl After).induction with
    | _ y ih =>
      refine Acc.intro y.1 fun z hz => ?_
      by_cases hnext : ∃ u, r z u
      · exact ih ⟨z, hnext, y.2.2.tail hz⟩ (.single hz)
      · exact hsink z hnext
  by_cases hnext : ∃ z, r x z
  · exact hinner ⟨x, hnext, .refl⟩
  · exact hsink x hnext

namespace Evaluation

abbrev Finishes {α : Type} (x : Step α) : Prop := FailsOnly (· ≠ .outOfFuel) x

/-- A call of the name finishes with this much fuel, and with more. -/
def FinishesFrom (m : Machine) (n : Nat) (name : String) : Prop :=
  ∀ f, m.program.get? name = some f → ∀ fuel, n ≤ fuel → Finishes (enter m (evaluate m fuel) f)

variable {m : Machine}

theorem FinishesFrom.mono {n n' : Nat} {name : String} (h : FinishesFrom m n name) (hn : n ≤ n') :
    FinishesFrom m n' name :=
  fun f hf fuel hfuel => h f hf fuel (Nat.le_trans hn hfuel)

theorem finishesFrom_of_get?_eq_none {n : Nat} {name : String} (h : m.program.get? name = none) :
    FinishesFrom m n name := by
  intro f hf
  cases h.symm.trans hf

/-- No failure is a lack of fuel. -/
theorem ne_outOfFuel (e : RunError) (_ : Truthful m.files e) : Halt.failed e ≠ .outOfFuel := by
  simp

/-- In a tree whose calls finish, a node needs as much fuel as the calls do, and one unit more for
each node that may come after it. -/
theorem finishes_below (ht : m.arena.IsTree) {n bound : Nat}
    (hcall : ∀ name, m.arena.Applies n name → FinishesFrom m bound name) (fuel i : Nat)
    (hi : m.arena.Below n i) (hfuel : bound + (m.arena.size - i) ≤ fuel) :
    Finishes (evaluate m fuel i) := by
  induction fuel generalizing i with
  | zero =>
    obtain ⟨s, hs⟩ := hi.exists_slot
    obtain ⟨hlt, -⟩ := Array.getElem?_eq_some_iff.1 hs
    unfold Arena.size at hfuel
    omega
  | succ fuel ih =>
    obtain ⟨s, hs⟩ := hi.exists_slot
    obtain ⟨hlt, -⟩ := Array.getElem?_eq_some_iff.1 hs
    have hsize : i < m.arena.size := hlt
    refine failsOnly_evaluate ne_outOfFuel (fun node hnode r hr => ?_)
      fun callee argument name hnode hcallee v => ?_
    · obtain ⟨k, rfl, hik, -, hbelow⟩ := ht.exists_of_mem_references hnode hr
      exact ih k (hbelow n hi) (by omega)
    · have hname := hcall name ⟨n, i, callee, argument, rfl, hi, hnode, hcallee⟩
      exact failsOnly_call ne_outOfFuel (fun f hf => hname f hf fuel (by omega)) v

/-- The lowered functions of the program are functions of the arena. -/
def FromArena (m : Machine) : Prop :=
  ∀ f name is b, m.program.get? f = some (.lowered name is b) →
    ∃ id, m.arena.node? id = some (.function name is b)

/-- Finitely many calls that finish have a bound on their fuel in common. -/
theorem exists_bound {P : String → Prop} (h : ∀ name, P name → ∃ n, FinishesFrom m n name) :
    ∃ bound, ∀ name, P name → FinishesFrom m bound name := by
  choose! n hn using h
  obtain ⟨bound, hbound⟩ := (m.program.keys.map n).toFinset.exists_le
  refine ⟨bound, fun name hname => ?_⟩
  cases hget : m.program.get? name with
  | none => exact finishesFrom_of_get?_eq_none hget
  | some f =>
    have hkey : name ∈ m.program.keys := by
      rw [Table.mem_keys_iff, hget]
      rfl
    exact (hn name hname).mono (hbound _ (List.mem_toFinset.2 (List.mem_map_of_mem hkey)))

/-- A function finishes if all functions that it calls do. -/
theorem exists_finishesFrom_of_calls (ht : m.arena.IsTree) (hm : FromArena m) {f : String}
    (h : ∀ g, m.program.Calls m.arena f g → ∃ n, FinishesFrom m n g) :
    ∃ n, FinishesFrom m n f := by
  cases hget : m.program.get? f with
  | none => exact ⟨0, finishesFrom_of_get?_eq_none hget⟩
  | some fn =>
    cases fn with
    | native name parameters action =>
      refine ⟨0, fun fn' hfn' fuel _ => ?_⟩
      cases hget.symm.trans hfn'
      exact failsOnly_perform ne_outOfFuel action
    | lowered name is b =>
      obtain ⟨id, hid⟩ := hm f name is b hget
      obtain ⟨i, _, rfl, -⟩ := Arena.exists_slot_of_node? hid
      have hbody : b ∈ (Node.function name is b).references := by simp [Node.references]
      obtain ⟨k, rfl, -, hk, -⟩ := ht.exists_of_mem_references hid hbody
      obtain ⟨bound, hbound⟩ := exists_bound (P := m.arena.Applies k)
        fun g hg => h g ⟨name, is, k, hget, hg⟩
      refine ⟨bound + (m.arena.size - k), fun fn' hfn' fuel hfuel => ?_⟩
      cases hget.symm.trans hfn'
      exact (finishes_below ht hbound fuel k hk hfuel).bind fun v => FailsOnly.pure (some v)

/-- The calls of a function finish if no function that is reached from it is reached from itself. -/
theorem exists_finishesFrom (ht : m.arena.IsTree) (hm : FromArena m) {f : String}
    (hf : NoCycleFrom (m.program.Calls m.arena) f) : ∃ n, FinishesFrom m n f := by
  have hcallers : {f | ∃ g, m.program.Calls m.arena f g}.Finite := by
    refine m.program.keys.finite_toSet.subset ?_
    rintro f ⟨g, name, is, b, hget, -⟩
    exact Table.mem_keys_iff.2 (by rw [hget]; rfl)
  have hacc := acc_of_noCycleFrom hcallers hf
  clear hf
  induction hacc with
  | intro f _ ih => exact exists_finishesFrom_of_calls ht hm ih

theorem ends_of_noCycleFrom (ht : m.arena.IsTree) (hm : FromArena m)
    (hmain : NoCycleFrom (m.program.Calls m.arena) entryName) : ∃ o, Ends (run m) o := by
  obtain ⟨n, hn⟩ := exists_finishesFrom ht hm hmain
  have hfinishes : Finishes (runEntry m n) :=
    failsOnly_runEntry ne_outOfFuel fun f hf => hn f hf n (Nat.le_refl n)
  refine ⟨run m n, (stable_run m).ends ?_⟩
  unfold run
  cases hresult : runEntry m n ⟨∅, ""⟩ with
  | ok v f => simp
  | error e f => simpa using hfinishes _ e f hresult

end Evaluation

end LetLang
