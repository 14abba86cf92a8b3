import LetLang.Proofs.Evaluation.Termination
import LetLang.Proofs.Lowering.Consistent
import LetLang.Proofs.Lowering.Hanging

/-!
# Lowered programs that end

A lowered file is a tree, and its program holds functions of this tree. So a run can only go on for
ever by calls that come back to a function on the way from the first one.
-/

namespace LetLang.Lowering

open Evaluation (Ends FromArena)

/-- A lowered file makes a program, and its run ends if no function that is reached from the first
one by calls is reached from itself. -/
theorem run_ends_of_noCycle {t : Tree String} {l : Lowered} (h : LetLang.lower t = .ok l) :
    ∃ p, Program.build l.arena [] = .ok p ∧
      (NoCycleFrom (p.Calls l.arena) Evaluation.entryName →
        ∀ files, ∃ o, Ends (Evaluation.run ⟨l.arena, p, files⟩) o) := by
  match t with
  | .file ts =>
    obtain ⟨ids, tops, made, himage⟩ := exists_image h
    refine ⟨tableOf tops made, himage.build, fun hcycle files => ?_⟩
    have hfrom : FromArena ⟨l.arena, tableOf tops made, files⟩ :=
      fun _ _ _ _ hget => Program.exists_node_of_build himage.build hget
    exact Evaluation.ends_of_noCycleFrom (isTree_of_lower h) hfrom hcycle

/-- The first function gives a function to itself. The run ends, for what is given is not called. -/
theorem given_function_not_called :
    ∃ l p, LetLang.lower (.file [
        .bind (.identifier "main") .unitType (.lambda [.identifier "x"]
          (.apply (.identifier "f") (.identifier "f"))),
        .bind (.identifier "f") .unitType (.lambda [.identifier "y"] (.identifier "y"))]) = .ok l ∧
      Program.build l.arena [] = .ok p ∧ p.Calls l.arena "main" "f" ∧
      NoCycleFrom (p.Calls l.arena) "main" ∧
      ∀ files, ∃ o, Ends (Evaluation.run ⟨l.arena, p, files⟩) o := by
  let tops : List Function := [.lowered "main" [2] 3, .lowered "f" [7] 8]
  obtain ⟨l, hl, hslots, hbuild⟩ : ∃ l, LetLang.lower (.file [
      .bind (.identifier "main") .unitType (.lambda [.identifier "x"]
        (.apply (.identifier "f") (.identifier "f"))),
      .bind (.identifier "f") .unitType (.lambda [.identifier "y"] (.identifier "y"))]) = .ok l ∧
      l.arena.slots = #[⟨.file [1, 6], true, 0⟩, ⟨.function "main" [2] 3, true, 0⟩,
        ⟨.identifier "x", true, 1⟩, ⟨.apply 4 5, true, 1⟩, ⟨.identifier "f", true, 3⟩,
        ⟨.identifier "f", true, 3⟩, ⟨.function "f" [7] 8, true, 0⟩, ⟨.identifier "y", true, 6⟩,
        ⟨.identifier "y", true, 6⟩] ∧
      Program.build l.arena [] = .ok (tableOf tops []) := ⟨_, by cbv, by cbv, by cbv⟩
  obtain ⟨p, hp, hends⟩ := run_ends_of_noCycle hl
  cases hbuild.symm.trans hp
  have hfour : l.arena.node? 4 = some (.identifier "f") := by
    simp [Arena.node?, Arena.slot?, hslots]
  have happly : ∀ (i : Nat) callee argument, l.arena.node? i = some (.apply callee argument) →
      i = 3 ∧ callee = 4 := by
    intro i callee argument hi
    obtain ⟨k, s, hk, hs, -, hvalue⟩ := Arena.exists_slot_of_node? hi
    obtain rfl := Int.ofNat.inj hk
    rw [hslots] at hs
    obtain ⟨hlt, rfl⟩ := Array.getElem?_eq_some_iff.1 hs
    simp only [List.size_toArray, List.length_cons, List.length_nil] at hlt
    interval_cases i <;> simp_all
  have hcall : ∀ f g, (tableOf tops []).Calls l.arena f g → f = "main" ∧ g = "f" := by
    rintro f g ⟨name, is, b, hget, n, i, callee, argument, rfl, hbelow, hi, hcallee⟩
    obtain ⟨rfl, rfl⟩ := happly i callee argument hi
    have hle := hbelow.le (isTree_of_lower hl).ordered
    obtain ⟨rfl, hmem⟩ := mem_of_get?_tableOf hget
    cases hfour.symm.trans hcallee
    simp only [tops, Program.standardFunctions, List.append_nil, List.cons_append, List.nil_append,
      List.mem_cons, List.not_mem_nil, Function.lowered.injEq, reduceCtorEq, or_false] at hmem
    rcases hmem with ⟨rfl, -, -⟩ | ⟨-, -, hn⟩
    · exact ⟨rfl, rfl⟩
    · omega
  have hcycle : NoCycleFrom ((tableOf tops []).Calls l.arena) "main" := by
    intro f _ hf
    obtain ⟨g, hfirst, -⟩ := Relation.TransGen.head'_iff.1 hf
    obtain ⟨g', -, hlast⟩ := Relation.TransGen.tail'_iff.1 hf
    have hmain := (hcall f g hfirst).1
    have hother := (hcall g' f hlast).2
    exact absurd (hmain.symm.trans hother) (by decide)
  have hcalled : (tableOf tops []).Calls l.arena "main" "f" := by
    have hthree : l.arena.slots[3]? = some ⟨.apply 4 5, true, 1⟩ := by simp [hslots]
    exact ⟨"main", [2], 3, by rfl, 3, 3, 4, 5, rfl, .self hthree, Arena.node?_of_slot hthree rfl,
      hfour⟩
  exact ⟨l, _, hl, hbuild, hcalled, hcycle, hends hcycle⟩

end LetLang.Lowering
