import LetLang.Proofs.Evaluation.Locality
import LetLang.Proofs.Lowering.Hanging

/-!
# Locality in lowered files

In the arena of a lowered file the names below a node are those of the statement that it came from.
An evaluation of the node depends on these variables only, and changes those of them that it binds.
-/

namespace LetLang.Lowering

open Evaluation

variable {t : Tree String} {l : Lowered}

/-- The evaluation of a node removes no binding, and every name whose binding it changes or adds is
bound below the node. A call leaves the environment as the evaluation of its argument left it,
whatever is bound by the function that is called. That holds where the evaluation fails as well, and
of all tables of functions. -/
theorem evaluation_changes_own_names (h : LetLang.lower t = .ok l) (p : Program) (files : Files)
    (fuel n : Nat) :
    ChangesOnly (l.arena.Binds n) (evaluate ⟨l.arena, p, files⟩ fuel n) ∧
      ∀ (callee argument : Int) (f : Frame), l.arena.node? n = some (.apply callee argument) →
        (reached (evaluate ⟨l.arena, p, files⟩ (fuel + 1) n f)).environment =
          (reached (evaluate ⟨l.arena, p, files⟩ fuel argument f)).environment := by
  refine ⟨changesOnly_evaluate (m := ⟨l.arena, p, files⟩) (isTree_of_lower h) fuel fun _ hx => hx,
    fun callee argument f hn => ?_⟩
  rw [evaluate_apply (m := ⟨l.arena, p, files⟩) hn]
  exact environment_bind_isolated (isolated_applied fuel callee) f

/-- The parameter of a function that is called, and what is bound in its body, are not seen after
the call. -/
theorem called_names_stay_inside :
    ∃ l p, LetLang.lower (.file [
        .bind (.identifier "f") .unitType (.lambda [.identifier "z"]
          (.block [.bind (.identifier "w") .unitType (.identifier "z"), .identifier "w"])),
        .bind (.identifier "main") .unitType (.lambda [.identifier "x"]
          (.block [.bind (.identifier "y") .unitType
            (.apply (.identifier "f") (.identifier "x")), .identifier "y"]))]) = .ok l ∧
      Program.build l.arena [] = .ok p ∧ p.get? "main" = some (.lowered "main" [10] 11) ∧
      ∀ files fuel f, ∀ x ∈ ["z", "w"],
        (reached (evaluate ⟨l.arena, p, files⟩ fuel 11 f)).environment.get? x =
          f.environment.get? x := by
  obtain ⟨l, p, hl, hslots, hp, hmain⟩ : ∃ l p, LetLang.lower (.file [
        .bind (.identifier "f") .unitType (.lambda [.identifier "z"]
          (.block [.bind (.identifier "w") .unitType (.identifier "z"), .identifier "w"])),
        .bind (.identifier "main") .unitType (.lambda [.identifier "x"]
          (.block [.bind (.identifier "y") .unitType
            (.apply (.identifier "f") (.identifier "x")), .identifier "y"]))]) = .ok l ∧
      l.arena.slots = #[⟨.file [1, 9], true, 0⟩, ⟨.function "f" [2] 3, true, 0⟩,
        ⟨.identifier "z", true, 1⟩, ⟨.sequence [4, 8], true, 1⟩, ⟨.bind 5 6 7, true, 3⟩,
        ⟨.identifier "w", true, 4⟩, ⟨.unitType, true, 4⟩, ⟨.identifier "z", true, 4⟩,
        ⟨.identifier "w", true, 3⟩, ⟨.function "main" [10] 11, true, 0⟩,
        ⟨.identifier "x", true, 9⟩, ⟨.sequence [12, 18], true, 9⟩, ⟨.bind 13 14 15, true, 11⟩,
        ⟨.identifier "y", true, 12⟩, ⟨.unitType, true, 12⟩, ⟨.apply 16 17, true, 12⟩,
        ⟨.identifier "f", true, 15⟩, ⟨.identifier "x", true, 15⟩, ⟨.identifier "y", true, 11⟩] ∧
      Program.build l.arena [] = .ok p ∧ p.get? "main" = some (.lowered "main" [10] 11) :=
    ⟨_, _, by cbv, by cbv, by cbv, by cbv⟩
  have hbinds : ∀ x, l.arena.Binds 11 x → x = "y" := by
    rintro x ⟨j, binder, type, value, hj, hbind, hbinder⟩
    have hle := hj.le (isTree_of_lower hl).ordered
    obtain ⟨k, s, hk, hs, -, hvalue⟩ := Arena.exists_slot_of_node? hbind
    obtain rfl := Int.ofNat.inj hk
    obtain rfl : s = ⟨.bind 13 14 15, true, 11⟩ := by
      rw [hslots] at hs
      obtain ⟨hlt, rfl⟩ := Array.getElem?_eq_some_iff.1 hs
      simp only [List.size_toArray, List.length_cons, List.length_nil] at hlt
      interval_cases j <;> simp_all
    cases hvalue
    have hname : l.arena.node? 13 = some (.identifier "y") := by
      simp [Arena.node?, Arena.slot?, hslots]
    cases hname.symm.trans hbinder
    rfl
  refine ⟨l, p, hl, hp, hmain, fun files fuel f x hx => ?_⟩
  by_contra hne
  have hchanged := (evaluation_changes_own_names hl p files fuel 11).1 f
  obtain rfl := hbinds x (hchanged.changed x hne)
  simp at hx

/-- The evaluation of a node keeps what was printed before, without seeing it. From environments
that agree on the names that stand below the node, other than as names of applied functions, it
ends in the same way with the same text printed, and the environments then agree on these names
again. A call prints and ends as its argument and the name of the function determine. -/
theorem evaluation_sees_own_names (h : LetLang.lower t = .ok l) (p : Program) (files : Files)
    (fuel : Nat) :
    (∀ n : Nat, OnlyAdds (evaluate ⟨l.arena, p, files⟩ fuel n) ∧
      SameOn (l.arena.Names n) (evaluate ⟨l.arena, p, files⟩ fuel n)
        (evaluate ⟨l.arena, p, files⟩ fuel n)) ∧
      ∀ (x : String) (v : Value), ∃ (text : String) (ending : Except Halt Value),
        ∀ (n callee argument : Int) (f g : Frame),
          l.arena.node? n = some (.apply callee argument) →
          l.arena.node? callee = some (.identifier x) →
          evaluate ⟨l.arena, p, files⟩ fuel argument f = .ok v g →
          evaluate ⟨l.arena, p, files⟩ (fuel + 1) n f =
            (do print text; MonadExcept.ofExcept ending : Evaluation.Step Value) g := by
  refine ⟨fun n => ⟨onlyAdds_evaluate _ fuel n, sameOn_evaluate (m := ⟨l.arena, p, files⟩)
    (isTree_of_lower h) fuel fun _ hx => hx⟩, fun x v => ?_⟩
  obtain ⟨text, ending, hcall⟩ := isolated_call ⟨l.arena, p, files⟩ fuel x v
  refine ⟨text, ending, fun n callee argument f g hn hx hv => ?_⟩
  rw [evaluate_apply (m := ⟨l.arena, p, files⟩) hn, bind_of_ok hv,
    applied_of_name (m := ⟨l.arena, p, files⟩) hx, hcall]

/-- A variable that has the name of an applied function does not matter to the call. -/
theorem applied_name_not_seen :
    ∃ l p, LetLang.lower (.file [
        .bind (.identifier "f") .unitType (.lambda [.identifier "y"]
          (.binary (.identifier "y") (.identifier "y") .times)),
        .bind (.identifier "main") .unitType (.lambda [.identifier "x"]
          (.apply (.identifier "f") (.identifier "x")))]) = .ok l ∧
      Program.build l.arena [] = .ok p ∧ l.arena.node? 8 = some (.apply 9 10) ∧
      ∀ files v, ∃ e, evaluate ⟨l.arena, p, files⟩ 3 8
        ⟨.ofList [("x", .number 3), ("f", v)], ""⟩ = .ok (.number 9) ⟨e, ""⟩ := by
  obtain ⟨l, p, hl, hslots, hp, happly, hrun⟩ : ∃ l p, LetLang.lower (.file [
        .bind (.identifier "f") .unitType (.lambda [.identifier "y"]
          (.binary (.identifier "y") (.identifier "y") .times)),
        .bind (.identifier "main") .unitType (.lambda [.identifier "x"]
          (.apply (.identifier "f") (.identifier "x")))]) = .ok l ∧
      l.arena.slots = #[⟨.file [1, 6], true, 0⟩, ⟨.function "f" [2] 3, true, 0⟩,
        ⟨.identifier "y", true, 1⟩, ⟨.binary .times 4 5, true, 1⟩, ⟨.identifier "y", true, 3⟩,
        ⟨.identifier "y", true, 3⟩, ⟨.function "main" [7] 8, true, 0⟩,
        ⟨.identifier "x", true, 6⟩, ⟨.apply 9 10, true, 6⟩, ⟨.identifier "f", true, 8⟩,
        ⟨.identifier "x", true, 8⟩] ∧
      Program.build l.arena [] = .ok p ∧ l.arena.node? 8 = some (.apply 9 10) ∧
      ∀ files, evaluate ⟨l.arena, p, files⟩ 3 8 ⟨.ofList [("x", .number 3)], ""⟩ =
        .ok (.number 9) ⟨.ofList [("x", .number 3)], ""⟩ :=
    ⟨_, _, by cbv, by cbv, by cbv, by cbv, fun files => by cbv⟩
  have hnames : ∀ x, l.arena.Names 8 x → x = "x" := by
    rintro x ⟨j, hj, hx, hcallee⟩
    have hle := hj.le (isTree_of_lower hl).ordered
    have happlied : j ≠ 9 := by
      rintro rfl
      exact hcallee 8 10 (Arena.below_of_node? happly) happly
    obtain ⟨k, s, hk, hs, -, hvalue⟩ := Arena.exists_slot_of_node? hx
    obtain rfl := Int.ofNat.inj hk
    rw [hslots] at hs
    obtain ⟨hlt, rfl⟩ := Array.getElem?_eq_some_iff.1 hs
    simp only [List.size_toArray, List.length_cons, List.length_nil] at hlt
    interval_cases j <;> simp_all
  refine ⟨l, p, hl, hp, happly, fun files v => ?_⟩
  have hagree : Frame.SameOn (l.arena.Names 8) ⟨.ofList [("x", .number 3)], ""⟩
      ⟨.ofList [("x", .number 3), ("f", v)], ""⟩ := by
    refine ⟨fun x hx => ?_, rfl⟩
    obtain rfl := hnames x hx
    rfl
  have hsame := ((evaluation_sees_own_names hl p files 3).1 8).2 _ _ hagree
  change SameResult _ (evaluate _ 3 8 _) (evaluate _ 3 8 _) at hsame
  rw [hrun files] at hsame
  generalize evaluate ⟨l.arena, p, files⟩ 3 8 ⟨.ofList [("x", .number 3), ("f", v)], ""⟩ = r
    at hsame ⊢
  cases hsame with
  | @ok _ _ g hfg =>
    obtain ⟨e, printed⟩ := g
    cases hfg.printed
    exact ⟨e, rfl⟩

end LetLang.Lowering
