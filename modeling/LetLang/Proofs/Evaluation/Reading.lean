import LetLang.Proofs.Evaluation.Nodes

/-!
# What an evaluation reads

The evaluation of a node follows the numbers that the node holds, except for the type of a binding.
So two arenas evaluate a node alike if they hold the same nodes wherever these numbers lead to.
-/

namespace LetLang

/-- The numbers that the evaluation of a node follows. -/
def Node.operands : Node → List Int
  | .bind id _ value => [id, value]
  | node => node.references

/-- Both arenas hold the same nodes on `K`, and the operands of these lie in `K`. -/
def Arena.AgreeOn (K : Int → Prop) (a b : Arena Node) : Prop :=
  ∀ i, K i → ∃ node, a.node? i = some node ∧ b.node? i = some node ∧ ∀ j ∈ node.operands, K j

theorem Arena.AgreeOn.value?_eq {K : Int → Prop} {a b : Arena Node} (h : a.AgreeOn K b) {i : Int}
    (hi : K i) : a.value? i = b.value? i := by
  obtain ⟨node, ha, hb, -⟩ := h i hi
  rw [value?_eq_some_iff.2 ha, value?_eq_some_iff.2 hb]

/-- The parameters and the bodies of the program lie in `K`. -/
def Program.Within (K : Int → Prop) (p : Program) : Prop :=
  ∀ x name is b, p.get? x = some (.lowered name is b) → (∀ i ∈ is, K i) ∧ K b

namespace Evaluation

variable {K : Int → Prop} {a b : Arena Node} {p : Program} {files : Files}

theorem identifiersAt_congr (h : a.AgreeOn K b) (files : Files) (x : String) {is : List Int}
    (his : ∀ i ∈ is, K i) :
    identifiersAt ⟨a, p, files⟩ x is = identifiersAt ⟨b, p, files⟩ x is := by
  induction is with
  | nil => rfl
  | cons i is ih =>
    obtain ⟨hi, his⟩ := List.forall_mem_cons.1 his
    obtain ⟨node, ha, hb, -⟩ := h i hi
    simp only [identifiersAt, nodeAt_eq (m := ⟨a, p, files⟩) ha, nodeAt_eq (m := ⟨b, p, files⟩) hb,
      ih his]

theorem parameterNames_congr (h : a.AgreeOn K b) (hp : p.Within K) (files : Files) {x : String}
    {f : Function} (hf : p.get? x = some f) :
    parameterNames ⟨a, p, files⟩ f = parameterNames ⟨b, p, files⟩ f := by
  cases f with
  | native => rfl
  | lowered name is body => exact identifiersAt_congr h files name (hp x name is body hf).1

section
variable {run run' : Int → Step Value}

theorem enter_congr (hp : p.Within K) (hrun : ∀ i, K i → run i = run' i) {x : String}
    {f : Function} (hf : p.get? x = some f) :
    enter ⟨a, p, files⟩ run f = enter ⟨b, p, files⟩ run' f := by
  cases f with
  | native _ _ action => cases action <;> rfl
  | lowered name is body => simp only [enter, hrun body (hp x name is body hf).2]

theorem call_congr (h : a.AgreeOn K b) (hp : p.Within K) (hrun : ∀ i, K i → run i = run' i)
    (x : String) (v : Value) :
    call ⟨a, p, files⟩ run x v = call ⟨b, p, files⟩ run' x v := by
  unfold call
  dsimp only
  cases hf : p.get? x with
  | none => rfl
  | some f =>
    simp only [parameterNames_congr h hp files hf, enter_congr (a := a) (b := b) hp hrun hf]

end

theorem evaluate_congr (h : a.AgreeOn K b) (hp : p.Within K) (fuel : Nat) (i : Int) (hi : K i) :
    evaluate ⟨a, p, files⟩ fuel i = evaluate ⟨b, p, files⟩ fuel i := by
  induction fuel generalizing i with
  | zero => rfl
  | succ fuel ih =>
    obtain ⟨node, ha, hb, hoperands⟩ := h i hi
    have hpart : ∀ j ∈ node.operands,
        evaluate ⟨a, p, files⟩ fuel j = evaluate ⟨b, p, files⟩ fuel j :=
      fun j hj => ih j (hoperands j hj)
    unfold evaluate
    rw [nodeAt_eq (m := ⟨a, p, files⟩) ha, nodeAt_eq (m := ⟨b, p, files⟩) hb, pure_bind, pure_bind]
    cases node with
    | bind name type value =>
      obtain ⟨named, ha', hb', -⟩ := h name (hoperands name (by simp [Node.operands]))
      have hvalue := hpart value (by simp [Node.operands])
      simp only [nodeAt_eq (m := ⟨a, p, files⟩) ha', nodeAt_eq (m := ⟨b, p, files⟩) hb', pure_bind,
        hvalue]
    | sequence parts => exact Congruence.eq.inSequence _ _ (List.forall₂_same.2 hpart) rfl
    | binary op left right =>
      have hleft := hpart left (by simp [Node.operands, Node.references])
      have hright := hpart right (by simp [Node.operands, Node.references])
      simp only [hleft, hright]
    | apply callee argument =>
      obtain ⟨called, ha', hb', -⟩ :=
        h callee (hoperands callee (by simp [Node.operands, Node.references]))
      have hargument := hpart argument (by simp [Node.operands, Node.references])
      simp only [hargument, nodeAt_eq (m := ⟨a, p, files⟩) ha', nodeAt_eq (m := ⟨b, p, files⟩) hb',
        pure_bind]
      refine bind_congr fun v => ?_
      split
      · exact call_congr h hp ih _ v
      · rfl
    | tuple parts | array parts =>
      have hparts : inOrder _ parts = inOrder _ parts :=
        Congruence.eq.inOrder _ _ (List.forall₂_same.2 hpart)
      simp only [hparts]
    | _ => rfl

theorem runEntry_congr (h : a.AgreeOn K b) (hp : p.Within K) (fuel : Nat) :
    runEntry ⟨a, p, files⟩ fuel = runEntry ⟨b, p, files⟩ fuel := by
  unfold runEntry
  dsimp only
  cases hf : p.get? entryName with
  | none => rfl
  | some f =>
    have hrun : ∀ i, K i → evaluate ⟨a, p, files⟩ fuel i = evaluate ⟨b, p, files⟩ fuel i :=
      fun i => evaluate_congr h hp fuel i
    simp only [parameterNames_congr h hp files hf, enter_congr (a := a) (b := b) hp hrun hf]

/-- The nodes outside of what the operands of a program lead to do not matter to its run. -/
theorem run_congr (h : a.AgreeOn K b) (hp : p.Within K) (files : Files) :
    run ⟨a, p, files⟩ = run ⟨b, p, files⟩ := by
  funext fuel
  unfold run
  rw [runEntry_congr h hp fuel]

end Evaluation

end LetLang
