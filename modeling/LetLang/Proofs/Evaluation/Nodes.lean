import LetLang.Proofs.Arena.Growth
import LetLang.Proofs.Evaluation.Congruence

/-!
# From the parts of a node to the node

A node looks up or binds a name of its own, evaluates its parts and makes a call. So a congruence of
steps that holds of failures holds of the evaluations of a node if it holds of these. The
evaluations may differ in their fuel.
-/

namespace LetLang

/-- The nodes that are evaluated when a node is, in order. The name that is bound is not, nor is the
name of an applied function. -/
def Node.evaluated : Node → List Int
  | .bind _ _ value => [value]
  | .sequence parts | .tuple parts | .array parts => parts
  | .binary _ left right => [left, right]
  | .apply _ argument => [argument]
  | _ => []

theorem Node.evaluated_subset (node : Node) : node.evaluated ⊆ node.references := by
  cases node <;> simp [evaluated, references]

namespace Evaluation

theorem arguments_eq_error {name : String} {ps : List String} {v : Value} {e : RunError}
    (h : arguments name ps v = .error e) :
    ∃ n, e = .argumentCount name ps.length n ∧ ps.length ≠ n := by
  have hwhole : ∀ u, arguments.whole name ps u = .error e →
      ∃ n, e = .argumentCount name ps.length n ∧ ps.length ≠ n := by
    intro u hu
    unfold arguments.whole at hu
    split at hu
    · cases hu
    · next hne =>
      cases hu
      refine ⟨1, rfl, fun hone => ?_⟩
      obtain ⟨p, rfl⟩ := List.length_eq_one_iff.1 hone
      exact hne p rfl
  unfold arguments at h
  split at h
  · exact hwhole _ h
  · split at h
    · cases h
    · next hne =>
      cases h
      exact ⟨_, rfl, hne⟩
  · exact hwhole _ h

/-- A failure with values in its message is itself, or that one of them has no text. -/
theorem showing_holds {P : RunError → Prop} {e : RunError} (h : P e)
    (hunwritten : ∀ v : Value, v.hasText = false → P (.unwritten v)) (vs : List Value) :
    P (.showing vs e) := by
  unfold RunError.showing
  split
  · next v hv => exact hunwritten v (by simpa using List.find?_some hv)
  · exact h

theorem inspected_eq_error {v : Value} {e : RunError} (h : inspected v = .error e) :
    e = .unwritten v ∧ v.hasText = false := by
  unfold inspected at h
  split at h
  · cases h
  · next htext => exact ⟨(Except.error.inj h).symm, Bool.eq_false_iff.2 htext⟩

/-- An operator fails with a complaint about an index or about its operands, which the failure
shows. -/
theorem operate_eq_error {op : Operator} {l r : Value} {e : RunError}
    (h : operate op l r = .error e) :
    ∃ vs complaint, e = .showing vs complaint ∧
      ((∃ i n, complaint = .indexOutOfBounds i n ∧ (i < 0 ∨ (n : Int) ≤ i)) ∨
        complaint = .operands l r) := by
  unfold operate at h
  split at h
  · cases h
  · cases h
  · next vs i =>
    dsimp only at h
    split at h
    · next hneg => exact ⟨_, _, (Except.error.inj h).symm, .inl ⟨i, _, rfl, .inl hneg⟩⟩
    · split at h
      · cases h
      · next hnone =>
        rw [List.getElem?_eq_none_iff] at hnone
        exact ⟨_, _, (Except.error.inj h).symm, .inl ⟨i, _, rfl, .inr (by omega)⟩⟩
  · exact ⟨_, _, (Except.error.inj h).symm, .inr rfl⟩

/-- If the failure is about a file, reading the file fails in that way; if it is about a value, the
value has no text. -/
def Truthful (files : Files) (e : RunError) : Prop :=
  (∀ name cause, e = .unreadable name cause → files.readText name = .error cause) ∧
    ∀ v, e = .unwritten v → v.hasText = false

theorem truthful_unwritten {files : Files} {v : Value} (h : v.hasText = false) :
    Truthful files (.unwritten v) := by
  refine ⟨nofun, ?_⟩
  rintro _ ⟨⟩
  exact h

theorem truthful_showing {files : Files} {e : RunError} (h : Truthful files e) (vs : List Value) :
    Truthful files (.showing vs e) :=
  showing_holds h (fun _ => truthful_unwritten) vs

/-- A congruence that holds of failures. Complaints about files and values are known to be true. -/
structure NodeCongruence (files : Files) (R : (α : Type) → Step α → Step α → Prop) : Prop
    extends Congruence R where
  fail : ∀ {α : Type} (e : RunError), Truthful files e → R α (fail e) (fail e)

namespace NodeCongruence

variable {R : (α : Type) → Step α → Step α → Prop} {m : Machine} (hR : NodeCongruence m.files R)
  {α : Type}
include hR

theorem lift {r : Except RunError α} (h : ∀ e, r = .error e → Truthful m.files e) :
    R α (lift r) (lift r) := by
  cases r with
  | ok a => exact hR.pure a
  | error e => exact hR.fail e (h e rfl)

/-- What follows a node only matters for the node that is there. -/
theorem nodeAtBind {id : Int} (k k' : Node → Step α)
    (hk : ∀ node, m.arena.node? id = some node → R α (k node) (k' node)) :
    R α (nodeAt m id >>= k) (nodeAt m id >>= k') := by
  unfold nodeAt
  cases hv : m.arena.value? id with
  | error e => exact hR.fail (.unissued e) (by simp [Truthful])
  | ok o =>
    cases o with
    | none => exact hR.fail (.deleted id) (by simp [Truthful])
    | some node => exact hk node (Arena.value?_eq_some_iff.1 hv)

theorem identifiersAt (function : String) (ids : List Int) :
    R _ (identifiersAt m function ids) (identifiersAt m function ids) := by
  induction ids with
  | nil => exact hR.pure []
  | cons id ids ih =>
    unfold Evaluation.identifiersAt
    refine hR.nodeAtBind _ _ fun node _ => ?_
    split
    · exact hR.bind ih fun _ => hR.pure _
    · exact hR.fail _ (by simp [Truthful])

theorem parameterNames (f : Function) : R _ (parameterNames m f) (parameterNames m f) := by
  cases f with
  | native => exact hR.pure _
  | lowered => exact hR.identifiersAt _ _

theorem nativeArgument (hlook : R _ (look nativeParameter) (look nativeParameter))
    (native : String) : R _ (nativeArgument native) (nativeArgument native) := by
  refine hR.bind hlook fun o => ?_
  cases o with
  | none => exact hR.fail _ (by simp [Truthful])
  | some v => exact hR.pure v

theorem nativeText (hlook : R _ (look nativeParameter) (look nativeParameter)) (native : String) :
    R _ (nativeText native) (nativeText native) := by
  refine hR.bind (hR.nativeArgument hlook native) fun v => ?_
  split
  · exact hR.pure _
  · exact hR.fail _ (truthful_showing (by simp [Truthful]) _)

/-- A native looks at its argument, and may print. One of them looks at the whole environment. -/
theorem perform (hlook : R _ (look nativeParameter) (look nativeParameter))
    (hprint : ∀ text, R _ (print text) (print text))
    (hbound : R _ (perform m .boundNames) (perform m .boundNames)) (action : Action) :
    R _ (perform m action) (perform m action) := by
  cases action with
  | print | printLine =>
    exact hR.bind (hR.nativeText hlook _) fun _ => hR.bind (hprint _) fun _ => hR.pure _
  | readFile =>
    refine hR.bind (hR.nativeText hlook _) fun name => ?_
    cases hfile : m.files.readText name with
    | ok s => exact hR.pure _
    | error cause =>
      refine hR.fail _ ⟨?_, nofun⟩
      rintro _ _ ⟨⟩
      exact hfile
  | inspect =>
    refine hR.bind (hR.nativeArgument hlook _) fun v => hR.bind (hR.lift fun e he => ?_) fun _ =>
      hR.pure _
    obtain ⟨rfl, hv⟩ := inspected_eq_error he
    exact truthful_unwritten hv
  | argument => exact hlook
  | functionNames | constant => exact hR.pure _
  | boundNames => exact hbound

theorem enter (run run' : Int → Step Value)
    (hperform : ∀ action, R _ (Evaluation.perform m action) (Evaluation.perform m action))
    (hrun : ∀ i, R _ (run i) (run' i)) (f : Function) :
    R _ (enter m run f) (enter m run' f) := by
  cases f with
  | native _ _ action => exact hperform action
  | lowered _ _ body => exact hR.bind (hrun body) fun _ => hR.pure _

theorem call (run run' : Int → Step Value) {name : String}
    (hcall : ∀ f environment, m.program.get? name = some f →
      R _ (inCall environment (Evaluation.enter m run f))
        (inCall environment (Evaluation.enter m run' f))) (v : Value) :
    R Value (call m run name v) (call m run' name v) := by
  unfold Evaluation.call
  cases hf : m.program.get? name with
  | none => exact hR.fail _ (by simp [Truthful])
  | some f =>
    refine hR.bind (hR.parameterNames f) fun ps => hR.bind (hR.lift fun e he => ?_) fun e => ?_
    · obtain ⟨n, rfl, -⟩ := arguments_eq_error he
      simp [Truthful]
    · exact hR.bind (hcall f e hf) fun _ => hR.pure _

theorem evaluate (fuel fuel' : Nat) {id : Int}
    (hpart : ∀ node, m.arena.node? id = some node → ∀ i ∈ node.evaluated,
      R _ (evaluate m fuel i) (evaluate m fuel' i))
    (hlook : ∀ name, m.arena.node? id = some (.identifier name) → R _ (look name) (look name))
    (hbind : ∀ binder type value name, m.arena.node? id = some (.bind binder type value) →
      m.arena.node? binder = some (.identifier name) → ∀ v,
      R _ (Evaluation.bind name v) (Evaluation.bind name v))
    (hcall : ∀ callee argument name, m.arena.node? id = some (.apply callee argument) →
      m.arena.node? callee = some (.identifier name) → ∀ v,
      R _ (Evaluation.call m (evaluate m fuel) name v)
        (Evaluation.call m (evaluate m fuel') name v)) :
    R _ (evaluate m (fuel + 1) id) (evaluate m (fuel' + 1) id) := by
  unfold Evaluation.evaluate
  refine hR.nodeAtBind _ _ fun node hnode => ?_
  have hparts := hpart node hnode
  cases node with
  | bind binder type value =>
    refine hR.nodeAtBind _ _ fun node hbinder => ?_
    split
    · next name =>
      exact hR.bind (hparts value (by simp [Node.evaluated])) fun v =>
        hR.bind (hbind binder type value name hnode hbinder v) fun _ => hR.pure _
    · exact hR.fail _ (by simp [Truthful])
  | sequence parts =>
    exact hR.inSequence _ _ (List.forall₂_same.2 hparts) (hR.fail _ (by simp [Truthful]))
  | identifier name =>
    refine hR.bind (hlook name hnode) fun o => ?_
    cases o with
    | none => exact hR.fail _ (by simp [Truthful])
    | some v => exact hR.pure v
  | binary op left right =>
    refine hR.bind (hparts left (by simp [Node.evaluated])) fun l =>
      hR.bind (hparts right (by simp [Node.evaluated])) fun r => hR.lift fun e he => ?_
    obtain ⟨vs, complaint, rfl, hcomplaint⟩ := operate_eq_error he
    refine truthful_showing ?_ vs
    rcases hcomplaint with ⟨i, n, rfl, -⟩ | rfl <;> simp [Truthful]
  | apply callee argument =>
    refine hR.bind (hparts argument (by simp [Node.evaluated])) fun v =>
      hR.nodeAtBind _ _ fun node hcallee => ?_
    split
    · next name => exact hcall callee argument name hnode hcallee v
    · exact hR.fail _ (by simp [Truthful])
  | number | boolean | text => exact hR.pure _
  | tuple | array =>
    exact hR.bind (hR.inOrder _ _ (List.forall₂_same.2 hparts)) fun _ => hR.pure _
  | _ => exact hR.fail _ (by simp [Truthful])

end NodeCongruence

theorem nodeAt_eq {m : Machine} {id : Int} {node : Node} (h : m.arena.node? id = some node) :
    nodeAt m id = pure node := by
  unfold nodeAt
  rw [Arena.value?_eq_some_iff.2 h]

def applied (m : Machine) (fuel : Nat) (callee : Int) (v : Value) : Step Value := do
  match ← nodeAt m callee with
  | .identifier name => call m (evaluate m fuel) name v
  | node => fail (.applyTargetNotName node.label)

section
variable {m : Machine} {fuel : Nat} {id callee argument : Int}

theorem applied_of_name {x : String} (h : m.arena.node? callee = some (.identifier x)) (v : Value) :
    applied m fuel callee v = call m (evaluate m fuel) x v := by
  rw [applied, nodeAt_eq h]
  rfl

theorem evaluate_apply (h : m.arena.node? id = some (.apply callee argument)) :
    evaluate m (fuel + 1) id = evaluate m fuel argument >>= applied m fuel callee := by
  rw [evaluate, nodeAt_eq h]
  rfl

end

end Evaluation

end LetLang
