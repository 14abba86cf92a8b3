import LetLang.Proofs.Arena.Reachable
import LetLang.Proofs.Evaluation.Names
import LetLang.Proofs.Evaluation.Nodes

/-!
# What an evaluation sees and what it changes

A call takes its argument and gives back a value; apart from that it only prints. The environment of
its caller it neither sees nor changes. So the evaluation of a node sees no other variables than
those that are named in the tree below the node, where the names of applied functions do not count,
and it changes no other variables than those that are bound in this tree.
-/

namespace LetLang

open Evaluation

namespace Arena

variable {a : Arena Node} {n k : Nat} {node : Node} {x : String}

/-- The tree below the node binds the name. -/
def Binds (a : Arena Node) (n : Nat) (x : String) : Prop :=
  ∃ (j : Nat) (binder type value : Int), a.Below n j ∧
    a.node? j = some (.bind binder type value) ∧ a.node? binder = some (.identifier x)

/-- The name stands in the tree below the node, and not as that of an applied function. -/
def Names (a : Arena Node) (n : Nat) (x : String) : Prop :=
  ∃ j : Nat, a.Below n j ∧ a.node? j = some (.identifier x) ∧
    ∀ (i : Nat) (argument : Int), a.Below n i → a.node? i ≠ some (.apply j argument)

theorem below_of_node? (h : a.node? n = some node) : a.Below n n := by
  obtain ⟨i, s, hi, hs, -⟩ := exists_slot_of_node? h
  obtain rfl := Int.ofNat.inj hi
  exact .self hs

namespace IsTree

variable (ha : a.IsTree)
include ha

theorem isChild_of_mem_references (hn : a.node? n = some node)
    (hk : (k : Int) ∈ node.references) : a.isChild n k = true := by
  obtain ⟨i, s, hi, hs, -, rfl⟩ := exists_slot_of_node? hn
  obtain rfl := Int.ofNat.inj hi
  obtain ⟨j, hj, hchild⟩ := (ha.mem_references_iff hs).1 hk
  obtain rfl := Int.ofNat.inj hj
  exact hchild

/-- No node applies its argument. -/
theorem argument_ne_callee {callee argument : Int}
    (hn : a.node? n = some (.apply callee argument)) : argument ≠ callee := by
  obtain ⟨i, s, hi, hs, -, hvalue⟩ := exists_slot_of_node? hn
  have hi : 0 < i := by
    obtain ⟨fs, hroot, -⟩ := ha.root
    refine Nat.pos_of_ne_zero fun hzero => ?_
    subst hzero
    cases hroot.symm.trans hs
    cases hvalue
  have hpairwise := ha.pairwise_references hi hs
  rw [hvalue] at hpairwise
  have hlt : callee < argument := by simpa [Node.references] using hpairwise
  omega

theorem binds_of_part (hn : a.node? n = some node) (hk : (k : Int) ∈ node.evaluated)
    (h : a.Binds k x) : a.Binds n x := by
  obtain ⟨j, binder, type, value, hj, hbind⟩ := h
  obtain ⟨i, hi, -, -, hbelow⟩ := ha.exists_of_mem_references hn (node.evaluated_subset hk)
  obtain rfl := Int.ofNat.inj hi
  exact ⟨j, binder, type, value, (hbelow n (below_of_node? hn)).trans hj, hbind⟩

/-- What is named in an evaluated part is named in the whole. -/
theorem names_of_part (hn : a.node? n = some node) (hk : (k : Int) ∈ node.evaluated)
    (h : a.Names k x) : a.Names n x := by
  obtain ⟨j, hj, hx, hcallee⟩ := h
  have hchild := ha.isChild_of_mem_references hn (node.evaluated_subset hk)
  have hbelow : a.Below n k := (below_of_node? hn).of_isChild hchild
  refine ⟨j, hbelow.trans hj, hx, fun i argument hi happly => ?_⟩
  have happlied := ha.isChild_of_mem_references happly (k := j) (by simp [Node.references])
  cases hj with
  | self hs =>
    -- The part would be applied by the node itself, whose argument it is.
    obtain rfl := isChild_unique hchild happlied
    cases hn.symm.trans happly
    have hargument : (k : Int) = argument := by simpa [Node.evaluated] using hk
    exact ha.argument_ne_callee happly hargument.symm
  | @child p j s hp hs hparent =>
    obtain ⟨t, ht, -, hi', -⟩ := isChild_eq_true_iff.1 happlied
    cases hs.symm.trans ht
    obtain rfl : p = i := by omega
    exact hcallee p argument hp happly

end IsTree

end Arena

namespace Evaluation

variable {α β : Type} {N L : String → Prop} {m : Machine}

def printedAfter (s : String) : EStateM.Result Halt Frame α → EStateM.Result Halt Frame α
  | .ok a f => .ok a { f with printed := s ++ f.printed }
  | .error h f => .error h { f with printed := s ++ f.printed }

/-- The step does not see what was printed before, and keeps it. -/
def OnlyAdds (x : Step α) : Prop :=
  ∀ (s : String) (f : Frame), x { f with printed := s ++ f.printed } = printedAfter s (x f)

namespace OnlyAdds

theorem pure (a : α) : OnlyAdds (pure a) := fun _ _ => rfl

theorem throw (h : Halt) : OnlyAdds (throw h : Step α) := fun _ _ => rfl

theorem look (x : String) : OnlyAdds (look x) := fun _ _ => rfl

theorem print (text : String) : OnlyAdds (print text) := by
  intro s f
  change EStateM.Result.ok () (Frame.mk f.environment (s ++ f.printed ++ text)) =
    .ok () ⟨f.environment, s ++ (f.printed ++ text)⟩
  rw [String.append_assoc]

theorem bind {x : Step α} {p : α → Step β} (h : OnlyAdds x) (hp : ∀ a, OnlyAdds (p a)) :
    OnlyAdds (x >>= p) := by
  intro s f
  change EStateM.bind x p _ = printedAfter s (EStateM.bind x p f)
  unfold EStateM.bind
  rw [h s f]
  cases x f with
  | ok a g => exact hp a s g
  | error e g => rfl

theorem congruence : Congruence fun _ x _ => OnlyAdds x where
  pure := pure
  bind := bind

theorem nodeCongruence (files : Files) : NodeCongruence files fun _ x _ => OnlyAdds x where
  toCongruence := congruence
  fail e _ := throw (.failed e)

theorem perform (m : Machine) (action : Action) : OnlyAdds (perform m action) :=
  (nodeCongruence m.files).perform (look _) print (fun _ _ => rfl) action

theorem enter {run : Int → Step Value} (hrun : ∀ i, OnlyAdds (run i)) (f : Function) :
    OnlyAdds (enter m run f) :=
  (nodeCongruence m.files).enter run run (perform m) hrun f

end OnlyAdds

/-- The step prints a fixed text and ends in a fixed way. It does nothing else, whatever the frame
it begins with. -/
def Isolated (x : Step α) : Prop :=
  ∃ (text : String) (ending : Except Halt α), x = do print text; MonadExcept.ofExcept ending

namespace Isolated

theorem pure (a : α) : Isolated (pure a) := by
  refine ⟨"", .ok a, funext fun f => ?_⟩
  change EStateM.Result.ok a f = .ok a { f with printed := f.printed ++ "" }
  rw [String.append_empty]

theorem fail (e : RunError) : Isolated (fail e : Step α) := by
  refine ⟨"", .error (.failed e), funext fun f => ?_⟩
  change EStateM.Result.error _ f = .error _ { f with printed := f.printed ++ "" }
  rw [String.append_empty]

theorem bind {x : Step α} {p : α → Step β} (h : Isolated x) (hp : ∀ a, Isolated (p a)) :
    Isolated (x >>= p) := by
  obtain ⟨text, ending, rfl⟩ := h
  cases ending with
  | error e => exact ⟨text, .error e, rfl⟩
  | ok a =>
    obtain ⟨text', ending', hpa⟩ := hp a
    refine ⟨text ++ text', ending', funext fun f => ?_⟩
    change p a { f with printed := f.printed ++ text } =
      (MonadExcept.ofExcept ending' : Step β) { f with printed := f.printed ++ (text ++ text') }
    rw [hpa, ← String.append_assoc]
    rfl

theorem nodeAt (id : Int) : Isolated (nodeAt m id) := by
  unfold Evaluation.nodeAt
  split
  · exact fail _
  · exact fail _
  · exact pure _

theorem nodeCongruence (files : Files) : NodeCongruence files fun _ x _ => Isolated x where
  pure := pure
  bind := bind
  fail e _ := fail e

theorem inCall {x : Step α} (h : OnlyAdds x) (environment : Environment) :
    Isolated (inCall environment x) := by
  have hadds : ∀ f : Frame, x ⟨environment, f.printed⟩ =
      printedAfter f.printed (x ⟨environment, ""⟩) := by
    intro f
    rw [← h f.printed ⟨environment, ""⟩, String.append_empty]
  cases hx : x ⟨environment, ""⟩ with
  | ok a g =>
    refine ⟨g.printed, .ok a, funext fun f => ?_⟩
    unfold Evaluation.inCall
    rw [hadds f, hx]
    rfl
  | error e g =>
    refine ⟨g.printed, .error e, funext fun f => ?_⟩
    unfold Evaluation.inCall
    rw [hadds f, hx]
    rfl

theorem call {run : Int → Step Value} (hrun : ∀ i, OnlyAdds (run i)) (x : String) (v : Value) :
    Isolated (call m run x v) :=
  (nodeCongruence m.files).call run run (fun f e _ => inCall (.enter hrun f) e) v

/-- What holds of printing and of stopping holds of the step. -/
theorem related {R : (α : Type) → Step α → Step α → Prop} (hR : Congruence R)
    (hprint : ∀ text, R Unit (print text) (print text))
    (hthrow : ∀ h : Halt, R α (throw h) (throw h)) {x : Step α} (hx : Isolated x) : R α x x := by
  obtain ⟨text, ending, rfl⟩ := hx
  refine hR.bind (hprint text) fun _ => ?_
  cases ending with
  | ok a => exact hR.pure a
  | error h => exact hthrow h

theorem onlyAdds {x : Step α} (h : Isolated x) : OnlyAdds x :=
  h.related OnlyAdds.congruence OnlyAdds.print OnlyAdds.throw

theorem sameOn {x : Step α} (h : Isolated x) : SameOn N x x :=
  h.related SameOn.congruence SameOn.print SameOn.throw

end Isolated

theorem onlyAdds_evaluate (m : Machine) (fuel : Nat) (id : Int) :
    OnlyAdds (evaluate m fuel id) := by
  induction fuel generalizing id with
  | zero => exact .throw _
  | succ fuel ih =>
    exact (OnlyAdds.nodeCongruence m.files).evaluate fuel fuel (fun _ _ i _ => ih i)
      (fun _ _ => .look _) (fun _ _ _ _ _ _ _ _ _ => rfl) fun _ _ x _ _ v =>
      (Isolated.call ih x v).onlyAdds

/-- A call sees nothing of its caller but the argument, and does nothing to it but print. -/
theorem isolated_call (m : Machine) (fuel : Nat) (x : String) (v : Value) :
    Isolated (call m (evaluate m fuel) x v) :=
  .call (onlyAdds_evaluate m fuel) x v

def reached : EStateM.Result Halt Frame α → Frame
  | .ok _ f => f
  | .error _ f => f

/-- No binding was removed, and only the names `L` are bound in another way. -/
structure Environment.ChangedOnly (L : String → Prop) (e e' : Environment) : Prop where
  kept : ∀ x, (e.get? x).isSome = true → (e'.get? x).isSome = true
  changed : ∀ x, e'.get? x ≠ e.get? x → L x

namespace Environment.ChangedOnly

variable {e e₁ e₂ : Environment}

theorem refl (e : Environment) : ChangedOnly L e e where
  kept _ h := h
  changed _ h := absurd rfl h

theorem trans (h : ChangedOnly L e e₁) (h' : ChangedOnly L e₁ e₂) : ChangedOnly L e e₂ where
  kept x hx := h'.kept x (h.kept x hx)
  changed x hx := by
    by_cases hfirst : e₁.get? x = e.get? x
    · exact h'.changed x (hfirst ▸ hx)
    · exact h.changed x hfirst

theorem insert (e : Environment) {x : String} (hx : L x) (v : Value) :
    ChangedOnly L e (Table.insert e x v) where
  kept y hy := by
    rw [Table.get?_insert]
    split
    · rfl
    · exact hy
  changed y hy := by
    rw [Table.get?_insert] at hy
    split at hy
    · next heq => exact heq ▸ hx
    · exact absurd rfl hy

end Environment.ChangedOnly

/-- The step removes no binding, and changes and adds bindings of the names `L` only. -/
def ChangesOnly (L : String → Prop) (x : Step α) : Prop :=
  ∀ f : Frame, Environment.ChangedOnly L f.environment (reached (x f)).environment

namespace ChangesOnly

theorem pure (a : α) : ChangesOnly L (pure a) := fun f => .refl f.environment

theorem throw (h : Halt) : ChangesOnly L (throw h : Step α) := fun f => .refl f.environment

theorem look (x : String) : ChangesOnly L (look x) := fun f => .refl f.environment

theorem print (text : String) : ChangesOnly L (print text) := fun f => .refl f.environment

theorem bindName {x : String} (hx : L x) (v : Value) : ChangesOnly L (Evaluation.bind x v) :=
  fun f => .insert f.environment hx v

theorem bind {x : Step α} {p : α → Step β} (h : ChangesOnly L x) (hp : ∀ a, ChangesOnly L (p a)) :
    ChangesOnly L (x >>= p) := by
  intro f
  have hx := h f
  change Environment.ChangedOnly L f.environment (reached (EStateM.bind x p f)).environment
  unfold EStateM.bind
  generalize x f = r at hx
  cases r with
  | ok a g => exact hx.trans (hp a g)
  | error e g => exact hx

theorem congruence : Congruence fun _ x _ => ChangesOnly L x where
  pure := pure
  bind := bind

theorem nodeCongruence (files : Files) : NodeCongruence files fun _ x _ => ChangesOnly L x where
  toCongruence := congruence
  fail e _ := throw (.failed e)

end ChangesOnly

theorem Isolated.changesOnly {x : Step α} (h : Isolated x) : ChangesOnly L x :=
  h.related ChangesOnly.congruence ChangesOnly.print ChangesOnly.throw

section
variable (ha : m.arena.IsTree)
include ha

/-- An evaluation only changes what is bound below its node. -/
theorem changesOnly_evaluate (fuel : Nat) {n : Nat} (hL : ∀ x, m.arena.Binds n x → L x) :
    ChangesOnly L (evaluate m fuel n) := by
  induction fuel generalizing n with
  | zero => exact .throw _
  | succ fuel ih =>
    refine (ChangesOnly.nodeCongruence m.files).evaluate fuel fuel (fun node hnode i hi => ?_)
      (fun _ _ => .look _) (fun binder type value x hnode hbinder v => ?_)
      fun _ _ x _ _ v => (isolated_call m fuel x v).changesOnly
    · obtain ⟨k, rfl, -⟩ := ha.exists_of_mem_references hnode (node.evaluated_subset hi)
      exact ih fun x hx => hL x (ha.binds_of_part hnode hi hx)
    · exact .bindName (hL x ⟨n, binder, type, value, Arena.below_of_node? hnode, hnode, hbinder⟩) v

/-- An evaluation only sees what is named below its node. -/
theorem sameOn_evaluate (fuel : Nat) {n : Nat} (hN : ∀ x, m.arena.Names n x → N x) :
    SameOn N (evaluate m fuel n) (evaluate m fuel n) := by
  induction fuel generalizing n with
  | zero => exact .throw _
  | succ fuel ih =>
    have hcongruence : NodeCongruence m.files fun _ => SameOn N :=
      ⟨SameOn.congruence, fun e _ => .fail e⟩
    refine hcongruence.evaluate fuel fuel (fun node hnode i hi => ?_) (fun x hnode => ?_)
      (fun _ _ _ x _ _ v => .bindName x v) fun _ _ x _ _ v => (isolated_call m fuel x v).sameOn
    · obtain ⟨k, rfl, -⟩ := ha.exists_of_mem_references hnode (node.evaluated_subset hi)
      exact ih fun x hx => hN x (ha.names_of_part hnode hi hx)
    · refine .look (hN x ⟨n, Arena.below_of_node? hnode, hnode, fun i argument hi happly => ?_⟩)
      -- A node that applies this one lies above it.
      have hchild := ha.isChild_of_mem_references happly (k := n) (by simp [Node.references])
      obtain ⟨s, -, -, -, hlt⟩ := Arena.isChild_eq_true_iff.1 hchild
      have hle := hi.le ha.ordered
      omega

end

/-- What follows a step in isolation leaves the environment as the step left it. -/
theorem environment_bind_isolated {x : Step α} {p : α → Step β} (hp : ∀ a, Isolated (p a))
    (f : Frame) : (reached ((x >>= p) f)).environment = (reached (x f)).environment := by
  change (reached (EStateM.bind x p f)).environment = _
  unfold EStateM.bind
  cases x f with
  | ok a g =>
    obtain ⟨text, ending, hpa⟩ := hp a
    dsimp only
    rw [hpa]
    cases ending <;> rfl
  | error e g => rfl

theorem isolated_applied (fuel : Nat) (callee : Int) (v : Value) :
    Isolated (applied m fuel callee v) := by
  refine (Isolated.nodeAt callee).bind fun node => ?_
  split
  · exact isolated_call m fuel _ v
  · exact .fail _

end Evaluation

end LetLang
