import LetLang.Proofs.Typing.Denote

/-!
# Synthesis and checking

A node that has a type where nothing is demanded has it also where exactly this type is demanded,
and the check goes through the same states. An open demand is no demand: the check differs at most
in the words with which it refuses a lambda.
-/

namespace LetLang.Typing

/-- The type that the tree has where nothing is demanded is one that it can be demanded to have. -/
def Confirms (t : Tree String) : Prop :=
  ∀ ⦃s : State⦄ ⦃u : Ty⦄ ⦃s' : State⦄, check t .nothing s = .ok (some u) s' →
    check t (.exactly u) s = .ok (some u) s'

/-- A tree whose check does not look at the demand has its type under every demand. -/
theorem confirms_of_eq {t : Tree String} (h : ∀ d, check t d = check t .nothing) : Confirms t := by
  intro s u s' hu
  rw [h]
  exact hu

theorem confirms_number (n : Int) : Confirms (.number n) := by
  intro s u s' h
  unfold check at h ⊢
  cases h
  rfl

theorem confirms_lambda (ps : List (Tree String)) (body : Tree String) :
    Confirms (.lambda ps body) := by
  intro s u s' h
  unfold check at h
  cases h

theorem confirms_binary {left right : Tree String} (op : Operator) (hl : Confirms left)
    (hr : Confirms right) : Confirms (.binary left right op) := by
  cases op with
  | index => exact confirms_of_eq fun d => by unfold check; rfl
  | times | plus =>
    intro s u s' h
    unfold check at h
    obtain ⟨o, s₁, hleft, h₁⟩ := bind_eq_ok h
    obtain ⟨t, s₂, ht, h₂⟩ := bind_eq_ok h₁
    obtain ⟨rfl, rfl⟩ := yielded_eq_ok ht
    obtain ⟨o, s₃, hright, h₃⟩ := bind_eq_ok h₂
    obtain ⟨v, s₄, hv, h₄⟩ := bind_eq_ok h₃
    obtain ⟨rfl, rfl⟩ := yielded_eq_ok hv
    split at h₄
    · next heq =>
      subst heq
      cases h₄
      unfold check
      rw [bind_of_ok (hl hleft), bind_of_ok (yielded_some _ _ _), bind_of_ok (hr hright),
        bind_of_ok (yielded_some _ _ _), if_pos rfl]
      rfl
    · cases h₄

theorem checkBlock_of_confirms {ts : List (Tree String)} (hts : ∀ t ∈ ts, Confirms t) {s s' : State}
    {u : Ty} (h : checkBlock ts .nothing s = .ok (some u) s') :
    checkBlock ts (.exactly u) s = .ok (some u) s' := by
  induction ts generalizing s with
  | nil => cases h
  | cons t ts ih =>
    obtain ⟨ht, hrest⟩ := List.forall_mem_cons.1 hts
    cases ts with
    | nil => exact ht h
    | cons v vs =>
      -- only the last statement is under the demand
      rw [checkBlock] at h ⊢
      · obtain ⟨o, s₁, hfirst, h⟩ := bind_eq_ok h
        rw [bind_of_ok hfirst]
        exact ih hrest h
      · simp
      · simp

theorem checkEqual_of_confirms {ts : List (Tree String)} (hts : ∀ t ∈ ts, Confirms t)
    {s s' : State} {u : Ty} (h : checkEqual u .nothing ts s = .ok () s') :
    checkEqual u (.exactly u) ts s = .ok () s' := by
  induction ts generalizing s with
  | nil => exact h
  | cons t ts ih =>
    obtain ⟨ht, hrest⟩ := List.forall_mem_cons.1 hts
    unfold checkEqual at h ⊢
    obtain ⟨o, s₁, hfirst, h₁⟩ := bind_eq_ok h
    obtain ⟨v, s₂, hv, h₂⟩ := bind_eq_ok h₁
    obtain ⟨rfl, rfl⟩ := yielded_eq_ok hv
    split at h₂
    · next heq =>
      subst heq
      rw [bind_of_ok (ht hfirst), bind_of_ok (yielded_some _ _ _), if_pos rfl]
      exact ih hrest h₂
    · cases h₂

/-- The elements of an array are demanded to have the type of the first one. -/
theorem confirms_array {ts : List (Tree String)} (hts : ∀ t ∈ ts, Confirms t) :
    Confirms (.array ts) := by
  intro s u s' h
  cases ts with
  | nil =>
    unfold check at h
    cases h
  | cons t ts =>
    obtain ⟨ht, hrest⟩ := List.forall_mem_cons.1 hts
    unfold check at h ⊢
    obtain ⟨d, s₁, hd, h₁⟩ := bind_eq_ok h
    cases hd
    obtain ⟨o, s₂, hfirst, h₂⟩ := bind_eq_ok h₁
    obtain ⟨e, s₃, he, h₃⟩ := bind_eq_ok h₂
    obtain ⟨rfl, rfl⟩ := yielded_eq_ok he
    obtain ⟨_, s₄, hothers, h₄⟩ := bind_eq_ok h₃
    cases h₄
    have hdemand : elementDemand (Demand.exactly (.array e (ts.length + 1))).type? s =
        .ok (.exactly e) s := rfl
    rw [bind_of_ok hdemand, bind_of_ok (ht hfirst), bind_of_ok (yielded_some _ _ _),
      bind_of_ok (checkEqual_of_confirms hrest hothers)]
    rfl

mutual

theorem confirms : (t : Tree String) → Confirms t
  | .block ts => by
    intro s u s' h
    unfold check at h ⊢
    exact checkBlock_of_confirms (confirmsAll ts) h
  | .binary left right op => confirms_binary op (confirms left) (confirms right)
  | .lambda ps body => confirms_lambda ps body
  | .number n => confirms_number n
  | .array ts => confirms_array (confirmsAll ts)
  | .file _ | .bind .. | .identifier _ | .apply .. | .boolean _ | .text _ | .tuple _ | .sumType _
  | .productType _ | .typeName _ | .functionType .. | .arrayType .. | .unitType =>
    confirms_of_eq fun d => by unfold check; rfl

theorem confirmsAll : (ts : List (Tree String)) → ∀ t ∈ ts, Confirms t
  | [] => by simp
  | t :: ts => List.forall_mem_cons.2 ⟨confirms t, confirmsAll ts⟩

end

/-- The failures are the same, up to the words with which a lambda is refused. -/
inductive TypeError.Alike : TypeError → TypeError → Prop
  | same (e : TypeError) : Alike e e
  | lambda : Alike .lambdaWithoutDemand .lambdaWithOpenDemand

/-- The results are the same value, or failures that are alike, in the same state. -/
inductive ResultsAlike {α : Type} :
    EStateM.Result TypeError State α → EStateM.Result TypeError State α → Prop
  | ok (a : α) (s : State) : ResultsAlike (.ok a s) (.ok a s)
  | error {e e' : TypeError} (s : State) : TypeError.Alike e e' →
      ResultsAlike (.error e s) (.error e' s)

namespace ResultsAlike

variable {α : Type} {r r' : EStateM.Result TypeError State α}

theorem ok_iff (h : ResultsAlike r r') {a : α} {s : State} : r' = .ok a s ↔ r = .ok a s := by
  cases h <;> simp

theorem error_iff (h : ResultsAlike r r') {s : State} :
    (∃ e, r' = .error e s) ↔ ∃ e, r = .error e s := by
  cases h <;> simp

end ResultsAlike

/-- From every state the steps have alike results. -/
def StepsAlike {α : Type} (x y : Step α) : Prop := ∀ s, ResultsAlike (x s) (y s)

namespace StepsAlike

variable {α β : Type}

theorem refl (x : Step α) : StepsAlike x x := by
  intro s
  cases x s with
  | ok a s' => exact .ok a s'
  | error e s' => exact .error s' (.same e)

theorem bind {x y : Step α} (h : StepsAlike x y) {f g : α → Step β}
    (hfg : ∀ a, StepsAlike (f a) (g a)) : StepsAlike (x >>= f) (y >>= g) := by
  intro s
  have hs := h s
  cases hx : x s with
  | ok a s' =>
    cases hy : y s with
    | ok b s'' =>
      rw [hx, hy] at hs
      cases hs
      rw [bind_of_ok hx, bind_of_ok hy]
      exact hfg a s'
    | error e s'' =>
      rw [hx, hy] at hs
      cases hs
  | error e s' =>
    cases hy : y s with
    | ok b s'' =>
      rw [hx, hy] at hs
      cases hs
    | error e' s'' =>
      rw [hx, hy] at hs
      rw [bind_of_error hx, bind_of_error hy]
      cases hs with
      | error _ he => exact .error s' he

end StepsAlike

/-- The tree is checked under an open demand as it is where nothing is demanded. -/
def OpenAsNothing (t : Tree String) : Prop := StepsAlike (check t .nothing) (check t .open)

theorem openAsNothing_of_eq {t : Tree String} (h : check t .nothing = check t .open) :
    OpenAsNothing t := by
  unfold OpenAsNothing
  rw [h]
  exact .refl _

theorem openAsNothing_lambda (ps : List (Tree String)) (body : Tree String) :
    OpenAsNothing (.lambda ps body) := by
  intro s
  unfold check
  exact .error s .lambda

theorem openAsNothing_binary {left right : Tree String} (op : Operator) (hl : OpenAsNothing left)
    (hr : OpenAsNothing right) : OpenAsNothing (.binary left right op) := by
  cases op with
  | index => exact openAsNothing_of_eq (by unfold check; rfl)
  | times | plus =>
    unfold OpenAsNothing check
    refine hl.bind fun o => StepsAlike.bind (.refl _) fun t => ?_
    refine hr.bind fun o => StepsAlike.bind (.refl _) fun u => .refl _

theorem checkBlock_alike {ts : List (Tree String)} (hts : ∀ t ∈ ts, OpenAsNothing t) :
    StepsAlike (checkBlock ts .nothing) (checkBlock ts .open) := by
  induction ts with
  | nil => exact .refl _
  | cons t ts ih =>
    obtain ⟨ht, hrest⟩ := List.forall_mem_cons.1 hts
    cases ts with
    | nil => exact ht
    | cons v vs =>
      have hblock : ∀ d, checkBlock (t :: v :: vs) d =
          check t .nothing >>= fun _ => checkBlock (v :: vs) d := fun d => by
        rw [checkBlock]
        simp
      rw [hblock, hblock]
      exact StepsAlike.bind (.refl _) fun _ => ih hrest

mutual

theorem openAsNothing : (t : Tree String) → OpenAsNothing t
  | .block ts => by
    unfold OpenAsNothing check
    exact checkBlock_alike (openAsNothingAll ts)
  | .binary left right op => openAsNothing_binary op (openAsNothing left) (openAsNothing right)
  | .lambda ps body => openAsNothing_lambda ps body
  | .array [] | .array (_ :: _) => openAsNothing_of_eq (by unfold check; rfl)
  | .file _ | .bind .. | .identifier _ | .apply .. | .number _ | .boolean _ | .text _ | .tuple _
  | .sumType _ | .productType _ | .typeName _ | .functionType .. | .arrayType .. | .unitType =>
    openAsNothing_of_eq (by unfold check; rfl)

theorem openAsNothingAll : (ts : List (Tree String)) → ∀ t ∈ ts, OpenAsNothing t
  | [] => by simp
  | t :: ts => List.forall_mem_cons.2 ⟨openAsNothing t, openAsNothingAll ts⟩

end

/-- In every context: the type that a tree has where nothing is demanded is a type that it has on
demand, with the same bindings; and under an open demand the tree has a type, has none or fails
exactly where it does so without a demand, with the same bindings. -/
theorem synthesis_agrees_with_checking (t : Tree String) (s : State) :
    (∀ u s', check t .nothing s = .ok (some u) s' → check t (.exactly u) s = .ok (some u) s') ∧
      (∀ o s', check t .open s = .ok o s' ↔ check t .nothing s = .ok o s') ∧
      ∀ s', (∃ e, check t .open s = .error e s') ↔ ∃ e, check t .nothing s = .error e s' := by
  have halike := openAsNothing t s
  exact ⟨fun u s' h => confirms t h, fun o s' => halike.ok_iff, fun s' => halike.error_iff⟩

/-- A block that binds a variable and ends in an array of it, inside a scope with the standard
types. -/
theorem synthesis_agrees_with_checking_in_block :
    let block : Tree String := .block [.bind (.identifier "x") (.typeName "ui8") (.number 1),
      .array [.identifier "x", .identifier "x"]]
    let start : State := ⟨(Context.mk ⟨∅, Scope.standardTypes⟩ []).child, []⟩
    let reached : State := ⟨start.context.addVariable "x" (.atom .ui8), [("x", .atom .ui8)]⟩
    check block .nothing start = .ok (some (.array (.atom .ui8) 2)) reached ∧
      check block (.exactly (.array (.atom .ui8) 2)) start =
        .ok (some (.array (.atom .ui8) 2)) reached ∧
      check block .open start = .ok (some (.array (.atom .ui8) 2)) reached := by
  intro block start reached
  have hsynthesis : check block .nothing start = .ok (some (.array (.atom .ui8) 2)) reached := by
    cbv
  have hagrees := synthesis_agrees_with_checking block start
  exact ⟨hsynthesis, hagrees.1 _ _ hsynthesis, (hagrees.2.1 _ _).2 hsynthesis⟩

end LetLang.Typing
