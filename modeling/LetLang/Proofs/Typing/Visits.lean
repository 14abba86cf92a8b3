import LetLang.Proofs.Grammar.Occurs
import LetLang.Proofs.Typing.Denote

/-!
# What a check visits

A check that succeeds has checked every expression in the tree, each under a demand that its place
makes. What is called is checked without a demand, and there no lambda passes. So nothing that
passes in any context applies a lambda on the spot.
-/

namespace LetLang.Typing

/-- The tree is checked with success under some demand from some state. -/
def Succeeds (t : Tree String) : Prop := ∃ d s o s', check t d s = .ok o s'

variable {ts : List (Tree String)} {d : Demand} {s s' : State}

theorem succeeds_of_checkStatements {u : Unit} (h : checkStatements ts s = .ok u s') :
    ∀ t ∈ ts, Succeeds t := by
  induction ts generalizing s with
  | nil => simp
  | cons t ts ih =>
    unfold checkStatements at h
    obtain ⟨o, s₁, hfirst, hrest⟩ := bind_eq_ok h
    exact List.forall_mem_cons.2 ⟨⟨_, _, _, _, hfirst⟩, ih hrest⟩

theorem succeeds_of_checkBlock {o : Option Ty} (h : checkBlock ts d s = .ok o s') :
    ∀ t ∈ ts, Succeeds t := by
  induction ts generalizing s with
  | nil => simp
  | cons t ts ih =>
    cases ts with
    | nil => exact List.forall_mem_singleton.2 ⟨_, _, _, _, h⟩
    | cons v vs =>
      rw [checkBlock] at h
      · obtain ⟨p, s₁, hfirst, hrest⟩ := bind_eq_ok h
        exact List.forall_mem_cons.2 ⟨⟨_, _, _, _, hfirst⟩, ih hrest⟩
      · simp

theorem succeeds_of_checkAll {place : TypedPlace} {us : List Ty}
    (h : checkAll place d ts s = .ok us s') : ∀ t ∈ ts, Succeeds t := by
  induction ts generalizing s us s' with
  | nil => simp
  | cons t ts ih =>
    unfold checkAll at h
    obtain ⟨o, s₁, hfirst, h₁⟩ := bind_eq_ok h
    obtain ⟨u, s₂, -, h₂⟩ := bind_eq_ok h₁
    obtain ⟨vs, s₃, hrest, -⟩ := bind_eq_ok h₂
    exact List.forall_mem_cons.2 ⟨⟨_, _, _, _, hfirst⟩, ih hrest⟩

theorem succeeds_of_checkEqual {first : Ty} {u : Unit} (h : checkEqual first d ts s = .ok u s') :
    ∀ t ∈ ts, Succeeds t := by
  induction ts generalizing s with
  | nil => simp
  | cons t ts ih =>
    unfold checkEqual at h
    obtain ⟨o, s₁, hfirst, h₁⟩ := bind_eq_ok h
    obtain ⟨v, s₂, -, h₂⟩ := bind_eq_ok h₁
    split at h₂
    · exact List.forall_mem_cons.2 ⟨⟨_, _, _, _, hfirst⟩, ih h₂⟩
    · cases h₂

namespace Succeeds

theorem file (h : Succeeds (.file ts)) : ∀ t ∈ ts, Succeeds t := by
  obtain ⟨d, s, o, s', h⟩ := h
  unfold check at h
  obtain ⟨u, s₁, hstatements, -⟩ := bind_eq_ok h
  exact succeeds_of_checkStatements hstatements

theorem block (h : Succeeds (.block ts)) : ∀ t ∈ ts, Succeeds t := by
  obtain ⟨d, s, o, s', h⟩ := h
  unfold check at h
  exact succeeds_of_checkBlock h

theorem tuple (h : Succeeds (.tuple ts)) : ∀ t ∈ ts, Succeeds t := by
  obtain ⟨d, s, o, s', h⟩ := h
  unfold check at h
  obtain ⟨us, s₁, hall, -⟩ := bind_eq_ok h
  exact succeeds_of_checkAll hall

theorem array (h : Succeeds (.array ts)) : ∀ t ∈ ts, Succeeds t := by
  obtain ⟨d, s, o, s', h⟩ := h
  cases ts with
  | nil => simp
  | cons t ts =>
    unfold check at h
    obtain ⟨demand, s₁, -, h₁⟩ := bind_eq_ok h
    obtain ⟨p, s₂, hfirst, h₂⟩ := bind_eq_ok h₁
    obtain ⟨u, s₃, -, h₃⟩ := bind_eq_ok h₂
    obtain ⟨_, s₄, hothers, -⟩ := bind_eq_ok h₃
    exact List.forall_mem_cons.2 ⟨⟨_, _, _, _, hfirst⟩, succeeds_of_checkEqual hothers⟩

theorem binary {left right : Tree String} {op : Operator} (h : Succeeds (.binary left right op)) :
    Succeeds left ∧ Succeeds right := by
  obtain ⟨d, s, o, s', h⟩ := h
  cases op with
  | index =>
    unfold check at h
    obtain ⟨p, s₁, hleft, h₁⟩ := bind_eq_ok h
    obtain ⟨u, s₂, -, h₂⟩ := bind_eq_ok h₁
    split at h₂
    · obtain ⟨q, s₃, hright, -⟩ := bind_eq_ok h₂
      exact ⟨⟨_, _, _, _, hleft⟩, ⟨_, _, _, _, hright⟩⟩
    · cases h₂
  | times | plus =>
    unfold check at h
    obtain ⟨p, s₁, hleft, h₁⟩ := bind_eq_ok h
    obtain ⟨u, s₂, -, h₂⟩ := bind_eq_ok h₁
    obtain ⟨q, s₃, hright, -⟩ := bind_eq_ok h₂
    exact ⟨⟨_, _, _, _, hleft⟩, ⟨_, _, _, _, hright⟩⟩

theorem lambda {ps : List (Tree String)} {body : Tree String} (h : Succeeds (.lambda ps body)) :
    Succeeds body := by
  obtain ⟨d, s, o, s', h⟩ := h
  unfold check at h
  split at h
  · cases h
  · cases h
  · obtain ⟨_, s₁, -, h₁⟩ := bind_eq_ok h
    obtain ⟨p, s₂, hbody, -⟩ := bind_eq_ok h₁
    exact ⟨_, _, _, _, hbody⟩
  · cases h

/-- What is called has passed without a demand. -/
theorem apply {f a : Tree String} (h : Succeeds (.apply f a)) :
    (∃ s o s', check f .nothing s = .ok o s') ∧ Succeeds a := by
  obtain ⟨d, s, o, s', h⟩ := h
  unfold check at h
  obtain ⟨p, s₁, hcallee, h₁⟩ := bind_eq_ok h
  split at h₁
  · obtain ⟨q, s₂, hargument, -⟩ := bind_eq_ok h₁
    exact ⟨⟨_, _, _, hcallee⟩, ⟨_, _, _, _, hargument⟩⟩
  · cases h₁

theorem bind {i t v : Tree String} (h : Succeeds (.bind i t v)) : Succeeds v := by
  obtain ⟨d, s, o, s', h⟩ := h
  unfold check at h
  obtain ⟨p, s₁, -, h₁⟩ := bind_eq_ok h
  cases p with
  | none => cases h₁
  | some declared =>
    cases hname : i.name? with
    | none =>
      simp only [hname] at h₁
      cases h₁
    | some name =>
      simp only [hname] at h₁
      obtain ⟨_, s₂, -, h₂⟩ := bind_eq_ok h₁
      obtain ⟨q, s₃, hvalue, -⟩ := bind_eq_ok h₂
      exact ⟨_, _, _, _, hvalue⟩

end Succeeds

/-- No lambda has a type where nothing is demanded. -/
theorem not_lambda_of_check {f : Tree String} {o : Option Ty} (h : check f .nothing s = .ok o s')
    (ps : List (Tree String)) (body : Tree String) : f ≠ .lambda ps body := by
  rintro rfl
  unfold check at h
  cases h

/-- What passes a check in any context, with any bindings, applies no lambda on the spot. -/
theorem Succeeds.not_appliesLambda {t : Tree String} (hparsed : t.IsParsed) (h : Succeeds t) :
    ¬ t.AppliesLambda := by
  induction hparsed with
  | identifier | text | number | boolean =>
    exact Tree.not_appliesLambda (by simp) (by simp)
  | array _ ih => exact Tree.not_appliesLambda (by simp) fun p hp => ih p hp (h.array p hp)
  | tuple _ _ ih => exact Tree.not_appliesLambda (by simp) fun p hp => ih p hp (h.tuple p hp)
  | block _ _ ih => exact Tree.not_appliesLambda (by simp) fun p hp => ih p hp (h.block p hp)
  | lambda hps _ ih =>
    refine Tree.not_appliesLambda (by simp) (List.forall_mem_append.2 ⟨?_, ?_⟩)
    · exact fun p hp => (hps p hp).not_appliesLambda
    · exact List.forall_mem_singleton.2 (ih h.lambda)
  | @apply f a _ _ ihf iha =>
    obtain ⟨⟨s, o, s', hcallee⟩, hargument⟩ := h.apply
    rw [Tree.appliesLambda_iff]
    rintro (⟨ps, body, argument, heq⟩ | ⟨p, hp, happlies⟩)
    · exact not_lambda_of_check hcallee ps body (Tree.apply.inj heq).1
    · rcases List.mem_cons.1 hp with rfl | hp
      · exact ihf ⟨_, _, _, _, hcallee⟩ happlies
      · obtain rfl := List.mem_singleton.1 hp
        exact iha hargument happlies
  | binary op _ _ ihl ihr =>
    refine Tree.not_appliesLambda (by simp) (List.forall_mem_cons.2 ⟨ihl h.binary.1, ?_⟩)
    exact List.forall_mem_singleton.2 (ihr h.binary.2)
  | bind hi ht _ ih =>
    refine Tree.not_appliesLambda (by simp) (List.forall_mem_cons.2 ⟨hi.not_appliesLambda, ?_⟩)
    refine List.forall_mem_cons.2 ⟨ht.not_appliesLambda, ?_⟩
    exact List.forall_mem_singleton.2 (ih h.bind)

end LetLang.Typing
