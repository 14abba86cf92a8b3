import LetLang.Proofs.Lowering.Represents
import LetLang.Proofs.Typing.Passes

/-!
# What passes the check can be derived

For a tree that can be lowered, the rules follow the check to every state that it reaches. The check
would also pass trees that the rules leave out, but none of them can be lowered.
-/

namespace LetLang.Typing

theorem check_bind_eq_ok {x : String} {type value : Tree String} {d : Demand}
    {known : Table String Ty} {fitted : List (String × Ty)} {o : Option Ty} {st : State}
    (htype : type.IsTypeExpression)
    (h : check (.bind (.identifier x) type value) d ⟨contextOf known, fitted⟩ = .ok o st) :
    ∃ u s₁, denote type = some u ∧ o = none ∧
      check value (.exactly u) ⟨contextOf (known.insert x u), fitted⟩ = .ok (some u) s₁ ∧
      st.context = s₁.context := by
  unfold check at h
  obtain ⟨declared, s₁, hdeclared, h₁⟩ := bind_eq_ok h
  cases declared with
  | none => cases h₁
  | some u =>
    obtain ⟨hu, rfl⟩ := (checksAsType_of_isTypeExpression htype known fitted u s₁).1 hdeclared
    obtain ⟨_, s₂, hadd, h₂⟩ := bind_eq_ok h₁
    cases hadd
    obtain ⟨actual, s₃, hvalue, h₃⟩ := bind_eq_ok h₂
    cases actual with
    | none => cases h₃
    | some v =>
      dsimp only at h₃
      split at h₃
      · next heq =>
        subst heq
        cases h₃
        exact ⟨v, s₃, hu, rfl, hvalue, rfl⟩
      · cases h₃

theorem check_lambda_eq_ok {ps : List (Tree String)} {body : Tree String} {u v : Ty}
    {known : Table String Ty} {fitted : List (String × Ty)} {st : State}
    (hps : ∀ p ∈ ps, p.IsParameter)
    (hu : ∀ a b, u = .function a b → a ≠ .unit)
    (h : check (.lambda ps body) (.exactly u) ⟨contextOf known, fitted⟩ = .ok (some v) st) :
    ∃ a b es, u = .function a b ∧ parameterTypes (Direct.names ps) a = some es ∧
      check body (.exactly b) ⟨contextOf (known.insertAll es), fitted⟩ = .ok (some b) st := by
  unfold check at h
  cases u with
  | function a b =>
    obtain ⟨_, s₁, hadd, h₁⟩ := bind_eq_ok h
    obtain ⟨es, hes, rfl⟩ :=
      (addLambdaParameters_eq_ok_iff hps (hu a b rfl) known fitted s₁).1 hadd
    obtain ⟨actual, s₂, hbody, h₂⟩ := bind_eq_ok h₁
    obtain ⟨t, s₃, ht, h₃⟩ := bind_eq_ok h₂
    obtain ⟨rfl, rfl⟩ := yielded_eq_ok ht
    split at h₃
    · next heq =>
      subst heq
      cases h₃
      exact ⟨a, t, es, rfl, hes, hbody⟩
    · cases h₃
  | _ => cases h

theorem numberType_eq_ok {o : Option Ty} {u : Ty} {s s' : State}
    (h : numberType o s = .ok u s') : s' = s ∧ ((o = none ∧ u = .atom .i64) ∨
      ∃ a, o = some (.atom a) ∧ a.isInteger = true ∧ u = .atom a) := by
  cases o with
  | none =>
    cases h
    exact ⟨rfl, .inl ⟨rfl, rfl⟩⟩
  | some t =>
    cases t with
    | atom a =>
      unfold numberType at h
      dsimp only at h
      split at h
      · next hint =>
        cases h
        exact ⟨rfl, .inr ⟨a, rfl, hint, rfl⟩⟩
      · cases h
    | _ => cases h

theorem elementDemand_eq_ok {o : Option Ty} {d : Demand} {s s' : State}
    (h : elementDemand o s = .ok d s') : s' = s ∧ ((o = none ∧ d = .nothing) ∨
      ∃ e n, o = some (.array e n) ∧ d = .exactly e) := by
  cases o with
  | none =>
    cases h
    exact ⟨rfl, .inl ⟨rfl, rfl⟩⟩
  | some t =>
    cases t with
    | array e n =>
      cases h
      exact ⟨rfl, .inr ⟨e, n, rfl, rfl⟩⟩
    | _ => cases h

/-- A state that the check reaches, and what the rules derive there. -/
def Reaches (st : State) (J : Names → Prop) : Prop :=
  ∃ s' fitted', st = ⟨contextOf s'.known, fitted'⟩ ∧ J s'

/-- What passes the check of the tree can be derived. -/
def Derivable (t : Tree String) : Prop :=
  ∀ ⦃d : Demand⦄ ⦃known : Table String Ty⦄ ⦃fitted : List (String × Ty)⦄ ⦃o : Option Ty⦄
    ⦃st : State⦄, check t d ⟨contextOf known, fitted⟩ = .ok o st → ∀ bound : Table String Ty,
      Reaches st (Derives (fun _ => True) ⟨known, bound⟩ t d o)

theorem derivable_function {x : String} {type body : Tree String} {ps : List (Tree String)}
    (htypes : type.IsTypeExpression) (hps : ∀ p ∈ ps, p.IsParameter) (hbody : Derivable body) :
    Derivable (.bind (.identifier x) type (.lambda ps body)) := by
  intro d known fitted o st h bound
  obtain ⟨u, s₁, hu, rfl, hvalue, hst⟩ := check_bind_eq_ok htypes h
  have hunit : ∀ a b, u = .function a b → a ≠ .unit := by
    rintro a b rfl
    exact source_ne_unit_of_denote hu
  obtain ⟨a, b, es, rfl, hes, hbodyChecked⟩ := check_lambda_eq_ok hps hunit hvalue
  obtain ⟨s', f', rfl, hd⟩ := hbody hbodyChecked ∅
  refine ⟨⟨s'.known, bound⟩, st.fitted, ?_, .localFunction hu trivial hes hd⟩
  obtain ⟨context, fitted⟩ := st
  cases hst
  rfl

theorem derivable_bind {x : String} {type value : Tree String} (htypes : type.IsTypeExpression)
    (hne : ∀ ps b, value ≠ .lambda ps b) (hvalue : Derivable value) :
    Derivable (.bind (.identifier x) type value) := by
  intro d known fitted o st h bound
  obtain ⟨u, s₁, hu, rfl, hchecked, hst⟩ := check_bind_eq_ok htypes h
  obtain ⟨s', f', rfl, hd⟩ := hvalue hchecked bound
  refine ⟨⟨s'.known, s'.bound.insert x u⟩, st.fitted, ?_, .bind hne hu hd⟩
  obtain ⟨context, fitted⟩ := st
  cases hst
  rfl

theorem derivable_identifier (x : String) : Derivable (.identifier x) := by
  intro d known fitted o st h bound
  rw [check_identifier] at h
  cases hx : known.get? x with
  | none =>
    rw [hx] at h
    cases h
  | some u =>
    rw [hx] at h
    cases h
    exact ⟨⟨known, bound⟩, fitted, rfl, .identifier hx trivial⟩

theorem derivable_index {left right : Tree String} (hl : Derivable left) (hr : Derivable right) :
    Derivable (.binary left right .index) := by
  intro d known fitted o st h bound
  unfold check at h
  obtain ⟨o₁, s₁, hleft, h₁⟩ := bind_eq_ok h
  obtain ⟨u, s₂, hu, h₂⟩ := bind_eq_ok h₁
  obtain ⟨rfl, rfl⟩ := yielded_eq_ok hu
  obtain ⟨s', f', rfl, hdl⟩ := hl hleft bound
  cases u with
  | array e n =>
    obtain ⟨o₂, s₃, hright, h₃⟩ := bind_eq_ok h₂
    obtain ⟨s'', f'', rfl, hdr⟩ := hr hright s'.bound
    cases h₃
    exact ⟨s'', f'', rfl, .index hdl hdr trivial⟩
  | _ => cases h₂

theorem derivable_binary {left right : Tree String} {op : Operator} (hop : op ≠ .index)
    (hl : Derivable left) (hr : Derivable right) : Derivable (.binary left right op) := by
  intro d known fitted o st h bound
  rw [check] at h
  · obtain ⟨o₁, s₁, hleft, h₁⟩ := bind_eq_ok h
    obtain ⟨t, s₂, ht, h₂⟩ := bind_eq_ok h₁
    obtain ⟨rfl, rfl⟩ := yielded_eq_ok ht
    obtain ⟨s', f', rfl, hdl⟩ := hl hleft bound
    obtain ⟨o₂, s₃, hright, h₃⟩ := bind_eq_ok h₂
    obtain ⟨u, s₄, hu, h₄⟩ := bind_eq_ok h₃
    obtain ⟨rfl, rfl⟩ := yielded_eq_ok hu
    obtain ⟨s'', f'', rfl, hdr⟩ := hr hright s'.bound
    split at h₄
    · next heq =>
      subst heq
      cases h₄
      exact ⟨s'', f'', rfl, .binary hop hdl hdr trivial⟩
    · cases h₄
  · exact hop

theorem derivable_apply (x : String) {argument : Tree String} (ha : Derivable argument) :
    Derivable (.apply (.identifier x) argument) := by
  intro d known fitted o st h bound
  unfold check at h
  obtain ⟨callee, s₁, hcallee, h₁⟩ := bind_eq_ok h
  rw [check_identifier] at hcallee
  cases hx : known.get? x with
  | none =>
    rw [hx] at hcallee
    cases hcallee
  | some u =>
    rw [hx] at hcallee
    cases hcallee
    cases u with
    | function a b =>
      obtain ⟨o₂, s₂, hargument, h₂⟩ := bind_eq_ok h₁
      cases o₂ with
      | none => cases h₂
      | some v =>
        obtain ⟨s', f', rfl, hd⟩ := ha hargument bound
        dsimp only at h₂
        split at h₂
        · next heq =>
          subst heq
          cases h₂
          exact ⟨s', f', rfl, .apply hx trivial hd⟩
        · cases h₂
    | _ => cases h₁

theorem derivable_number (n : Int) : Derivable (.number n) := by
  intro d known fitted o st h bound
  unfold check at h
  obtain ⟨u, s₁, hu, h₁⟩ := bind_eq_ok h
  cases h₁
  obtain ⟨rfl, ⟨hd, rfl⟩ | ⟨a, hd, hint, rfl⟩⟩ := numberType_eq_ok hu
  · exact ⟨⟨known, bound⟩, fitted, rfl, .number hd⟩
  · exact ⟨⟨known, bound⟩, fitted, rfl, .numberAs hd hint⟩

section
variable {d : Demand} {known : Table String Ty} {fitted : List (String × Ty)} {st : State}

theorem derivesBlock_of_check {ts : List (Tree String)} (hts : ∀ t ∈ ts, Derivable t)
    {o : Option Ty} (h : checkBlock ts d ⟨contextOf known, fitted⟩ = .ok o st)
    (bound : Table String Ty) :
    Reaches st (DerivesBlock (fun _ => True) ⟨known, bound⟩ ts d o) := by
  induction ts generalizing known fitted bound with
  | nil => cases h
  | cons t ts ih =>
    obtain ⟨ht, hrest⟩ := List.forall_mem_cons.1 hts
    cases ts with
    | nil =>
      obtain ⟨s', f', rfl, hd⟩ := ht h bound
      exact ⟨s', f', rfl, .last hd⟩
    | cons u us =>
      rw [checkBlock] at h
      · obtain ⟨o₁, s₁, hfirst, h₁⟩ := bind_eq_ok h
        obtain ⟨s', f', rfl, hdt⟩ := ht hfirst bound
        obtain ⟨s'', f'', rfl, hdts⟩ := ih hrest h₁ s'.bound
        exact ⟨s'', f'', rfl, .cons hdt hdts⟩
      · simp

theorem derivesAll_of_check {ts : List (Tree String)} (hts : ∀ t ∈ ts, Derivable t)
    {place : TypedPlace} {us : List Ty}
    (h : checkAll place d ts ⟨contextOf known, fitted⟩ = .ok us st) (bound : Table String Ty) :
    Reaches st (DerivesAll (fun _ => True) ⟨known, bound⟩ d ts us) := by
  induction ts generalizing known fitted us bound st with
  | nil =>
    cases h
    exact ⟨⟨known, bound⟩, fitted, rfl, .nil⟩
  | cons t ts ih =>
    obtain ⟨ht, hrest⟩ := List.forall_mem_cons.1 hts
    unfold checkAll at h
    obtain ⟨o₁, s₁, hfirst, h₁⟩ := bind_eq_ok h
    obtain ⟨u, s₂, hu, h₂⟩ := bind_eq_ok h₁
    obtain ⟨rfl, rfl⟩ := yielded_eq_ok hu
    obtain ⟨us', s₃, hothers, h₃⟩ := bind_eq_ok h₂
    cases h₃
    obtain ⟨s', f', rfl, hdt⟩ := ht hfirst bound
    obtain ⟨s'', f'', rfl, hdts⟩ := ih hrest hothers s'.bound
    exact ⟨s'', f'', rfl, .cons hdt hdts⟩

theorem derivesEqual_of_check {ts : List (Tree String)} (hts : ∀ t ∈ ts, Derivable t) {e : Ty}
    (h : checkEqual e d ts ⟨contextOf known, fitted⟩ = .ok () st) (bound : Table String Ty) :
    Reaches st fun s' =>
      ∃ us, (∀ u ∈ us, u = e) ∧ DerivesAll (fun _ => True) ⟨known, bound⟩ d ts us s' := by
  induction ts generalizing known fitted bound with
  | nil =>
    cases h
    exact ⟨⟨known, bound⟩, fitted, rfl, [], by simp, .nil⟩
  | cons t ts ih =>
    obtain ⟨ht, hrest⟩ := List.forall_mem_cons.1 hts
    unfold checkEqual at h
    obtain ⟨o₁, s₁, hfirst, h₁⟩ := bind_eq_ok h
    obtain ⟨u, s₂, hu, h₂⟩ := bind_eq_ok h₁
    obtain ⟨rfl, rfl⟩ := yielded_eq_ok hu
    obtain ⟨s', f', rfl, hdt⟩ := ht hfirst bound
    split at h₂
    · next heq =>
      obtain ⟨s'', f'', rfl, us, hus, hdts⟩ := ih hrest h₂ s'.bound
      exact ⟨s'', f'', rfl, u :: us, List.forall_mem_cons.2 ⟨heq, hus⟩, .cons hdt hdts⟩
    · cases h₂

end

theorem derivable_block {ts : List (Tree String)} (hts : ∀ t ∈ ts, Derivable t) :
    Derivable (.block ts) := by
  intro d known fitted o st h bound
  unfold check at h
  obtain ⟨s', f', rfl, hd⟩ := derivesBlock_of_check hts h bound
  exact ⟨s', f', rfl, .block hd⟩

theorem derivable_tuple {ts : List (Tree String)} (hts : ∀ t ∈ ts, Derivable t) :
    Derivable (.tuple ts) := by
  intro d known fitted o st h bound
  unfold check at h
  obtain ⟨us, s₁, helements, h₁⟩ := bind_eq_ok h
  cases h₁
  obtain ⟨s', f', rfl, hd⟩ := derivesAll_of_check hts helements bound
  exact ⟨s', f', rfl, .tuple hd⟩

theorem derivable_array {ts : List (Tree String)} (hts : ∀ t ∈ ts, Derivable t) :
    Derivable (.array ts) := by
  intro d known fitted o st h bound
  cases ts with
  | nil =>
    unfold check at h
    cases hd : d.type? with
    | none =>
      rw [hd] at h
      cases h
    | some u =>
      rw [hd] at h
      cases h
      exact ⟨⟨known, bound⟩, fitted, rfl, .emptyArray hd trivial⟩
  | cons t ts =>
    obtain ⟨ht, hrest⟩ := List.forall_mem_cons.1 hts
    unfold check at h
    obtain ⟨demand, s₁, hdemand, h₁⟩ := bind_eq_ok h
    obtain ⟨o₁, s₂, hfirst, h₂⟩ := bind_eq_ok h₁
    obtain ⟨e, s₃, he, h₃⟩ := bind_eq_ok h₂
    obtain ⟨rfl, rfl⟩ := yielded_eq_ok he
    obtain ⟨_, s₄, hothers, h₄⟩ := bind_eq_ok h₃
    cases h₄
    obtain ⟨rfl, hd⟩ := elementDemand_eq_ok hdemand
    obtain ⟨s', f', rfl, hdt⟩ := ht hfirst bound
    obtain ⟨s'', f'', rfl, us, hus, hdts⟩ := derivesEqual_of_check hrest hothers s'.bound
    have heq : ∀ u ∈ e :: us, u = e := List.forall_mem_cons.2 ⟨rfl, hus⟩
    refine ⟨s'', f'', rfl, ?_⟩
    rcases hd with ⟨hd, rfl⟩ | ⟨f, n, hd, rfl⟩
    · exact .array hd (.cons hdt hdts) heq
    · exact .arrayAs hd (.cons hdt hdts) heq

theorem derivable_of_represents {nodes : Int → Option Node} {R : String → Int → Prop}
    {ts : List (Tree String)} {is : List Int}
    (h : List.Forall₂ (Lowering.Represents nodes R) ts is)
    (hts : ∀ t ∈ ts, ∀ i, Lowering.Represents nodes R t i → Derivable t) :
    ∀ t ∈ ts, Derivable t := by
  induction h with
  | nil => simp
  | cons ht _ ih =>
    obtain ⟨hfirst, hrest⟩ := List.forall_mem_cons.1 hts
    exact List.forall_mem_cons.2 ⟨hfirst _ ht, ih hrest⟩

/-- What passes the check can be derived, for trees that can be lowered. -/
theorem derivable_of_isParsed {nodes : Int → Option Node} {R : String → Int → Prop}
    {t : Tree String} (hp : t.IsParsed) :
    ∀ id, Lowering.Represents nodes R t id → Derivable t := by
  induction hp using Tree.IsParsed.inductionOnBodies with
  | identifier => exact fun _ _ => derivable_identifier _
  | text =>
    intro id _ d known fitted o st h bound
    cases h
    exact ⟨⟨known, bound⟩, fitted, rfl, .text⟩
  | boolean =>
    intro id _ d known fitted o st h bound
    cases h
    exact ⟨⟨known, bound⟩, fitted, rfl, .boolean⟩
  | number => exact fun _ _ => derivable_number _
  | array _ ih =>
    intro id hr
    cases hr with
    | array _ hrs => exact derivable_array (derivable_of_represents hrs ih)
  | tuple _ _ ih =>
    intro id hr
    cases hr with
    | tuple _ hrs => exact derivable_tuple (derivable_of_represents hrs ih)
  | block _ _ ih =>
    intro id hr
    cases hr with
    | block _ hrs => exact derivable_block (derivable_of_represents hrs ih)
  | lambda =>
    intro id hr
    cases hr
  | apply _ _ _ ih =>
    intro id hr
    cases hr with
    | applyLambda =>
      -- there is no demand to check the lambda against
      intro d known fitted o st h
      unfold check at h
      obtain ⟨callee, s₁, hcallee, -⟩ := bind_eq_ok h
      unfold check at hcallee
      cases hcallee
    | apply _ _ hra => exact derivable_apply _ (ih _ hra)
  | binary op _ _ ihl ihr =>
    intro id hr
    cases hr with
    | binary _ hrl hrr =>
      have hl := ihl _ hrl
      have hr := ihr _ hrr
      cases op with
      | index => exact derivable_index hl hr
      | times | plus => exact derivable_binary (by decide) hl hr
  | function _ htypes hps _ ih =>
    intro id hr
    cases hr with
    | function _ _ hrb => exact derivable_function htypes hps (ih _ hrb)
    | bind hne => exact absurd rfl (hne _ _)
  | bind _ htypes _ hne ih =>
    intro id hr
    cases hr with
    | function => exact absurd rfl (hne _ _)
    | bind _ _ _ _ hrv => exact derivable_bind htypes hne (ih _ hrv)

end LetLang.Typing
