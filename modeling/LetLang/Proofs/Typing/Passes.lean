import LetLang.Proofs.Typing.Rules

/-!
# What the rules derive passes the check

From a state of the check that knows the variables of the rules, the check of a derived tree comes
to the same type and knows the same variables afterwards.
-/

namespace LetLang.Typing

theorem addParameters_eq {ps : List (Tree String)} (hps : ∀ p ∈ ps, p.IsParameter) {us : List Ty}
    (hlen : us.length = ps.length) (k : Table String Ty) (fitted : List (String × Ty)) :
    addParameters ps us ⟨contextOf k, fitted⟩ =
      .ok () ⟨contextOf (k.insertAll ((Direct.names ps).zip us)), fitted⟩ := by
  induction ps generalizing us k with
  | nil => rfl
  | cons p ps ih =>
    obtain ⟨⟨x, rfl, -⟩, hrest⟩ := List.forall_mem_cons.1 hps
    cases us with
    | nil => cases hlen
    | cons u us =>
      have hadd : addParameter (.identifier x) u ⟨contextOf k, fitted⟩ =
          .ok () ⟨contextOf (k.insert x u), fitted⟩ := rfl
      rw [addParameters, bind_of_ok hadd, ih hrest (Nat.succ.inj hlen)]
      rfl

theorem addLambdaParameters_eq_ok_iff {ps : List (Tree String)} (hps : ∀ p ∈ ps, p.IsParameter)
    {a : Ty} (ha : a ≠ .unit) (k : Table String Ty) (fitted : List (String × Ty)) (s' : State) :
    addLambdaParameters ps a ⟨contextOf k, fitted⟩ = .ok () s' ↔
      ∃ es, parameterTypes (Direct.names ps) a = some es ∧
        s' = ⟨contextOf (k.insertAll es), fitted⟩ := by
  have hlen := Direct.length_names hps
  unfold addLambdaParameters parameterTypes
  cases a with
  | unit => exact absurd rfl ha
  | product us =>
    dsimp only
    rw [hlen]
    split
    · next h =>
      rw [addParameters_eq hps h]
      simp [eq_comm]
    · constructor
      · intro h
        cases h
      · rintro ⟨_, h, -⟩
        cases h
  | _ =>
    cases ps with
    | nil =>
      constructor
      · intro h
        cases h
      · rintro ⟨_, h, -⟩
        cases h
    | cons p ps =>
      obtain ⟨⟨x, rfl, -⟩, hrest⟩ := List.forall_mem_cons.1 hps
      cases ps with
      | nil =>
        constructor
        · intro h
          cases h
          exact ⟨_, rfl, rfl⟩
        · rintro ⟨_, ⟨⟩, rfl⟩
          rfl
      | cons q ps =>
        obtain ⟨⟨y, rfl, -⟩, -⟩ := List.forall_mem_cons.1 hrest
        constructor
        · intro h
          cases h
        · rintro ⟨_, h, -⟩
          cases h

/-- From every state that knows the same variables, the check of the tree comes to `o` and knows
`known'` afterwards. -/
def Passes (t : Tree String) (d : Demand) (known : Table String Ty) (o : Option Ty)
    (known' : Table String Ty) : Prop :=
  ∀ fitted, ∃ fitted', check t d ⟨contextOf known, fitted⟩ = .ok o ⟨contextOf known', fitted'⟩

theorem passes_bind {x : String} {type value : Tree String} {known known' : Table String Ty}
    {u : Ty} (htype : type.IsTypeExpression) (hu : denote type = some u)
    (hvalue : Passes value (.exactly u) (known.insert x u) (some u) known') (d : Demand) :
    Passes (.bind (.identifier x) type value) d known none known' := by
  intro fitted
  obtain ⟨fitted', hvalue⟩ := hvalue fitted
  have hdeclared := (checksAsType_of_isTypeExpression htype known fitted u _).2 ⟨hu, rfl⟩
  have hadd : addVariable x u ⟨contextOf known, fitted⟩ =
      .ok () ⟨contextOf (known.insert x u), fitted⟩ := rfl
  refine ⟨(x, u) :: fitted', ?_⟩
  unfold check
  rw [bind_of_ok hdeclared]
  change (addVariable x u >>= _) _ = _
  rw [bind_of_ok hadd, bind_of_ok hvalue]
  simp only [if_true]
  rfl

theorem passes_lambda {ps : List (Tree String)} {body : Tree String}
    {known known' : Table String Ty} {a b : Ty} {es : List (String × Ty)}
    (hps : ∀ p ∈ ps, p.IsParameter) (ha : a ≠ .unit)
    (hes : parameterTypes (Direct.names ps) a = some es)
    (hbody : Passes body (.exactly b) (known.insertAll es) (some b) known') :
    Passes (.lambda ps body) (.exactly (.function a b)) known (some (.function a b)) known' := by
  intro fitted
  obtain ⟨fitted', hbody⟩ := hbody fitted
  have hadd := (addLambdaParameters_eq_ok_iff hps ha known fitted _).2 ⟨es, hes, rfl⟩
  refine ⟨fitted', ?_⟩
  unfold check
  dsimp only
  rw [bind_of_ok hadd, bind_of_ok hbody, bind_of_ok (yielded_some _ _ _)]
  simp only [if_true]
  rfl

theorem typeOf?_contextOf (known : Table String Ty) (x : String) :
    (contextOf known).typeOf? x = known.get? x := by
  simp [Context.typeOf?, Context.scopes, contextOf]

theorem check_identifier (x : String) (d : Demand) (known : Table String Ty)
    (fitted : List (String × Ty)) :
    check (.identifier x) d ⟨contextOf known, fitted⟩ =
      match known.get? x with
      | some u => .ok (some u) ⟨contextOf known, fitted⟩
      | none => .error (.unknownVariable x) ⟨contextOf known, fitted⟩ := by
  unfold check
  change (match (contextOf known).typeOf? x with
    | some t => pure (some t)
    | none => throw (.unknownVariable x) : Step (Option Ty)) _ = _
  rw [typeOf?_contextOf]
  cases known.get? x <;> rfl

theorem passes_index {left right : Tree String} {e : Ty} {n : Int} {o : Option Ty}
    {known known₁ known' : Table String Ty}
    (hl : Passes left .nothing known (some (.array e n)) known₁)
    (hr : Passes right (.exactly (.atom .ui64)) known₁ o known') (d : Demand) :
    Passes (.binary left right .index) d known (some e) known' := by
  intro fitted
  obtain ⟨f₁, hl⟩ := hl fitted
  obtain ⟨f₂, hr⟩ := hr f₁
  refine ⟨f₂, ?_⟩
  unfold check
  rw [bind_of_ok hl, bind_of_ok (yielded_some _ _ _)]
  dsimp only
  rw [bind_of_ok hr]
  rfl

theorem passes_binary {left right : Tree String} {op : Operator} (hop : op ≠ .index) {d : Demand}
    {u : Ty} {known known₁ known' : Table String Ty} (hl : Passes left d known (some u) known₁)
    (hr : Passes right d known₁ (some u) known') :
    Passes (.binary left right op) d known (some u) known' := by
  intro fitted
  obtain ⟨f₁, hl⟩ := hl fitted
  obtain ⟨f₂, hr⟩ := hr f₁
  refine ⟨f₂, ?_⟩
  rw [check]
  · rw [bind_of_ok hl, bind_of_ok (yielded_some _ _ _), bind_of_ok hr,
      bind_of_ok (yielded_some _ _ _)]
    simp only [if_true]
    rfl
  · exact hop

theorem passes_apply {x : String} {argument : Tree String} {a b : Ty}
    {known known' : Table String Ty} (hx : known.get? x = some (.function a b))
    (ha : Passes argument .nothing known (some a) known') (d : Demand) :
    Passes (.apply (.identifier x) argument) d known (some b) known' := by
  intro fitted
  obtain ⟨f₁, ha⟩ := ha fitted
  have hcallee : check (.identifier x) .nothing ⟨contextOf known, fitted⟩ =
      .ok (some (.function a b)) ⟨contextOf known, fitted⟩ := by rw [check_identifier, hx]
  refine ⟨f₁, ?_⟩
  unfold check
  rw [bind_of_ok hcallee]
  dsimp only
  rw [bind_of_ok ha]
  simp only [if_true]
  rfl

def DerivedPasses (t : Tree String) : Prop :=
  ∀ ⦃Q : Site → Prop⦄ ⦃s s' : Names⦄ ⦃d : Demand⦄ ⦃o : Option Ty⦄, Derives Q s t d o s' →
    Passes t d s.known o s'.known

section
variable {Q : Site → Prop} {s s' : Names} {d : Demand}

theorem checkBlock_of_derives {ts : List (Tree String)} (hp : ∀ t ∈ ts, DerivedPasses t)
    {o : Option Ty} (h : DerivesBlock Q s ts d o s') (fitted : List (String × Ty)) :
    ∃ fitted', checkBlock ts d ⟨contextOf s.known, fitted⟩ =
      .ok o ⟨contextOf s'.known, fitted'⟩ := by
  induction ts generalizing s fitted with
  | nil => cases h
  | cons t ts ih =>
    obtain ⟨hpt, hps⟩ := List.forall_mem_cons.1 hp
    cases h with
    | last ht => exact hpt ht fitted
    | cons ht hts =>
      obtain ⟨f₁, ht⟩ := hpt ht fitted
      obtain ⟨f₂, hts⟩ := ih hps hts f₁
      refine ⟨f₂, ?_⟩
      rw [checkBlock, bind_of_ok ht]
      · exact hts
      · simp

theorem checkAll_of_derives {ts : List (Tree String)} (hp : ∀ t ∈ ts, DerivedPasses t)
    {us : List Ty} (h : DerivesAll Q s d ts us s') (place : TypedPlace)
    (fitted : List (String × Ty)) :
    ∃ fitted', checkAll place d ts ⟨contextOf s.known, fitted⟩ =
      .ok us ⟨contextOf s'.known, fitted'⟩ := by
  induction ts generalizing s us fitted with
  | nil =>
    cases h
    exact ⟨fitted, rfl⟩
  | cons t ts ih =>
    obtain ⟨hpt, hps⟩ := List.forall_mem_cons.1 hp
    cases h with
    | cons ht hts =>
      obtain ⟨f₁, ht⟩ := hpt ht fitted
      obtain ⟨f₂, hts⟩ := ih hps hts f₁
      refine ⟨f₂, ?_⟩
      unfold checkAll
      rw [bind_of_ok ht, bind_of_ok (yielded_some _ _ _), bind_of_ok hts]
      rfl

theorem checkEqual_of_derives {ts : List (Tree String)} (hp : ∀ t ∈ ts, DerivedPasses t)
    {us : List Ty} {e : Ty} (h : DerivesAll Q s d ts us s') (heq : ∀ u ∈ us, u = e)
    (fitted : List (String × Ty)) :
    ∃ fitted', checkEqual e d ts ⟨contextOf s.known, fitted⟩ =
      .ok () ⟨contextOf s'.known, fitted'⟩ := by
  induction ts generalizing s us fitted with
  | nil =>
    cases h
    exact ⟨fitted, rfl⟩
  | cons t ts ih =>
    obtain ⟨hpt, hps⟩ := List.forall_mem_cons.1 hp
    cases h with
    | cons ht hts =>
      obtain ⟨hu, hus⟩ := List.forall_mem_cons.1 heq
      obtain ⟨f₁, ht⟩ := hpt ht fitted
      obtain ⟨f₂, hts⟩ := ih hps hts hus f₁
      refine ⟨f₂, ?_⟩
      unfold checkEqual
      rw [bind_of_ok ht, bind_of_ok (yielded_some _ _ _), if_pos hu]
      exact hts

theorem passes_array {t : Tree String} {ts : List (Tree String)}
    (hp : ∀ u ∈ t :: ts, DerivedPasses u) {d' : Demand} {us : List Ty} {e : Ty}
    (h : DerivesAll Q s d' (t :: ts) us s') (heq : ∀ u ∈ us, u = e)
    (hd : ∀ st, elementDemand d.type? st = .ok d' st) :
    Passes (.array (t :: ts)) d s.known (some (.array e (ts.length + 1))) s'.known := by
  intro fitted
  cases h with
  | cons ht hts =>
    obtain ⟨hpt, hps⟩ := List.forall_mem_cons.1 hp
    obtain ⟨hu, hus⟩ := List.forall_mem_cons.1 heq
    obtain ⟨f₁, ht⟩ := hpt ht fitted
    obtain ⟨f₂, hts⟩ := checkEqual_of_derives hps hts hus f₁
    refine ⟨f₂, ?_⟩
    unfold check
    rw [bind_of_ok (hd _), bind_of_ok ht, bind_of_ok (yielded_some _ _ _), hu, bind_of_ok hts]
    rfl

end

theorem derivedPasses_function {i type body : Tree String} {ps : List (Tree String)}
    (htypes : type.IsTypeExpression) (hps : ∀ p ∈ ps, p.IsParameter) (hbody : DerivedPasses body) :
    DerivedPasses (.bind i type (.lambda ps body)) := by
  intro Q s s' d o h
  cases h with
  | localFunction htype _ hes hb =>
    have hlambda := passes_lambda hps (source_ne_unit_of_denote htype) hes (hbody hb)
    exact passes_bind htypes htype hlambda d
  | bind hne => exact absurd rfl (hne ps body)

theorem derivedPasses_bind {i type value : Tree String} (htypes : type.IsTypeExpression)
    (hne : ∀ ps b, value ≠ .lambda ps b) (hvalue : DerivedPasses value) :
    DerivedPasses (.bind i type value) := by
  intro Q s s' d o h
  cases h with
  | localFunction => exact absurd rfl (hne _ _)
  | bind _ htype hv => exact passes_bind htypes htype (hvalue hv) d

theorem derivedPasses_binary {left right : Tree String} (op : Operator)
    (hl : DerivedPasses left) (hr : DerivedPasses right) :
    DerivedPasses (.binary left right op) := by
  intro Q s s' d o h
  cases h with
  | index hleft hright => exact passes_index (hl hleft) (hr hright) d
  | binary hop hleft hright => exact passes_binary hop (hl hleft) (hr hright)

theorem derivedPasses_apply {f argument : Tree String} (ha : DerivedPasses argument) :
    DerivedPasses (.apply f argument) := by
  intro Q s s' d o h
  cases h with
  | apply hx _ hargument => exact passes_apply hx (ha hargument) d

theorem derivedPasses_identifier (x : String) : DerivedPasses (.identifier x) := by
  intro Q s s' d o h fitted
  cases h with
  | identifier hx => exact ⟨fitted, by rw [check_identifier, hx]⟩

theorem derivedPasses_number (n : Int) : DerivedPasses (.number n) := by
  intro Q s s' d o h fitted
  refine ⟨fitted, ?_⟩
  unfold check numberType
  cases h with
  | number hd =>
    rw [hd]
    rfl
  | numberAs hd hint =>
    rw [hd]
    simp only [hint, if_true]
    rfl

theorem derivedPasses_block {ts : List (Tree String)} (hts : ∀ t ∈ ts, DerivedPasses t) :
    DerivedPasses (.block ts) := by
  intro Q s s' d o h fitted
  cases h with
  | block hs =>
    unfold check
    exact checkBlock_of_derives hts hs fitted

theorem derivedPasses_tuple {ts : List (Tree String)} (hts : ∀ t ∈ ts, DerivedPasses t) :
    DerivedPasses (.tuple ts) := by
  intro Q s s' d o h fitted
  cases h with
  | tuple helements =>
    obtain ⟨f₁, helements⟩ := checkAll_of_derives hts helements .tupleElement fitted
    refine ⟨f₁, ?_⟩
    unfold check
    rw [bind_of_ok helements]
    rfl

theorem derivedPasses_array {ts : List (Tree String)} (hts : ∀ t ∈ ts, DerivedPasses t) :
    DerivedPasses (.array ts) := by
  intro Q s s' d o h
  cases h with
  | emptyArray hd =>
    intro fitted
    refine ⟨fitted, ?_⟩
    unfold check
    rw [hd]
    rfl
  | array hd helements heq | arrayAs hd helements heq =>
    refine passes_array hts helements heq fun _ => ?_
    rw [hd]
    rfl

/-- What the rules derive passes the check. -/
theorem passes_of_derives {t : Tree String} (hp : t.IsParsed) : DerivedPasses t := by
  induction hp using Tree.IsParsed.inductionOnBodies with
  | identifier => exact derivedPasses_identifier _
  | text | boolean =>
    intro Q s s' d o h fitted
    cases h
    exact ⟨fitted, rfl⟩
  | number => exact derivedPasses_number _
  | array _ ih => exact derivedPasses_array ih
  | tuple _ _ ih => exact derivedPasses_tuple ih
  | block _ _ ih => exact derivedPasses_block ih
  | lambda =>
    intro Q s s' d o h
    cases h
  | apply _ _ _ ih => exact derivedPasses_apply ih
  | binary op _ _ ihl ihr => exact derivedPasses_binary op ihl ihr
  | function _ htypes hps _ ih => exact derivedPasses_function htypes hps ih
  | bind _ htypes _ hne ih => exact derivedPasses_bind htypes hne ih

end LetLang.Typing
