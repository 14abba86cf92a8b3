import LetLang.Proofs.Grammar.Shape
import LetLang.Proofs.Step
import LetLang.Session

/-!
# What a session went through

A session that compiled a source text parsed it and lowered its statements; one that interpreted an
arena made its program and ran it. A source text or an arena that does not get through belongs to
the stage at which it stops, with few exceptions.
-/

namespace LetLang.Program

variable {a : Arena Node} {p : Program} {e : ProgramError}

theorem stage?_of_addLowered {ids : List Int} (h : addLowered a p ids = .error e) :
    e.stage? = some .internal := by
  induction ids generalizing p with
  | nil => cases h
  | cons id ids ih =>
    unfold addLowered at h
    split at h
    · cases h
      rfl
    · exact ih h
    · cases h
      rfl

theorem stage?_of_addNatives {ns : List Native} (h : addNatives p ns = .error e) :
    e.stage? = some .internal := by
  induction ns generalizing p with
  | nil => cases h
  | cons n ns ih =>
    unfold addNatives at h
    cases hn : ofNative n with
    | ok f =>
      rw [hn] at h
      exact ih h
    | error cause =>
      rw [hn] at h
      cases h
      unfold ofNative at hn
      split at hn
      · cases hn
        rfl
      · split at hn
        · cases hn
        · cases hn
          rfl

/-- An arena alone is refused for what it is. -/
theorem stage?_of_build (h : build a [] = .error e) : e.stage? = some .internal := by
  unfold build at h
  split at h
  · cases h
    rfl
  · split at h
    · next hlowered =>
      cases h
      exact stage?_of_addLowered hlowered
    · exact stage?_of_addNatives h
  · cases h
    rfl

end LetLang.Program

namespace LetLang.Session

variable {ε α : Type} {t t' : Transcript}

theorem lift_eq_ok {failure : ε → Failure} {r : Except ε α} {a : α}
    (h : lift failure r t = .ok a t') : r = .ok a ∧ t' = t := by
  cases r with
  | ok b =>
    cases h
    exact ⟨rfl, rfl⟩
  | error e => cases h

theorem lift_eq_error {failure : ε → Failure} {r : Except ε α} {f : Failure}
    (h : lift failure r t = .error f t') : ∃ e, r = .error e ∧ f = failure e := by
  cases r with
  | ok b => cases h
  | error e =>
    cases h
    exact ⟨e, rfl, rfl⟩

theorem parse_eq_ok {source : String} {ts : List (Tree String)} (h : parse source t = .ok ts t') :
    parseSource source = .ok ts := by
  obtain ⟨_, t₁, -, h₁⟩ := bind_eq_ok h
  obtain ⟨us, t₂, hus, h₂⟩ := bind_eq_ok h₁
  obtain ⟨_, t₃, -, h₃⟩ := bind_eq_ok h₂
  cases h₃
  exact (lift_eq_ok hus).1

theorem lower_eq_ok {tree : Tree String} {l : Lowering.Lowered} (h : lower tree t = .ok l t') :
    LetLang.lower tree = .ok l := by
  obtain ⟨l', t₁, hl, h₁⟩ := bind_eq_ok h
  obtain ⟨_, t₂, -, h₂⟩ := bind_eq_ok h₁
  cases h₂
  exact (lift_eq_ok hl).1

/-- The check of a session passes exactly if that of the file does. -/
theorem check_eq_ok_iff {ts : List (Tree String)} {natives : List Native} {scope : Scope}
    (hscope : Scope.ofPrelude natives = .ok scope) :
    (∃ t', check ts natives t = .ok () t') ↔
      ∃ o s, Typing.check (.file ts) .nothing ⟨⟨scope, []⟩, []⟩ = .ok o s := by
  constructor
  · rintro ⟨t', h⟩
    unfold check at h
    obtain ⟨scope', t₁, hlift, h₁⟩ := bind_eq_ok h
    obtain ⟨hscope', rfl⟩ := lift_eq_ok hlift
    rw [hscope] at hscope'
    cases hscope'
    cases hc : Typing.check (.file ts) .nothing ⟨⟨scope, []⟩, []⟩ with
    | ok o s => exact ⟨o, s, rfl⟩
    | error e s =>
      simp only [Typing.run, hc] at h₁
      obtain ⟨_, t₂, -, h₂⟩ := bind_eq_ok h₁
      obtain ⟨_, t₃, h₃, -⟩ := bind_eq_ok h₂
      cases h₃
  · rintro ⟨o, s, hc⟩
    have hlift : lift .native (Scope.ofPrelude natives) t = .ok scope t := by
      rw [hscope]
      rfl
    unfold check
    rw [bind_of_ok hlift]
    simp only [Typing.run, hc]
    exact ⟨_, rfl⟩

/-- The check of a session that fails with a type error is that of the file. -/
theorem check_eq_error {ts : List (Tree String)} {natives : List Native} {scope : Scope}
    {e : TypeError} (hscope : Scope.ofPrelude natives = .ok scope)
    (h : check ts natives t = .error (.check e) t') :
    ∃ s, Typing.check (.file ts) .nothing ⟨⟨scope, []⟩, []⟩ = .error e s := by
  unfold check at h
  rcases bind_eq_error h with hlift | ⟨scope', t₁, hlift, h₁⟩
  · obtain ⟨_, hnone, -⟩ := lift_eq_error hlift
    rw [hscope] at hnone
    cases hnone
  · obtain ⟨hscope', rfl⟩ := lift_eq_ok hlift
    rw [hscope] at hscope'
    cases hscope'
    cases hc : Typing.check (.file ts) .nothing ⟨⟨scope, []⟩, []⟩ with
    | ok o s =>
      simp only [Typing.run, hc] at h₁
      cases h₁
    | error e' s =>
      simp only [Typing.run, hc] at h₁
      cases h₁
      exact ⟨s, rfl⟩

/-- A source text that was compiled was parsed, and its statements were lowered. -/
theorem compile_eq_ok {source : String} {checked : Bool} {natives : List Native} {c : Compiled}
    (h : compile source checked natives t = .ok c t') :
    parseSource source = .ok c.statements ∧ LetLang.lower (.file c.statements) = .ok c.lowered := by
  obtain ⟨ts, t₁, hts, h₁⟩ := bind_eq_ok h
  cases checked with
  | true =>
    obtain ⟨_, t₂, -, h₂⟩ := bind_eq_ok h₁
    obtain ⟨l, t₃, hl, h₃⟩ := bind_eq_ok h₂
    obtain ⟨_, t₄, -, h₄⟩ := bind_eq_ok h₃
    cases h₄
    exact ⟨parse_eq_ok hts, lower_eq_ok hl⟩
  | false =>
    obtain ⟨l, t₃, hl, h₃⟩ := bind_eq_ok h₁
    obtain ⟨_, t₄, -, h₄⟩ := bind_eq_ok h₃
    cases h₄
    exact ⟨parse_eq_ok hts, lower_eq_ok hl⟩

section
variable {a : Arena Node} {natives : List Native} {files : Files} {fuel : Nat}

/-- An arena that was interpreted with a value has a program, whose run ends with the value. -/
theorem interpret_eq_ok {v : Option Value} (h : interpret a natives files fuel t = .ok v t') :
    ∃ p, Program.build a natives = .ok p ∧
      (Evaluation.run ⟨a, p, files⟩ fuel).result = .ok v := by
  obtain ⟨p, t₁, hp, h₁⟩ := bind_eq_ok h
  obtain ⟨_, t₂, -, h₂⟩ := bind_eq_ok h₁
  obtain ⟨_, t₃, -, h₃⟩ := bind_eq_ok h₂
  refine ⟨p, (lift_eq_ok hp).1, ?_⟩
  cases hr : (Evaluation.run ⟨a, p, files⟩ fuel).result with
  | ok u =>
    simp only [hr] at h₃
    cases h₃
    rfl
  | error e =>
    simp only [hr] at h₃
    cases e <;> cases h₃

/-- An arena that was interpreted with a failure has no program, or the run of it ends with the
failure or is not finished. -/
theorem interpret_eq_error {f : Failure} (h : interpret a natives files fuel t = .error f t') :
    (∃ e, Program.build a natives = .error e ∧ f = .program e) ∨
      ∃ p, Program.build a natives = .ok p ∧
        ((∃ e, (Evaluation.run ⟨a, p, files⟩ fuel).result = .error (.failed e) ∧ f = .run e) ∨
          f = .outOfFuel) := by
  rcases bind_eq_error h with hp | ⟨p, t₁, hp, h₁⟩
  · obtain ⟨e, he, rfl⟩ := lift_eq_error hp
    exact .inl ⟨e, he, rfl⟩
  · refine .inr ⟨p, (lift_eq_ok hp).1, ?_⟩
    rcases bind_eq_error h₁ with hnote | ⟨_, t₂, -, h₂⟩
    · cases hnote
    rcases bind_eq_error h₂ with hprint | ⟨_, t₃, -, h₃⟩
    · cases hprint
    cases hr : (Evaluation.run ⟨a, p, files⟩ fuel).result with
    | ok u =>
      simp only [hr] at h₃
      cases h₃
    | error e =>
      simp only [hr] at h₃
      cases e with
      | failed e =>
        cases h₃
        exact .inl ⟨e, rfl, rfl⟩
      | outOfFuel =>
        cases h₃
        exact .inr rfl

end

section
variable {P : Failure → Prop}

theorem failsOnly_lift {failure : ε → Failure} {r : Except ε α}
    (h : ∀ e, r = .error e → P (failure e)) : FailsOnly P (lift failure r) := by
  cases r with
  | ok a => exact FailsOnly.pure a
  | error e => exact FailsOnly.throw (h e rfl)

theorem failsOnly_note (pass : Pass) (texts : List String) : FailsOnly P (note pass texts) :=
  FailsOnly.modify _

theorem failsOnly_print (text : String) : FailsOnly P (print text) := FailsOnly.modify _

/-- A source text that does not get through the passes belongs to the stage at which it stops,
unless a number in it cannot be read. -/
theorem failsOnly_compile (h : ∀ f, f.stage?.isSome = true → P f) {source : String}
    (hnumeral : ∀ e, tokenize source = .error e → P (.parse (.numeral e))) (checked : Bool) :
    FailsOnly P (compile source checked []) := by
  have hlower : ∀ ts, FailsOnly P (do
      let lowered ← lower (.file ts)
      note .pipeline
        [s!"compiled {source.length} characters into {lowered.arena.size} arena nodes"]
      return ({ statements := ts, lowered } : Compiled)) := by
    intro ts
    refine .bind (.bind (failsOnly_lift fun e _ => h _ ?_) fun l => ?_) fun l => ?_
    · rfl
    · exact (failsOnly_note _ _).bind fun _ => .pure _
    · exact (failsOnly_note _ _).bind fun _ => .pure _
  refine .bind ?_ fun ts => ?_
  · refine (failsOnly_note _ _).bind fun _ => .bind (failsOnly_lift fun e he => ?_) fun ts => ?_
    · cases e with
      | numeral e => exact hnumeral e (parseSource_eq_numeral_iff.1 he)
      | grammar e => exact h _ rfl
    · exact (failsOnly_note _ _).bind fun _ => .pure _
  · cases checked with
    | false => exact hlower ts
    | true =>
      refine .bind (.bind (failsOnly_lift fun e he => ?_) fun scope => ?_) fun _ => hlower ts
      · cases he
      · refine (failsOnly_note _ _).bind fun _ => ?_
        exact .bind (failsOnly_lift fun e _ => h _ rfl) fun _ => failsOnly_note _ _

end

end LetLang.Session
