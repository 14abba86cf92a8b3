import LetLang.Proofs.Typing.Safe

/-!
# Soundness of the rules

Where the rules derive a type for a tree and the check and the evaluation agree at all its sites,
the evaluation of the tree is safe.
-/

namespace LetLang.Typing

open Evaluation (lift inSequence inOrder operate)
open Direct (World Definition Intrinsic)
open Policy (EnvTyped)

variable {π : Policy} {functions : Table String Ty}

/-- The value fits the type, if there is one. -/
def OfType (π : Policy) (o : Option Ty) (v : Value) : Prop := ∀ u, o = some u → v.Fits π.loose u

theorem ofType_none (π : Policy) (v : Value) : OfType π none v := by
  intro u h
  cases h

theorem ofType_some {u : Ty} {v : Value} : OfType π (some u) v ↔ v.Fits π.loose u := by
  constructor
  · intro h
    exact h u rfl
  · intro h t ht
    cases ht
    exact h

def resultType : Intrinsic → Ty
  | .print | .printLine => .unit
  | .readFile | .inspect => .atom .text

/-- The definition gives the name `x` a function type. -/
inductive DefinitionTyped (π : Policy) (functions : Table String Ty) (x : String) :
    Definition → Ty → Prop
  | written {ps : List String} {body : Tree String} {a b : Ty} {es : List (String × Ty)}
      {known : Table String Ty} {s' : Names} : (∀ us, a = .product us → us.length ≠ 1) →
      parameterTypes ps a = some es →
      Derives (π.Agrees functions) ⟨known, (π.base functions x).insertAll es⟩ body (.exactly b)
        (some b) s' → DefinitionTyped π functions x (.written ps body) (.function a b)
  | intrinsic (i : Intrinsic) {a : Ty} :
      DefinitionTyped π functions x (.intrinsic i) (.function a (resultType i))

/-- The names of the world are those of the functions, and stand for definitions of their types. -/
def WorldTyped (π : Policy) (functions : Table String Ty) (w : World) : Prop :=
  ∀ x, Option.Rel (DefinitionTyped π functions x) (w.definitions.get? x) (functions.get? x)

theorem WorldTyped.eq_none_iff {w : World} (hw : WorldTyped π functions w) (x : String) :
    w.definitions.get? x = none ↔ functions.get? x = none :=
  Table.rel_eq_none_iff (hw x)

theorem WorldTyped.definition {w : World} (hw : WorldTyped π functions w) {x : String}
    {d : Definition} {u : Ty} (hd : w.definitions.get? x = some d)
    (hu : functions.get? x = some u) : DefinitionTyped π functions x d u := by
  have hx := hw x
  rw [hd, hu] at hx
  exact Option.rel_some_some.1 hx

def RunsSafe (π : Policy) (functions : Table String Ty)
    (run : Tree String → Evaluation.Step Value) : Prop :=
  ∀ s t d o s', Derives (π.Agrees functions) s t d o s' →
    Safe π s.bound (run t) s'.bound (OfType π o)

theorem exists_number_of_fits {v : Value} {a : Atom} (ha : a.isInteger = true)
    (hstrict : π.strict = true) (h : v.Fits π.loose (.atom a)) : ∃ n, v = .number n := by
  cases h with
  | number => exact ⟨_, rfl⟩
  | boolean => cases ha
  | text => cases ha
  | empty hloose =>
    rw [π.not_loose_of_strict a ha hstrict] at hloose
    cases hloose

theorem exists_elements_of_fits {v : Value} {e : Ty} {n : Int} (h : v.Fits π.loose (.array e n)) :
    ∃ vs, v = .array vs ∧ ∀ w ∈ vs, w.Fits π.loose e := by
  cases h with
  | array _ hvs => exact ⟨_, rfl, hvs⟩
  | empty => exact ⟨[], rfl, by simp⟩

theorem operate_eq_ok {op : Operator} (hop : op ≠ .index) {l r v : Value}
    (h : operate op l r = .ok v) : ∃ m n, l = .number m ∧ ∃ k, r = .number n ∧ v = .number k := by
  unfold operate at h
  split at h
  · cases h
    exact ⟨_, _, rfl, _, rfl, rfl⟩
  · cases h
    exact ⟨_, _, rfl, _, rfl, rfl⟩
  · exact absurd rfl hop
  · cases h

theorem operate_numbers {op : Operator} (hop : op ≠ .index) (m n : Int) :
    ∃ v, operate op (.number m) (.number n) = .ok v := by
  cases op with
  | times => exact ⟨_, rfl⟩
  | plus => exact ⟨_, rfl⟩
  | index => exact absurd rfl hop

variable {b : Table String Ty}

theorem safe_operate {op : Operator} (hop : op ≠ .index) {l r : Value} {u : Ty}
    (hu : π.Agrees functions (.operands u)) (hl : l.Fits π.loose u) (hr : r.Fits π.loose u) :
    Safe π b (lift (operate op l r)) b fun v => v.Fits π.loose u := by
  refine .lift ?_ ?_
  · intro v hv
    obtain ⟨m, n, rfl, k, -, rfl⟩ := operate_eq_ok hop hv
    cases hl with
    | number ha => exact .number ha
  · intro e he hstrict
    obtain ⟨a, rfl, ha⟩ := hu hstrict
    obtain ⟨m, rfl⟩ := exists_number_of_fits ha hstrict hl
    obtain ⟨n, rfl⟩ := exists_number_of_fits ha hstrict hr
    obtain ⟨v, hv⟩ := operate_numbers hop m n
    rw [hv] at he
    cases he

theorem operate_index (vs : List Value) (n : Int) :
    (∃ v ∈ vs, operate .index (.array vs) (.number n) = .ok v) ∨
      operate .index (.array vs) (.number n) =
        .error (.showing [.number n] (.indexOutOfBounds n vs.length)) := by
  unfold operate
  dsimp only
  split
  · exact .inr rfl
  · cases hv : vs[n.toNat]? with
    | none => exact .inr rfl
    | some v => exact .inl ⟨v, List.mem_of_getElem? hv, rfl⟩

theorem safe_index {l r : Value} {e : Ty} {n : Int} {o : Option Ty}
    (ho : π.Agrees functions (.position o)) (hl : l.Fits π.loose (.array e n))
    (hr : OfType π o r) : Safe π b (lift (operate .index l r)) b fun v => v.Fits π.loose e := by
  obtain ⟨vs, rfl, hvs⟩ := exists_elements_of_fits hl
  by_cases hnumber : ∃ i, r = .number i
  · obtain ⟨i, rfl⟩ := hnumber
    rcases operate_index vs i with ⟨v, hv, hok⟩ | herror
    · rw [hok]
      exact .pure (hvs v hv)
    · rw [herror]
      exact .fail (allowed_showing (allowed_of_stage? (by simp [RunError.stage?])) _)
  · have hoperands : operate .index (.array vs) r =
        .error (.showing [.array vs, r] (.operands (.array vs) r)) := by
      cases r with
      | number i => exact absurd ⟨i, rfl⟩ hnumber
      | _ => rfl
    rw [hoperands]
    refine .fail (allowed_showing (fun hstrict => ?_) _)
    obtain ⟨a, rfl, ha⟩ := ho hstrict
    exact absurd (exists_number_of_fits ha hstrict (ofType_some.1 hr)) hnumber

theorem safe_textFor (i : Intrinsic) (v : Value) :
    Safe π b (Direct.textFor i v) b fun _ => True := by
  cases v with
  | text s => exact .pure trivial
  | _ => exact .fail (allowed_showing (allowed_of_stage? (by simp [RunError.stage?])) _)

theorem safe_perform (files : Files) (i : Intrinsic) (v : Value) :
    Safe π b (Direct.perform files i v) b fun u => u.Fits π.loose (resultType i) := by
  cases i with
  | print =>
    exact (safe_textFor .print v).bind fun s _ => (Safe.print s).bind fun _ _ => .pure .void
  | printLine =>
    exact (safe_textFor .printLine v).bind fun s _ => (Safe.print _).bind fun _ _ => .pure .void
  | readFile =>
    refine (safe_textFor .readFile v).bind fun s _ => ?_
    cases files.readText s with
    | ok t => exact .pure .text
    | error e =>
      refine .fail fun _ => ?_
      unfold RunError.stage?
      split <;> simp_all
  | inspect =>
    refine Safe.bind (.lift (fun _ _ => trivial) fun e he => ?_) fun s _ => .pure .text
    obtain ⟨rfl, -⟩ := Evaluation.inspected_eq_error he
    exact allowed_unwritten v

theorem safe_apply {w : World} {run : Tree String → Evaluation.Step Value}
    (hrun : RunsSafe π functions run) {x : String} {d : Definition} {a t : Ty}
    (hd : DefinitionTyped π functions x d (.function a t))
    (hbase : π.strict = true → π.base functions x = ∅) {v : Value} (hv : v.Fits π.loose a) :
    Safe π b (Direct.apply w run x d v) b fun u => u.Fits π.loose t := by
  cases hd with
  | @written ps body _ _ es _ _ hlen hes hbody =>
    have hcall : Safe π b (lift (Direct.arguments x ps v)) b
        fun e => π.EnvTyped ((π.base functions x).insertAll es) e := by
      rcases arguments_fit hes hlen hv x with ⟨vs, he, hvs⟩ | ⟨m, n, he⟩
      · rw [he]
        exact .pure ((EnvTyped.empty hbase).insertAll hvs)
      · rw [he]
        exact .fail fun _ => by simp [RunError.stage?]
    refine hcall.bind fun e he => ?_
    exact .inCall he ((hrun _ _ _ _ _ hbody).mono fun u hu => ofType_some.1 hu)
  | intrinsic i =>
    unfold Direct.apply
    dsimp only
    split
    · exact safe_perform w.files i v
    · exact .fail fun _ => by simp [RunError.stage?]

/-- A name that is seen at a function type stands for a definition of the type, unless the policy
allows that it is missing. -/
theorem safe_applyName {w : World} (hw : WorldTyped π functions w)
    {run : Tree String → Evaluation.Step Value} (hrun : RunsSafe π functions run) {x : String}
    {a t : Ty} (hx : π.Agrees functions (.applied x (.function a t))) {v : Value}
    (hv : v.Fits π.loose a) :
    Safe π b (match w.definitions.get? x with
      | none => Evaluation.fail (.unknownFunction x)
      | some d => Direct.apply w run x d v) b fun u => u.Fits π.loose t := by
  obtain ⟨⟨htype, hsome⟩, hentry⟩ := hx
  have hbase : π.strict = true → π.base functions x = ∅ := fun hstrict =>
    π.base_eq_empty (hentry hstrict)
  cases hd : w.definitions.get? x with
  | none =>
    refine .fail fun hstrict => ?_
    have hpresent := hsome hstrict
    rw [(hw.eq_none_iff x).1 hd] at hpresent
    cases hpresent
  | some d =>
    cases hu : functions.get? x with
    | none =>
      have hnone := (hw.eq_none_iff x).2 hu
      rw [hd] at hnone
      cases hnone
    | some u =>
      obtain rfl := htype u hu
      exact safe_apply hrun (hw.definition hd hu) hbase hv

theorem length_of_derivesAll {Q : Site → Prop} {s s' : Names} {d : Demand} {ts : List (Tree String)}
    {us : List Ty} (h : DerivesAll Q s d ts us s') : us.length = ts.length := by
  induction ts generalizing s us with
  | nil =>
    cases h
    rfl
  | cons t ts ih =>
    cases h with
    | cons _ hts => rw [List.length_cons, List.length_cons, ih hts]

theorem fits_of_forall₂ {loose : Ty → Bool} {vs : List Value} {us : List Ty} {e : Ty}
    (h : List.Forall₂ (Value.Fits loose) vs us) (hus : ∀ u ∈ us, u = e) :
    ∀ v ∈ vs, v.Fits loose e := by
  induction h with
  | nil => simp
  | cons hv _ ih =>
    obtain ⟨rfl, hus⟩ := List.forall_mem_cons.1 hus
    exact List.forall_mem_cons.2 ⟨hv, ih hus⟩

section
variable {run : Tree String → Evaluation.Step Value} (hrun : RunsSafe π functions run)
include hrun

theorem safe_inSequence {s s' : Names} {ts : List (Tree String)} {d : Demand} {o : Option Ty}
    (h : DerivesBlock (π.Agrees functions) s ts d o s') :
    Safe π s.bound (inSequence run ts) s'.bound (OfType π o) := by
  induction ts generalizing s with
  | nil => cases h
  | cons t ts ih =>
    cases h with
    | last ht => exact hrun _ _ _ _ _ ht
    | cons ht hts => exact (hrun _ _ _ _ _ ht).bind fun _ _ => ih hts

theorem safe_inOrder {s s' : Names} {d : Demand} {ts : List (Tree String)} {us : List Ty}
    (h : DerivesAll (π.Agrees functions) s d ts us s') :
    Safe π s.bound (inOrder run ts) s'.bound fun vs => List.Forall₂ (Value.Fits π.loose) vs us := by
  induction ts generalizing s us with
  | nil =>
    cases h
    exact .pure .nil
  | cons t ts ih =>
    cases h with
    | cons ht hts =>
      refine (hrun _ _ _ _ _ ht).bind fun v hv => ?_
      refine (ih hts).bind fun vs hvs => .pure ?_
      exact .cons (ofType_some.1 hv) hvs

/-- The elements of an array all have its element type. -/
theorem safe_array {s s' : Names} {d : Demand} {t : Tree String} {ts : List (Tree String)}
    {us : List Ty} {e : Ty} (h : DerivesAll (π.Agrees functions) s d (t :: ts) us s')
    (hus : ∀ u ∈ us, u = e) :
    Safe π s.bound (do return Value.array (← inOrder run (t :: ts))) s'.bound
      fun v => v.Fits π.loose (.array e (ts.length + 1)) := by
  have hlen := length_of_derivesAll h
  refine (safe_inOrder hrun h).bind fun vs hvs => .pure (.array ?_ (fits_of_forall₂ hvs hus))
  rw [hvs.length_eq, hlen, List.length_cons]
  omega

end

/-- Whatever the fuel, a tree with a derived type is evaluated safely. -/
theorem safe_evaluate {w : World} (hw : WorldTyped π functions w) (fuel : Nat) :
    RunsSafe π functions (Direct.evaluate w fuel) := by
  induction fuel with
  | zero => exact fun _ _ _ _ _ _ => .outOfFuel
  | succ fuel ih =>
    intro s t d o s' h
    cases h with
    | localFunction _ hlocal =>
      have hlocal : π.strict = false := hlocal
      exact .fail fun hstrict => absurd hstrict (by simp [hlocal])
    | bind hvalue _ hv =>
      rw [Direct.evaluate, Direct.step]
      · refine (ih _ _ _ _ _ hv).bind fun v hfits => ?_
        exact (Safe.bindName (ofType_some.1 hfits)).bind fun _ _ => .pure (ofType_none π _)
      · exact hvalue
    | block hts => exact safe_inSequence ih hts
    | identifier _ hread =>
      refine (Safe.look hread).bind fun o ho => ?_
      rcases ho with ⟨v, rfl, hv⟩ | ⟨rfl, hstrict⟩
      · exact .pure (ofType_some.2 hv)
      · exact .fail fun h => absurd h (by simp [hstrict])
    | index hl hr ho =>
      refine (ih _ _ _ _ _ hl).bind fun l hl => (ih _ _ _ _ _ hr).bind fun r hr => ?_
      exact (safe_index ho (ofType_some.1 hl) hr).mono fun v hv => ofType_some.2 hv
    | binary hop hl hr hu =>
      refine (ih _ _ _ _ _ hl).bind fun l hl => (ih _ _ _ _ _ hr).bind fun r hr => ?_
      exact (safe_operate hop hu (ofType_some.1 hl) (ofType_some.1 hr)).mono
        fun v hv => ofType_some.2 hv
    | apply _ happlied ha =>
      refine (ih _ _ _ _ _ ha).bind fun v hv => ?_
      exact (safe_applyName hw ih happlied (ofType_some.1 hv)).mono fun u hu => ofType_some.2 hu
    | number => exact .pure (ofType_some.2 (.number rfl))
    | numberAs _ ha => exact .pure (ofType_some.2 (.number ha))
    | boolean => exact .pure (ofType_some.2 .boolean)
    | text => exact .pure (ofType_some.2 .text)
    | tuple hts =>
      exact (safe_inOrder ih hts).bind fun vs hvs => .pure (ofType_some.2 (.tuple hvs))
    | emptyArray _ hempty =>
      refine .pure (ofType_some.2 ?_)
      rcases hempty with hloose | ⟨e, rfl⟩
      · exact .empty hloose
      · exact .array rfl (by simp)
    | array _ hts hus | arrayAs _ hts hus =>
      exact (safe_array ih hts hus).mono fun v hv => ofType_some.2 hv

theorem get?_functionNames (w : World) (x : String) :
    (Table.ofList (w.definitions.keys.map fun y => (y, Value.function y))).get? x =
      (w.definitions.get? x).map fun _ => .function x :=
  Table.get?_ofList_keys w.definitions Value.function x

theorem envTyped_functionNames {w : World} (hw : WorldTyped π functions w) :
    π.EnvTyped (π.base functions Evaluation.entryName)
      (.ofList (w.definitions.keys.map fun x => (x, .function x))) := by
  cases hbound : π.functionsBound with
  | true =>
    have hbase : π.base functions Evaluation.entryName = functions := by
      unfold Policy.base
      rw [if_pos ⟨hbound, rfl⟩]
    rw [hbase]
    constructor
    · intro x v u hv hu
      rw [get?_functionNames] at hv
      obtain ⟨d, hd, rfl⟩ := Option.map_eq_some_iff.1 hv
      have hdefinition := hw.definition hd hu
      cases hdefinition <;> exact .function
    · intro _ x hu
      rw [get?_functionNames, Option.map_eq_none_iff]
      exact (hw.eq_none_iff x).2 hu
    · intro _ x hd
      rw [get?_functionNames, Option.map_eq_none_iff] at hd
      exact (hw.eq_none_iff x).1 hd
  | false =>
    have hbase : π.base functions Evaluation.entryName = ∅ :=
      π.base_eq_empty fun h => absurd h (by simp [hbound])
    rw [hbase]
    constructor
    · intro x v u _ hu
      rw [Table.get?_empty] at hu
      cases hu
    · intro hstrict
      have htrue := π.functionsBound_of_not_strict hstrict
      exact absurd htrue (by simp [hbound])
    · intro _ x _
      exact Table.get?_empty x

/-- Whatever the fuel, the first function gives a value of its result type if the seed fits its
argument type. -/
theorem safe_runEntry {w : World} (hw : WorldTyped π functions w) {a t : Ty}
    (hmain : functions.get? Evaluation.entryName = some (.function a t)) (ha : a.isIntegral = true)
    (fuel : Nat) : Safe π b (Direct.runEntry w fuel) b fun v => v.Fits π.loose t := by
  unfold Direct.runEntry
  cases hd : w.definitions.get? Evaluation.entryName with
  | none =>
    have hnone := (hw.eq_none_iff _).1 hd
    rw [hmain] at hnone
    cases hnone
  | some d =>
    have hdefinition := hw.definition hd hmain
    cases hdefinition with
    | @written ps body _ _ es _ _ _ hes hbody =>
      have henv := (envTyped_functionNames hw).insertAll (seeds_fit hes ha Evaluation.seed)
      have hbody := (safe_evaluate hw fuel _ _ _ _ _ hbody).mono fun v hv => ofType_some.1 hv
      refine .inCall ?_ hbody
      unfold Table.insertAll at henv
      rwa [List.foldl_map] at henv
    | intrinsic i => exact safe_perform w.files i _

end LetLang.Typing
