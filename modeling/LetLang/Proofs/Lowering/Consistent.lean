import LetLang.Proofs.Evaluation.Failures
import LetLang.Proofs.Lowering.Correct
import LetLang.Proofs.Session

/-!
# What lowered programs cannot fail with

The evaluator looks for nodes, parameters and bindings that have to be there, and stops with an
internal failure where they are not. A lowered file has them all: what is left are the failures that
depend on values and on files.
-/

namespace LetLang

def Function.arity : Function → Nat
  | .lowered _ parameters _ => parameters.length
  | .native _ parameters _ => parameters.length

/-- An internal failure that says something true of the values of the program or of a file: an index
is outside of its array, a function is given another number of arguments than it takes, a native
that works on texts is given something else, or a file cannot be read. -/
inductive RunError.Justified (p : Program) (files : Files) : RunError → Prop
  | indexOutOfBounds {i : Int} {n : Nat} : i < 0 ∨ n ≤ i → Justified p files (.indexOutOfBounds i n)
  | argumentCount {g : Function} {n : Nat} : p.get? g.name = some g → g.arity ≠ n →
      Justified p files (.argumentCount g.name g.arity n)
  | argumentNotText {native : String} {v : Value} :
      native ∈ ["std.print", "std.println", "std.read"] → (∀ s, v ≠ .text s) →
      Justified p files (.argumentNotText native v)
  | unreadable {file path : String} {fault : FileFault} :
      files.readText file = .error (.refused fault path) →
      Justified p files (.unreadable file (.refused fault path))

namespace Lowering

open Evaluation (Machine FailsBy inCall enter nodeAt_eq failsOnly_look failsOnly_lift
  failsOnly_liftBind failsOnly_inCall failsOnly_inSequence failsOnly_inOrder)

def AllLift (P : Lifting → Prop) (made : Nat → List Lifting) : Prop := ∀ n, ∀ l ∈ made n, P l

section
variable {P : Lifting → Prop} {t : Tree String} {ts : List (Tree String)}

theorem AllLift.inTurn {first second : Nat → List Lifting} (h : AllLift P first)
    (h' : AllLift P second) : AllLift P (inTurn first second) := by
  intro n l hl
  rcases List.mem_append.1 hl with hl | hl
  · exact h _ l hl
  · exact h' _ l hl

theorem allLift_nil : AllLift P fun _ => [] := by simp [AllLift]

theorem allLift_liftingsAll (h : ∀ t ∈ ts, AllLift P (liftings t)) :
    AllLift P (liftingsAll ts) := by
  induction ts with
  | nil => exact allLift_nil
  | cons t ts ih =>
    obtain ⟨ht, hts⟩ := List.forall_mem_cons.1 h
    exact ht.inTurn (ih hts)

theorem allLift_of_isTypeAtom (h : t.IsTypeAtom) : AllLift P (liftings t) := by
  cases h <;> exact allLift_nil

theorem allLift_of_isTypeLink (h : t.IsTypeLink) : AllLift P (liftings t) := by
  cases h with
  | atom h => exact allLift_of_isTypeAtom h
  | product _ hts => exact allLift_liftingsAll fun t ht => allLift_of_isTypeAtom (hts t ht)

theorem allLift_of_isTypeOption (h : t.IsTypeOption) : AllLift P (liftings t) := by
  induction h with
  | link h => exact allLift_of_isTypeLink h
  | function hs _ ih => exact (allLift_of_isTypeLink hs).inTurn ih

theorem allLift_of_isTypeExpression (h : t.IsTypeExpression) : AllLift P (liftings t) := by
  cases h with
  | option h => exact allLift_of_isTypeOption h
  | sum _ hts => exact allLift_liftingsAll fun t ht => allLift_of_isTypeOption (hts t ht)

theorem allLift_parameters {ps : List (Tree String)} (h : ∀ p ∈ ps, p.IsParameter) :
    AllLift P (liftingsAll ps) := by
  refine allLift_liftingsAll fun p hp => ?_
  obtain ⟨x, rfl, -⟩ := h p hp
  exact allLift_nil

end

/-- The lambda is one that a source text can write. -/
def Lifting.IsParsed (l : Lifting) : Prop := (Tree.lambda l.parameters l.body).IsParsed

/-- In what a source text writes, every lambda that is lifted is one that a source text can
write. -/
theorem isParsed_of_mem_liftings {t : Tree String} (h : t.IsParsed) :
    AllLift Lifting.IsParsed (liftings t) := by
  -- A lambda is lifted with its body only where it is applied, so the body is carried along.
  have hboth : AllLift Lifting.IsParsed (liftings t) ∧
      ∀ ps b, t = .lambda ps b → AllLift Lifting.IsParsed (liftings b) := by
    induction h with
    | identifier | text | number | boolean => exact ⟨allLift_nil, by simp⟩
    | array _ ih | tuple _ _ ih | block _ _ ih =>
      exact ⟨allLift_liftingsAll fun t ht => (ih t ht).1, by simp⟩
    | lambda hps hb ih =>
      refine ⟨allLift_nil, ?_⟩
      rintro _ _ ⟨⟩
      exact ih.1
    | @apply f a hf ha ihf iha =>
      refine ⟨?_, by simp⟩
      cases hf with
      | @lambda ps b hps hb =>
        have hown := (allLift_parameters hps).inTurn (ihf.2 _ _ rfl)
        intro n
        have hself : AllLift Lifting.IsParsed fun _ => [⟨n, ps, b⟩] := by
          intro _ l hl
          rw [List.mem_singleton.1 hl]
          exact .lambda hps hb
        exact (hown.inTurn hself).inTurn iha.1 n
      | _ =>
        rw [liftings]
        · exact iha.1
        · simp
    | binary _ _ _ ihl ihr => exact ⟨ihl.1.inTurn ihr.1, by simp⟩
    | @bind i type v hi ht hv ih =>
      refine ⟨?_, by simp⟩
      obtain ⟨x, rfl, -⟩ := hi
      cases hv with
      | lambda hps hb => exact (allLift_parameters hps).inTurn (ih.2 _ _ rfl)
      | _ =>
        rw [liftings]
        · exact (allLift_of_isTypeExpression ht).inTurn ih.1
        · simp
  exact hboth.1

section
variable {ts : List (Tree String)} {l : Lowered} {ids : List Int} {tops made : List Function}
  {a : Arena Node} {R : String → Int → Prop} {g : Function}

theorem exists_of_forall₂ {α β : Type} {S : α → β → Prop} {xs : List α} {ys : List β}
    (h : List.Forall₂ S xs ys) {y : β} (hy : y ∈ ys) : ∃ x ∈ xs, S x y := by
  induction h with
  | nil => cases hy
  | cons hxy _ ih =>
    rcases List.mem_cons.1 hy with rfl | hy
    · exact ⟨_, List.mem_cons_self, hxy⟩
    · obtain ⟨x, hx, hxy⟩ := ih hy
      exact ⟨x, List.mem_cons_of_mem _ hx, hxy⟩

theorem exists_matches_of_isLifted {f : Int} {m : Lifting} (h : IsLifted a.node? R m f)
    (hm : m.IsParsed) (hg : a.function? f = some g) : ∃ d, Matches a.node? R d g := by
  obtain ⟨hnode, hps, hb⟩ := h
  obtain rfl := Option.some.inj
    (hg.symm.trans (Arena.function?_eq_some_iff.2 ⟨_, _, _, hnode, rfl⟩))
  cases hm with
  | lambda hparameters hbody => exact ⟨_, .written hparameters hbody hps hb⟩

/-- Every function of a lowered file is one that a source text defines, or a native. -/
theorem IsImage.exists_matches (h : IsImage ts l ids tops made) (hts : ∀ t ∈ ts, t.IsParsed)
    (hg : g ∈ tops ++ made ++ Program.standardFunctions) :
    ∃ d, Matches l.arena.node? (fun _ _ => True) d g := by
  obtain ⟨hids, hlifted⟩ := h.represents (fun _ _ => True) fun _ _ _ _ => trivial
  rcases List.mem_append.1 hg with hg | hg
  · rcases List.mem_append.1 hg with hg | hg
    · have hmatches := forall₂_matches hids h.topsAt hts h.definitions
      obtain ⟨d, -, -, hd⟩ := exists_of_forall₂ hmatches
        (List.mem_map_of_mem (f := fun g => (g.name, g)) hg)
      exact ⟨d.2, hd⟩
    · have hmem := List.mem_map_of_mem (f := some) hg
      rw [← h.madeAt] at hmem
      obtain ⟨f, hf, hfg⟩ := List.mem_map.1 hmem
      obtain ⟨m, hm, hlift⟩ := exists_of_forall₂ hlifted hf
      have hparsed := allLift_liftingsAll (fun t ht => isParsed_of_mem_liftings (hts t ht)) 0 m hm
      exact exists_matches_of_isLifted hlift hparsed hfg
  · obtain ⟨d, -, -, hd⟩ := exists_of_forall₂ (forall₂_matches_intrinsics l.arena.node?)
      (List.mem_map_of_mem (f := fun g => (g.name, g)) hg)
    exact ⟨d.2, hd⟩

/-- What a program finds under a name has that name, and is one of its functions. -/
theorem mem_of_get?_tableOf {x : String} (h : (tableOf tops made).get? x = some g) :
    g.name = x ∧ g ∈ tops ++ made ++ Program.standardFunctions := by
  rw [tableOf, Table.get?_ofList] at h
  obtain ⟨g', hg', heq⟩ := List.mem_map.1 (Table.mem_of_last?_eq_some h)
  cases heq
  exact ⟨rfl, hg'⟩

end

/-- What an evaluator finds under a name has that name and is as the source defines it. -/
structure Consistent (m : Machine) : Prop where
  named : ∀ x g, m.program.get? x = some g → g.name = x
  defined : ∀ x g, m.program.get? x = some g →
    ∃ d, Matches m.arena.node? (fun _ _ => True) d g

theorem IsImage.consistent {ts : List (Tree String)} {l : Lowered} {ids : List Int}
    {tops made : List Function} (h : IsImage ts l ids tops made) (hts : ∀ t ∈ ts, t.IsParsed)
    (files : Files) : Consistent ⟨l.arena, tableOf tops made, files⟩ where
  named _ _ hg := (mem_of_get?_tableOf hg).1
  defined _ _ hg := h.exists_matches hts (mem_of_get?_tableOf hg).2

/-- The failure is justified if it is an internal one. -/
def Tolerable (m : Machine) (e : RunError) : Prop :=
  e.stage? = some .internal → e.Justified m.program m.files

section
variable {m : Machine} {run : Int → Evaluation.Step Value}

theorem tolerable_of_interpret {e : RunError} (h : e.stage? = some .interpret) : Tolerable m e := by
  intro hinternal
  rw [h] at hinternal
  cases hinternal

/-- The only parameter takes the whole argument. -/
theorem arguments_singleton {x p : String} {v : Value} {e : Environment}
    (h : Evaluation.arguments x [p] v = .ok e) : e = .ofList [(p, v)] := by
  rw [← arguments_eq] at h
  unfold Direct.arguments at h
  dsimp only at h
  split at h
  · next hone =>
    rw [spread_eq_singleton hone.symm] at h
    exact (Except.ok.inj h).symm
  · cases h

theorem tolerable_unwritten (v : Value) : Tolerable m (.unwritten v) := nofun

theorem tolerable_showing {e : RunError} (h : Tolerable m e) (vs : List Value) :
    Tolerable m (.showing vs e) :=
  Evaluation.showing_holds h (fun v _ => tolerable_unwritten v) vs

theorem tolerable_operate {op : Operator} {l r : Value} {e : RunError}
    (h : Evaluation.operate op l r = .error e) : Tolerable m e := by
  obtain ⟨vs, complaint, rfl, ⟨i, n, rfl, hi⟩ | rfl⟩ := Evaluation.operate_eq_error h
  · exact tolerable_showing (fun _ => .indexOutOfBounds hi) vs
  · exact tolerable_showing (tolerable_of_interpret rfl) vs

/-- A native is called with its argument bound. -/
theorem failsBy_native (i : Direct.Intrinsic) (v : Value) :
    FailsBy (Tolerable m)
      (inCall (.ofList [(nativeParameter, v)]) (enter m run (functionOf i))) := by
  cases i with
  | print | printLine =>
    refine FailsBy.inCallWith fun printed e f' h => ?_
    cases v with
    | text s => cases h
    | _ =>
      cases h
      exact tolerable_showing (fun _ => .argumentNotText (by simp) (by simp)) _
  | readFile =>
    cases v with
    | text s =>
      rw [inCall_readFile]
      cases hfile : m.files.readText s with
      | ok u => exact failsOnly_inCall _ (FailsOnly.pure _)
      | error cause =>
        refine failsOnly_inCall _ (FailsBy.fail ?_)
        cases cause with
        | refused fault path => exact fun _ => .unreadable hfile
        | undecodable | nulInPath => rintro ⟨⟩
    | _ =>
      refine FailsBy.inCallWith fun printed e f' h => ?_
      cases h
      exact tolerable_showing (fun _ => .argumentNotText (by simp) (by simp)) _
  | inspect =>
    rw [inCall_inspect]
    refine failsOnly_inCall _ ?_
    cases hv : Evaluation.inspected v with
    | ok s => exact FailsOnly.pure _
    | error e =>
      obtain ⟨rfl, -⟩ := Evaluation.inspected_eq_error hv
      exact FailsBy.fail (tolerable_unwritten v)

/-- Nodes that represent trees of the source run with tolerable failures only. -/
def RunsTolerably (m : Machine) (run : Int → Evaluation.Step Value) : Prop :=
  ∀ t id, t.IsParsed → Represents m.arena.node? (fun _ _ => True) t id →
    FailsBy (Tolerable m) (run id)

theorem failsBy_call (hc : Consistent m) (hrun : RunsTolerably m run) (x : String) (v : Value) :
    FailsBy (Tolerable m) (Evaluation.call m run x v) := by
  unfold Evaluation.call
  cases hget : m.program.get? x with
  | none => exact FailsBy.fail (tolerable_of_interpret rfl)
  | some g =>
    obtain rfl := hc.named x g hget
    obtain ⟨d, hd⟩ := hc.defined _ g hget
    cases hd with
    | @written x ps body is b hps hbody hrep hb =>
      simp only [Evaluation.parameterNames, identifiersAt_eq hrep hps, pure_bind]
      refine failsOnly_liftBind (fun e he => ?_) fun environment _ => ?_
      · obtain ⟨n, rfl, hne⟩ := Evaluation.arguments_eq_error he
        have harity : (Function.lowered x is b).arity = (Direct.names ps).length :=
          hrep.length_eq.symm.trans (Direct.length_names hps).symm
        rw [← harity] at hne ⊢
        exact fun _ => .argumentCount hget hne
      · have hentered := (hrun body b hbody hb).bind fun v => FailsOnly.pure (some v)
        exact (failsOnly_inCall environment hentered).bind fun _ => FailsOnly.pure _
    | intrinsic i =>
      have hnames : Evaluation.parameterNames m (functionOf i) = pure [nativeParameter] := by
        cases i <;> rfl
      have harity : (functionOf i).arity = [nativeParameter].length := by cases i <;> rfl
      simp only [hnames, pure_bind]
      refine failsOnly_liftBind (fun e he => ?_) fun environment he => ?_
      · obtain ⟨n, rfl, hne⟩ := Evaluation.arguments_eq_error he
        rw [← harity] at hne ⊢
        exact fun _ => .argumentCount hget hne
      · rw [arguments_singleton he]
        exact (failsBy_native i v).bind fun _ => FailsOnly.pure _

theorem runsTolerably_evaluate (hc : Consistent m) (fuel : Nat) :
    RunsTolerably m (Evaluation.evaluate m fuel) := by
  induction fuel with
  | zero => exact fun _ _ _ _ => FailsBy.outOfFuel
  | succ fuel ih =>
    intro t id ht hrep
    have hparts : ∀ {ts : List (Tree String)} {is : List Int}, (∀ t ∈ ts, t.IsParsed) →
        List.Forall₂ (Represents m.arena.node? fun _ _ => True) ts is →
        ∀ i ∈ is, FailsBy (Tolerable m) (Evaluation.evaluate m fuel i) := by
      intro ts is hts h i hi
      obtain ⟨t, ht, hti⟩ := exists_of_forall₂ h hi
      exact ih t i (hts t ht) hti
    unfold Evaluation.evaluate
    cases hrep with
    | function hid =>
      rw [nodeAt_eq hid, pure_bind]
      exact FailsBy.fail (tolerable_of_interpret rfl)
    | bind _ hid hi _ hvalue =>
      rw [nodeAt_eq hid, pure_bind]
      simp only [nodeAt_eq hi, pure_bind]
      cases ht with
      | bind _ _ htv =>
        exact (ih _ _ htv hvalue).bind fun v => (FailsOnly.modify _).bind fun _ => FailsOnly.pure _
    | block hid hts =>
      rw [nodeAt_eq hid, pure_bind]
      cases ht with
      | block _ hp => exact failsOnly_inSequence (tolerable_of_interpret rfl) (hparts hp hts)
    | identifier hid =>
      rw [nodeAt_eq hid, pure_bind]
      refine (failsOnly_look _).bind fun o => ?_
      cases o with
      | none => exact FailsBy.fail (tolerable_of_interpret rfl)
      | some v => exact FailsOnly.pure v
    | binary hid hl hr =>
      rw [nodeAt_eq hid, pure_bind]
      cases ht with
      | binary _ htl htr =>
        refine (ih _ _ htl hl).bind fun l => (ih _ _ htr hr).bind fun r => ?_
        exact failsOnly_lift fun e => tolerable_operate
    | applyLambda hid hi _ _ _ _ ha =>
      rw [nodeAt_eq hid, pure_bind]
      cases ht with
      | apply _ hta =>
        refine (ih _ _ hta ha).bind fun v => ?_
        simp only [nodeAt_eq hi, pure_bind]
        exact failsBy_call hc ih _ v
    | apply hid hi ha =>
      rw [nodeAt_eq hid, pure_bind]
      cases ht with
      | apply _ hta =>
        refine (ih _ _ hta ha).bind fun v => ?_
        simp only [nodeAt_eq hi, pure_bind]
        exact failsBy_call hc ih _ v
    | number hid | boolean hid | text hid =>
      rw [nodeAt_eq hid, pure_bind]
      exact FailsOnly.pure _
    | tuple hid hts =>
      rw [nodeAt_eq hid, pure_bind]
      cases ht with
      | tuple _ hp => exact (failsOnly_inOrder (hparts hp hts)).bind fun _ => FailsOnly.pure _
    | array hid hts =>
      rw [nodeAt_eq hid, pure_bind]
      cases ht with
      | array hp => exact (failsOnly_inOrder (hparts hp hts)).bind fun _ => FailsOnly.pure _
    | sumType | productType | typeName | functionType | arrayType | unitType => cases ht

/-- The first function of a program is none of the natives. -/
theorem failsBy_runEntry (hc : Consistent m) (fuel : Nat) :
    FailsBy (Tolerable m) (Evaluation.runEntry m fuel) := by
  unfold Evaluation.runEntry
  cases hget : m.program.get? Evaluation.entryName with
  | none => exact FailsBy.fail (tolerable_of_interpret rfl)
  | some g =>
    have hname := hc.named _ g hget
    obtain ⟨d, hd⟩ := hc.defined _ g hget
    cases hd with
    | written hps hbody hrep hb =>
      simp only [Evaluation.parameterNames, identifiersAt_eq hrep hps, pure_bind]
      have hbody := runsTolerably_evaluate hc fuel _ _ hbody hb
      exact failsOnly_inCall _ (hbody.bind fun v => FailsOnly.pure (some v))
    | intrinsic i => cases i <;> exact absurd hname (by decide)

end

/-- A lowered file makes a program, and when it is interpreted, checked or not, an internal failure
is a justified one. -/
theorem internal_failure_justified {source : String} {ts : List (Tree String)} {l : Lowered}
    (hp : parseSource source = .ok ts) (hl : LetLang.lower (.file ts) = .ok l) :
    ∃ p, Program.build l.arena [] = .ok p ∧ ∀ files fuel t t' f,
      Session.interpret l.arena [] files fuel t = .error f t' → f.stage? = some .internal →
        ∃ e, f = .run e ∧ e.Justified p files := by
  obtain ⟨ids, tops, made, h⟩ := exists_image hl
  refine ⟨tableOf tops made, h.build, fun files fuel t t' f hrun hstage => ?_⟩
  have hc := h.consistent (isParsed_of_parseSource hp) files
  rcases Session.interpret_eq_error hrun with ⟨e, hbuild, -⟩ | ⟨p, hbuild, hresult⟩
  · rw [h.build] at hbuild
    cases hbuild
  · obtain rfl := Except.ok.inj (h.build.symm.trans hbuild)
    rcases hresult with ⟨e, he, rfl⟩ | rfl
    · exact ⟨e, rfl, (failsBy_runEntry hc fuel).run he hstage⟩
    · cases hstage

/-- A number is printed without being checked; the failure says so. -/
theorem printed_number_justified : ∃ ts l p t',
    parseSource "let main : ui8 -> unit = \\x => std.print x;" = .ok ts ∧
      LetLang.lower (.file ts) = .ok l ∧ Program.build l.arena [] = .ok p ∧
      Session.interpret l.arena [] .empty 5 ⟨"", []⟩ =
        .error (.run (.argumentNotText "std.print" (.number 3))) t' ∧
      (RunError.argumentNotText "std.print" (.number 3)).Justified p .empty := by
  let main : Tree String :=
    .bind (.identifier "main") (.functionType (.typeName "ui8") (.typeName "unit"))
      (.lambda [.identifier "x"] (.apply (.identifier "std.print") (.identifier "x")))
  have hp : parseSource "let main : ui8 -> unit = \\x => std.print x;" = .ok [main] := by cbv
  obtain ⟨l, t', hl, hrun⟩ : ∃ l t', LetLang.lower (.file [main]) = .ok l ∧
      Session.interpret l.arena [] .empty 5 ⟨"", []⟩ =
        .error (.run (.argumentNotText "std.print" (.number 3))) t' := ⟨_, _, by cbv, by cbv⟩
  obtain ⟨p, hbuild, hjustified⟩ := internal_failure_justified hp hl
  obtain ⟨e, he, hjust⟩ := hjustified .empty 5 _ t' _ hrun rfl
  cases he
  exact ⟨[main], l, p, t', hp, hl, hbuild, hrun, hjust⟩

end Lowering

end LetLang
