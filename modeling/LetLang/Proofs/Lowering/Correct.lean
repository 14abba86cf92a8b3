import LetLang.Proofs.Evaluation.Fuel
import LetLang.Proofs.Evaluation.Reading
import LetLang.Proofs.Evaluation.Simulation
import LetLang.Proofs.Lowering.Naming

/-!
# Lowering preserves meaning

A node that represents a tree is evaluated as the tree is. With the same fuel both evaluations end
alike, so one ends if and only if the other does.
-/

namespace LetLang.Lowering

open Evaluation (Machine nodeAt_eq identifiersAt SameNames Alike ResultsAlike Outcome Ends Diverges)
open Direct (World Definition Intrinsic)

def functionOf : Intrinsic → Function
  | .print => .native "std.print" [nativeParameter] .print
  | .printLine => .native "std.println" [nativeParameter] .printLine
  | .readFile => .native "std.read" [nativeParameter] .readFile
  | .inspect => .native "std.to_string" [nativeParameter] .inspect

/-- A definition of the source and a function of the program mean the same. -/
inductive Matches (nodes : Int → Option Node) (R : String → Int → Prop) :
    Definition → Function → Prop
  | written {x : String} {ps : List (Tree String)} {body : Tree String} {is : List Int} {b : Int} :
      (∀ p ∈ ps, p.IsParameter) → body.IsParsed → List.Forall₂ (Represents nodes R) ps is →
      Represents nodes R body b →
      Matches nodes R (.written (Direct.names ps) body) (.lowered x is b)
  | intrinsic (i : Intrinsic) : Matches nodes R (.intrinsic i) (functionOf i)

/-- Trees are evaluated in `w` as the nodes that represent them are in `m`. -/
structure Corresponds (w : World) (m : Machine) : Prop where
  files : w.files = m.files
  found : ∀ x : String, '#' ∉ x.toList →
    Option.Rel (Matches m.arena.node? (Resolves m.program m.arena)) (w.definitions.get? x)
      (m.program.get? x)
  named : ∀ x g, m.program.get? x = some g → g.name = x

theorem identifiersAt_of_identifiers {m : Machine} {R : String → Int → Prop}
    {ps : List (Tree String)} {is : List Int}
    (h : List.Forall₂ (Represents m.arena.node? R) ps is)
    (hps : ∀ p ∈ ps, ∃ n, p = .identifier n) (x : String) :
    identifiersAt m x is = pure (Direct.names ps) := by
  induction h with
  | nil => rfl
  | cons hp _ ih =>
    obtain ⟨⟨n, rfl⟩, hrest⟩ := List.forall_mem_cons.1 hps
    cases hp with
    | identifier hid =>
      rw [identifiersAt, nodeAt_eq hid, pure_bind, ih hrest]
      rfl

theorem identifiersAt_eq {m : Machine} {R : String → Int → Prop} {ps : List (Tree String)}
    {is : List Int} (h : List.Forall₂ (Represents m.arena.node? R) ps is)
    (hps : ∀ p ∈ ps, p.IsParameter) (x : String) :
    identifiersAt m x is = pure (Direct.names ps) :=
  identifiersAt_of_identifiers h (fun p hp => (hps p hp).imp fun _ hn => hn.1) x

theorem arguments_eq (x : String) (ps : List String) (v : Value) :
    Direct.arguments x ps v = Evaluation.arguments x ps v := by
  have hwhole : ∀ u, (if ps.length = [u].length then .ok (.ofList (ps.zip [u]))
      else .error (.argumentCount x ps.length [u].length)) = Evaluation.arguments.whole x ps u := by
    intro u
    unfold Evaluation.arguments.whole
    match ps with
    | [] => rfl
    | [p] => rfl
    | p :: q :: ps => simp
  cases v with
  | tuple vs =>
    match vs with
    | [] => rfl
    | [u] => exact hwhole _
    | _ :: _ :: _ => rfl
  | _ => exact hwhole _

theorem spread_eq_singleton {v : Value} (h : (Direct.spread v).length = 1) :
    Direct.spread v = [v] := by
  cases v with
  | tuple vs =>
    match vs with
    | [] => cases h
    | [u] => rfl
    | _ :: _ :: _ => cases h
  | _ => rfl

theorem alike_arguments {x y : String} (hxy : x = y ∨ x = Direct.anonymous ∧ ∃ k, y = liftedName k)
    (ps : List String) (v : Value) :
    Alike Direct.anonymous Eq (Evaluation.lift (Direct.arguments x ps v))
      (Evaluation.lift (Evaluation.arguments y ps v)) := by
  rcases hxy with rfl | ⟨rfl, k, rfl⟩
  · rw [arguments_eq]
    exact Alike.liftSame _
  · rw [← arguments_eq]
    unfold Direct.arguments
    dsimp only
    split
    · exact Alike.liftSame _
    · exact Alike.fail (.lambda _ _ _)

theorem perform_readFile (files : Files) (s : String) :
    Direct.perform files .readFile (.text s) =
      match files.readText s with
      | .ok u => pure (.text u)
      | .error e => Evaluation.fail (.unreadable s e) := rfl

theorem perform_inspect (files : Files) (v : Value) :
    Direct.perform files .inspect v =
      (do return .text (← Evaluation.lift (Evaluation.inspected v))) := rfl

theorem inCall_readFile (m : Machine) (run : Int → Evaluation.Step Value) (s : String) :
    Evaluation.inCall (.ofList [(nativeParameter, .text s)])
      (Evaluation.enter m run (functionOf .readFile)) =
      Evaluation.inCall (.ofList [(nativeParameter, .text s)])
        (match m.files.readText s with
        | .ok u => pure (some (.text u))
        | .error e => Evaluation.fail (.unreadable s e)) := rfl

theorem inCall_inspect (m : Machine) (run : Int → Evaluation.Step Value) (v : Value) :
    Evaluation.inCall (.ofList [(nativeParameter, v)])
      (Evaluation.enter m run (functionOf .inspect)) =
      Evaluation.inCall (.ofList [(nativeParameter, v)])
        (do return some (.text (← Evaluation.lift (Evaluation.inspected v)))) := rfl

theorem alike_perform {w : World} {m : Machine} (hfiles : w.files = m.files) (i : Intrinsic)
    (run : Int → Evaluation.Step Value) (v : Value) :
    Alike Direct.anonymous Eq (Direct.perform w.files i v)
      (do return (← Evaluation.inCall (.ofList [(nativeParameter, v)])
        (Evaluation.enter m run (functionOf i))).getD .void) := by
  rw [hfiles]
  cases i with
  | print =>
    cases v with
    | text s => exact (Alike.print s).bindSame fun _ => .pure rfl
    | _ => exact Alike.failSame _
  | printLine =>
    cases v with
    | text s => exact (Alike.print (s ++ "\n")).bindSame fun _ => .pure rfl
    | _ => exact Alike.failSame _
  | readFile =>
    cases v with
    | text s =>
      rw [perform_readFile, inCall_readFile]
      cases m.files.readText s with
      | ok u => exact Alike.pure rfl
      | error e => exact Alike.failSame _
    | _ => exact Alike.failSame _
  | inspect =>
    rw [perform_inspect, inCall_inspect]
    cases Evaluation.inspected v with
    | ok s => exact Alike.pure rfl
    | error e => exact Alike.failSame _

section
variable {w : World} {m : Machine} {run : Tree String → Evaluation.Step Value}
  {run' : Int → Evaluation.Step Value}

/-- The evaluations of trees and of the nodes that represent them end alike. -/
def RunsAlike (m : Machine) (run : Tree String → Evaluation.Step Value)
    (run' : Int → Evaluation.Step Value) : Prop :=
  ∀ t id, t.IsParsed → Represents m.arena.node? (Resolves m.program m.arena) t id →
    Alike Direct.anonymous Eq (run t) (run' id)

theorem alike_call_of_lowered (hrun : RunsAlike m run run') {x y : String}
    (hxy : x = y ∨ x = Direct.anonymous ∧ ∃ k, y = liftedName k) {ps : List (Tree String)}
    {body : Tree String} {is : List Int} {b : Int}
    (hget : m.program.get? y = some (.lowered y is b)) (hps : ∀ p ∈ ps, p.IsParameter)
    (hbody : body.IsParsed)
    (hrep : List.Forall₂ (Represents m.arena.node? (Resolves m.program m.arena)) ps is)
    (hb : Represents m.arena.node? (Resolves m.program m.arena) body b) (v : Value) :
    Alike Direct.anonymous Eq (Direct.apply w run x (.written (Direct.names ps) body) v)
      (Evaluation.call m run' y v) := by
  unfold Evaluation.call
  simp only [hget, Evaluation.parameterNames, identifiersAt_eq hrep hps, pure_bind]
  refine (alike_arguments hxy _ v).bindSame fun e => ?_
  have hbody := (hrun body b hbody hb).mapRight (W := fun u o => o = some u) (k := some)
    fun u u' h => by rw [h]
  exact (Alike.inCall (SameNames.refl e) hbody).mapRight fun u o h => by rw [h]; rfl

theorem alike_call_of_intrinsic (hfiles : w.files = m.files) (i : Intrinsic)
    (hget : m.program.get? (functionOf i).name = some (functionOf i)) (v : Value) :
    Alike Direct.anonymous Eq (Direct.apply w run (functionOf i).name (.intrinsic i) v)
      (Evaluation.call m run' (functionOf i).name v) := by
  unfold Evaluation.call
  have hnames : Evaluation.parameterNames m (functionOf i) = pure [nativeParameter] := by
    cases i <;> rfl
  simp only [hget, hnames, pure_bind, ← arguments_eq]
  unfold Direct.apply Direct.arguments
  have hone : [nativeParameter].length = (Direct.spread v).length ↔ (Direct.spread v).length = 1 :=
    eq_comm
  simp only [hone]
  split
  · next h =>
    rw [spread_eq_singleton h]
    exact alike_perform hfiles i run' v
  · exact Alike.failSame _

/-- Names of the source are applied alike. -/
theorem alike_call (hc : Corresponds w m) (hrun : RunsAlike m run run') {x : String}
    (hx : '#' ∉ x.toList) (v : Value) :
    Alike Direct.anonymous Eq
      (match w.definitions.get? x with
        | none => Evaluation.fail (.unknownFunction x)
        | some d => Direct.apply w run x d v)
      (Evaluation.call m run' x v) := by
  have hfound := hc.found x hx
  cases hd : w.definitions.get? x <;> cases hg : m.program.get? x <;> rw [hd, hg] at hfound <;>
    cases hfound
  · unfold Evaluation.call
    simp only [hg]
    exact Alike.failSame _
  next d g hmatch =>
  have hname := hc.named x g hg
  cases hmatch with
  | written hps hbody hrep hb =>
    cases hname
    exact alike_call_of_lowered hrun (.inl rfl) hg hps hbody hrep hb v
  | intrinsic i =>
    cases hname
    exact alike_call_of_intrinsic hc.files i hg v

theorem forall₂_alike (hrun : RunsAlike m run run') {ts : List (Tree String)} {is : List Int}
    (hts : ∀ t ∈ ts, t.IsParsed)
    (h : List.Forall₂ (Represents m.arena.node? (Resolves m.program m.arena)) ts is) :
    List.Forall₂ (fun t i => Alike Direct.anonymous Eq (run t) (run' i)) ts is := by
  induction h with
  | nil => exact .nil
  | cons ht _ ih =>
    obtain ⟨hp, hps⟩ := List.forall_mem_cons.1 hts
    exact .cons (hrun _ _ hp ht) (ih hps)

end

/-- With the same fuel, a tree and a node that represents it are evaluated alike. -/
theorem alike_evaluate {w : World} {m : Machine} (hc : Corresponds w m) (fuel : Nat) :
    RunsAlike m (Direct.evaluate w fuel) (Evaluation.evaluate m fuel) := by
  induction fuel with
  | zero => exact fun _ _ _ _ => Alike.outOfFuel
  | succ fuel ih =>
    intro t id ht hrep
    unfold Evaluation.evaluate
    cases hrep with
    | function hid =>
      rw [nodeAt_eq hid, pure_bind]
      exact Alike.failSame _
    | bind hv hid hi _ hvalue =>
      rw [nodeAt_eq hid, pure_bind, Direct.evaluate, Direct.step]
      · simp only [nodeAt_eq hi, pure_bind]
        cases ht with
        | bind _ _ htv =>
          refine (ih _ _ htv hvalue).bindSame fun v => ?_
          exact (Alike.bindName _ v).bindSame fun _ => Alike.pure rfl
      · exact hv
    | block hid hts =>
      rw [nodeAt_eq hid, pure_bind]
      cases ht with
      | block _ hp => exact Alike.inSequence (forall₂_alike ih hp hts)
    | identifier hid =>
      rw [nodeAt_eq hid, pure_bind]
      cases ht with
      | identifier hx =>
        refine (Alike.look hx.hash_not_mem).bindSame fun o => ?_
        cases o with
        | none => exact Alike.failSame _
        | some v => exact Alike.pure rfl
    | binary hid hl hr =>
      rw [nodeAt_eq hid, pure_bind]
      cases ht with
      | binary _ htl htr =>
        refine (ih _ _ htl hl).bindSame fun l => ?_
        refine (ih _ _ htr hr).bindSame fun r => ?_
        exact Alike.liftSame _
    | applyLambda hid hi hR hf hps hb ha =>
      rw [nodeAt_eq hid, pure_bind]
      cases ht with
      | apply htf hta =>
      cases htf with
      | lambda htps htb =>
        refine (ih _ _ hta ha).bindSame fun v => ?_
        simp only [nodeAt_eq hi, pure_bind]
        obtain ⟨g, hg, hget⟩ := hR
        have hnode := Arena.function?_eq_some_iff.2 ⟨_, _, _, hf, rfl⟩
        rw [hg, Option.some.injEq] at hnode
        rw [hnode] at hget
        exact alike_call_of_lowered ih (.inr ⟨rfl, _, rfl⟩) hget htps htb hps hb v
    | apply hid hi ha =>
      rw [nodeAt_eq hid, pure_bind]
      cases ht with
      | apply htf hta =>
      cases htf with
      | identifier hx =>
        refine (ih _ _ hta ha).bindSame fun v => ?_
        simp only [nodeAt_eq hi, pure_bind]
        exact alike_call hc ih hx.hash_not_mem v
    | number hid | boolean hid | text hid =>
      rw [nodeAt_eq hid, pure_bind]
      exact Alike.pure rfl
    | tuple hid hts =>
      rw [nodeAt_eq hid, pure_bind]
      cases ht with
      | tuple _ hp =>
        refine (Alike.inOrder (forall₂_alike ih hp hts)).bindSame fun vs => ?_
        exact Alike.pure rfl
    | array hid hts =>
      rw [nodeAt_eq hid, pure_bind]
      cases ht with
      | array hp =>
        refine (Alike.inOrder (forall₂_alike ih hp hts)).bindSame fun vs => ?_
        exact Alike.pure rfl
    | sumType | productType | typeName | functionType | arrayType | unitType => cases ht

section
variable {w : World} {m : Machine}

theorem sameNames_entryEnvironment (hc : Corresponds w m) (ps : List String) :
    SameNames (Direct.entryEnvironment w ps)
      (ps.foldl (fun e x => e.insert x (.number Evaluation.seed))
        (.ofList (m.program.keys.map fun x => (x, .function x)))) := by
  have hfunctions : SameNames (.ofList (w.definitions.keys.map fun x => (x, .function x)))
      (.ofList (m.program.keys.map fun x => (x, .function x))) := by
    intro x hx
    have hfound := hc.found x hx
    rw [Table.get?_ofList_keys, Table.get?_ofList_keys]
    cases hd : w.definitions.get? x <;> cases hg : m.program.get? x <;> rw [hd, hg] at hfound <;>
      cases hfound <;> rfl
  unfold Direct.entryEnvironment
  generalize Table.ofList (w.definitions.keys.map fun x => (x, Value.function x)) = e,
    Table.ofList (m.program.keys.map fun x => (x, Value.function x)) = e' at hfunctions
  induction ps generalizing e e' with
  | nil => exact hfunctions
  | cons x ps ih => exact ih _ _ (hfunctions.insert x _)

theorem alike_runEntry (hc : Corresponds w m) (fuel : Nat) :
    Alike Direct.anonymous (fun v o => o = some v) (Direct.runEntry w fuel)
      (Evaluation.runEntry m fuel) := by
  unfold Direct.runEntry Evaluation.runEntry
  have hfound := hc.found Evaluation.entryName (by decide)
  cases hd : w.definitions.get? Evaluation.entryName <;>
    cases hg : m.program.get? Evaluation.entryName <;> rw [hd, hg] at hfound <;> cases hfound
  · exact Alike.failSame _
  next d g hmatch =>
  cases hmatch with
  | written hps hbody hrep hb =>
    simp only [Evaluation.parameterNames, identifiersAt_eq hrep hps, pure_bind]
    have hrun := (alike_evaluate hc fuel _ _ hbody hb).mapRight (W := fun u o => o = some u)
      (k := some) fun u u' h => by rw [h]
    exact Alike.inCall (sameNames_entryEnvironment hc _) hrun
  | intrinsic i =>
    have hname := hc.named _ _ hg
    cases i <;> exact absurd hname (by decide)

end

section
variable {ts : List (Tree String)} {l : Lowered} {ids : List Int} {tops made : List Function}
  {a : Arena Node} {R : String → Int → Prop}

theorem forall₂_matches (hrep : List.Forall₂ (Represents a.node? R) ts ids)
    (hids : ids.map a.function? = tops.map some) (hts : ∀ t ∈ ts, t.IsParsed)
    (hdef : ∀ t ∈ ts, t.IsDefinition) :
    List.Forall₂ (fun e f => e.1 = f.1 ∧ Matches a.node? R e.2 f.2)
      (ts.filterMap Direct.definition?) (Program.entriesOf tops) := by
  induction hrep generalizing tops with
  | nil =>
    rw [List.map_nil, List.nil_eq, List.map_eq_nil_iff] at hids
    rw [hids]
    exact .nil
  | cons ht _ ih =>
    obtain ⟨hp, hps⟩ := List.forall_mem_cons.1 hts
    obtain ⟨⟨x, type, ps, body, rfl⟩, hds⟩ := List.forall_mem_cons.1 hdef
    obtain ⟨g, gs, rfl, hg, hgs⟩ := List.map_eq_cons_iff.1 hids.symm
    cases ht with
    | bind hne => exact absurd rfl (hne ps body)
    | function hid hrep hb =>
      have hnode := Arena.function?_eq_some_iff.2 ⟨_, _, _, hid, rfl⟩
      rw [← hg, Option.some.injEq] at hnode
      rw [hnode]
      cases hp with
      | bind _ _ hv =>
        cases hv with
        | lambda hparameters hbody =>
          exact .cons ⟨rfl, .written hparameters hbody hrep hb⟩ (ih hgs.symm hps hds)

theorem forall₂_matches_intrinsics (nodes : Int → Option Node) :
    List.Forall₂ (fun e f => e.1 = f.1 ∧ Matches nodes R e.2 f.2) Direct.intrinsics
      (Program.entriesOf Program.standardFunctions) :=
  .cons ⟨rfl, .intrinsic .print⟩ (.cons ⟨rfl, .intrinsic .printLine⟩
    (.cons ⟨rfl, .intrinsic .readFile⟩ (.cons ⟨rfl, .intrinsic .inspect⟩ .nil)))

/-- A made name is not a name of the source, so the functions made of applied lambdas do not come
between those of the statements and the natives. -/
theorem IsImage.get?_tableOf (h : IsImage ts l ids tops made) {x : String}
    (hx : '#' ∉ x.toList) :
    (tableOf tops made).get? x =
      Table.last? x (Program.entriesOf tops ++ Program.entriesOf Program.standardFunctions) := by
  have hmade : Table.last? x (Program.entriesOf made) = none := by
    rw [Table.last?_eq_none_iff]
    intro e he
    obtain ⟨g, hg, rfl⟩ := List.mem_map.1 he
    have hmem := List.mem_map_of_mem (f := Function.name) hg
    rw [h.madeNames, List.mem_map] at hmem
    obtain ⟨k, -, hk⟩ := hmem
    change g.name ≠ x
    rw [← hk]
    exact liftedName_ne_of_hash_not_mem hx k
  rw [tableOf, Table.get?_ofList]
  unfold Program.entriesOf at *
  rw [List.map_append, List.map_append, Table.last?_append, Table.last?_append, hmade,
    Option.none_or, Table.last?_append]

theorem IsImage.corresponds (h : IsImage ts l ids tops made) (hts : ∀ t ∈ ts, t.IsParsed)
    (hflat : ∀ t ∈ ts, t.nesting ≤ 1) (files : Files) :
    Corresponds ⟨Direct.definitions ts, files⟩ ⟨l.arena, tableOf tops made, files⟩ where
  files := rfl
  found x hx := by
    have hrep := (h.represents _ fun f hf g hg => h.resolves hflat hf hg).1
    have hmatches := forall₂_matches hrep h.topsAt hts h.definitions
    change Option.Rel _ ((Direct.definitions ts).get? x) ((tableOf tops made).get? x)
    rw [h.get?_tableOf hx, Direct.definitions, Table.get?_ofList]
    exact Table.rel_last? (List.rel_append hmatches (forall₂_matches_intrinsics _)) x
  named x g hg := by
    change (tableOf tops made).get? x = some g at hg
    rw [tableOf, Table.get?_ofList] at hg
    obtain ⟨g', -, heq⟩ := List.mem_map.1 (Table.mem_of_last?_eq_some hg)
    cases heq
    rfl

/-- With the same fuel, a file and the program made of it run alike. -/
theorem IsImage.alike_run (h : IsImage ts l ids tops made) (hts : ∀ t ∈ ts, t.IsParsed)
    (hflat : ∀ t ∈ ts, t.nesting ≤ 1) (files : Files) (fuel : Nat) :
    (Direct.run ts files fuel).Alike Direct.anonymous
      (Evaluation.run ⟨l.arena, tableOf tops made, files⟩ fuel) := by
  have halike := alike_runEntry (h.corresponds hts hflat files) fuel ⟨∅, ""⟩ ⟨∅, ""⟩
    ⟨SameNames.refl _, rfl⟩
  unfold Direct.run Evaluation.run
  generalize Direct.runEntry _ fuel _ = r, Evaluation.runEntry _ fuel _ = r' at halike
  cases halike with
  | ok hv hfg => exact ⟨hfg.printed, by rw [hv]⟩
  | error hh hfg => exact ⟨hfg.printed, hh⟩

end

/-- Lowering preserves meaning: the lowered file makes a program, and for all files a run of the
program ends as the evaluation of the trees ends, or both go on for ever. -/
theorem lower_preserves_meaning {source : String} {ts : List (Tree String)} {l : Lowered}
    (hp : parseSource source = .ok ts) (hl : LetLang.lower (.file ts) = .ok l)
    (hflat : ∀ t ∈ ts, t.nesting ≤ 1) :
    ∃ p, Program.build l.arena [] = .ok p ∧ ∀ files : Files,
      (∀ o, Ends (Direct.run ts files) o →
        ∃ o', Ends (Evaluation.run ⟨l.arena, p, files⟩) o' ∧ o.Alike Direct.anonymous o') ∧
      (∀ o', Ends (Evaluation.run ⟨l.arena, p, files⟩) o' →
        ∃ o, Ends (Direct.run ts files) o ∧ o.Alike Direct.anonymous o') ∧
      (Diverges (Direct.run ts files) ↔ Diverges (Evaluation.run ⟨l.arena, p, files⟩)) := by
  obtain ⟨ids, tops, made, h⟩ := exists_image hl
  refine ⟨tableOf tops made, h.build, fun files => ?_⟩
  have halike := h.alike_run (isParsed_of_parseSource hp) hflat files
  have hfuel := fun o o' => @Outcome.Alike.outOfFuel_iff Direct.anonymous o o'
  have hdirect := Direct.stable_run ts files
  have hrun := Evaluation.stable_run ⟨l.arena, tableOf tops made, files⟩
  constructor
  · exact fun o ho => ho.exists_of_agree hrun halike hfuel
  constructor
  · exact fun o' ho' => ho'.exists_of_agree (V := fun o' o => o.Alike Direct.anonymous o') hdirect
      halike fun o' o h => (hfuel o o' h).symm
  · exact forall_congr' fun fuel => hfuel _ _ (halike fuel)

/-- A run that enters an applied lambda ends with the value that the trees give. -/
theorem applied_lambda_runs :
    ∃ ts l p, parseSource "let main : ui8 -> ui8 = \\x => (\\y => y + 1) x;" = .ok ts ∧
      LetLang.lower (.file ts) = .ok l ∧ (∀ t ∈ ts, t.nesting ≤ 1) ∧
      Program.build l.arena [] = .ok p ∧ ∀ files : Files,
        ∃ o', Ends (Evaluation.run ⟨l.arena, p, files⟩) o' ∧
          (⟨.ok (some (.number 4)), ""⟩ : Outcome).Alike Direct.anonymous o' := by
  let main : Tree String :=
    .bind (.identifier "main") (.functionType (.typeName "ui8") (.typeName "ui8"))
      (.lambda [.identifier "x"] (.apply (.lambda [.identifier "y"]
        (.binary (.identifier "y") (.number 1) .plus)) (.identifier "x")))
  have hp : parseSource "let main : ui8 -> ui8 = \\x => (\\y => y + 1) x;" = .ok [main] := by cbv
  obtain ⟨l, hl⟩ : ∃ l, LetLang.lower (.file [main]) = .ok l := ⟨_, by cbv⟩
  have hflat : ∀ t ∈ [main], t.nesting ≤ 1 := by decide
  obtain ⟨p, hbuild, hmeaning⟩ := lower_preserves_meaning hp hl hflat
  refine ⟨[main], l, p, hp, hl, hflat, hbuild, fun files => (hmeaning files).1 _ ?_⟩
  have hrun : Direct.run [main] files 5 = ⟨.ok (some (.number 4)), ""⟩ := rfl
  rw [← hrun]
  exact (Direct.stable_run [main] files).ends (by rw [hrun]; simp)

end LetLang.Lowering
