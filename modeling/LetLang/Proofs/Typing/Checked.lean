import LetLang.Proofs.Lowering.Correct
import LetLang.Proofs.Session
import LetLang.Proofs.Typing.Algorithm
import LetLang.Proofs.Typing.Flat
import LetLang.Proofs.Typing.Soundness

/-!
# Running checked files

A file that passes the check applies no lambda on the spot, so its program runs as its trees are
evaluated, and what is safe for the trees is safe for the program.
-/

namespace LetLang.Typing

theorem signature?_eq {type : Tree String} {u : Ty} (h : denote type = some u) (x : String)
    (ps : List (Tree String)) (body : Tree String) :
    signature? (.bind (.identifier x) type (.lambda ps body)) = some (x, u) := by
  rw [signature?, h]
  rfl

theorem boundName?_ne_of_last? {Q : Site → Prop} {base : String → Table String Ty}
    {k k' : Table String Ty} {ts : List (Tree String)} (h : DerivesFile Q base k ts k')
    {x : String} (hlast : Table.last? x (ts.filterMap signature?) = none) :
    ∀ t ∈ ts, t.boundName? ≠ some x := by
  induction h with
  | nil => simp
  | cons htype _ _ _ ih =>
    rw [List.filterMap_cons_some (signature?_eq htype _ _ _), Table.last?,
      Option.or_eq_none_iff] at hlast
    refine List.forall_mem_cons.2 ⟨?_, ih hlast.1⟩
    intro hy
    cases hy
    simp at hlast

variable {π : Policy} {functions k k' : Table String Ty} {ts : List (Tree String)}

/-- The last definition of a name that is no native has the type that it declares. -/
theorem definitionTyped_last? (h : DerivesFile (π.Agrees functions) (π.base functions) k ts k')
    (hp : ∀ t ∈ ts, t.IsParsed) {x : String} (hx : ∀ n ∈ Native.standard, n.name ≠ x) :
    Option.Rel (DefinitionTyped π functions x) (Table.last? x (ts.filterMap Direct.definition?))
      (Table.last? x (ts.filterMap signature?)) := by
  induction h with
  | nil => exact .none
  | @cons _ _ _ y type body ps ts a b es htype hes hbody hts ih =>
    obtain ⟨hpt, hps⟩ := List.forall_mem_cons.1 hp
    have hrest := ih hps
    have hdefinition : Direct.definition? (.bind (.identifier y) type (.lambda ps body)) =
        some (y, .written (Direct.names ps) body) := rfl
    rw [List.filterMap_cons_some hdefinition, List.filterMap_cons_some (signature?_eq htype _ _ _),
      Table.last?, Table.last?]
    refine Table.rel_or hrest fun _ hlast => ?_
    split
    · next hy =>
      have hyx : y = x := hy
      subst hyx
      -- no later statement binds the name, so that the sites of this body count
      have hkept : IsKept y ts := ⟨boundName?_ne_of_last? hts hlast, hx⟩
      have hagrees : (fun site => IsKept y ts → π.Agrees functions site) = π.Agrees functions := by
        funext site
        simp [hkept]
      rw [hagrees] at hbody
      cases hpt with
      | bind _ htypes _ =>
        refine .some (.written ?_ hes hbody)
        rintro us rfl
        exact length_ne_one_of_denote htypes htype
    · exact .none

theorem definitionTyped_natives (x : String) :
    Option.Rel (DefinitionTyped π functions x) (Table.last? x Direct.intrinsics)
      (Table.last? x nativeTypes) := by
  have hpairs : List.Forall₂ (fun e f => e.1 = f.1 ∧ DefinitionTyped π functions x e.2 f.2)
      Direct.intrinsics nativeTypes :=
    .cons ⟨rfl, .intrinsic .print⟩ (.cons ⟨rfl, .intrinsic .printLine⟩
      (.cons ⟨rfl, .intrinsic .readFile⟩ (.cons ⟨rfl, .intrinsic .inspect⟩ .nil)))
  exact Table.rel_last? hpairs x

/-- Where the check and the evaluation agree, every name of the program stands for a definition of
its type. -/
theorem worldTyped_of_derivesFile
    (h : DerivesFile (π.Agrees (signatures ts)) (π.base (signatures ts)) k ts k')
    (hp : ∀ t ∈ ts, t.IsParsed) (files : Files) :
    WorldTyped π (signatures ts) ⟨Direct.definitions ts, files⟩ := by
  intro x
  have hnative : Option.Rel (DefinitionTyped π (signatures ts) x) _ _ := definitionTyped_natives x
  have hdefinitions : (Direct.definitions ts).get? x = (Table.last? x Direct.intrinsics).or
      (Table.last? x (ts.filterMap Direct.definition?)) := by
    rw [Direct.definitions, Table.get?_ofList, Table.last?_append]
  have hsignatures : (signatures ts).get? x = (Table.last? x nativeTypes).or
      (Table.last? x (ts.filterMap signature?)) := by
    rw [signatures, Table.get?_ofList, Table.last?_append]
  change Option.Rel _ ((Direct.definitions ts).get? x) _
  rw [hdefinitions, hsignatures]
  refine Table.rel_or hnative fun _ hnone => definitionTyped_last? h hp fun n hn => ?_
  exact Table.last?_eq_none_iff.1 hnone _ (List.mem_map_of_mem hn)

/-- The check and the evaluation agree at all sites of the functions that the program keeps. -/
def Policy.AgreesOn (π : Policy) (ts : List (Tree String)) : Prop :=
  ∃ k, DerivesFile (π.Agrees (signatures ts)) (π.base (signatures ts)) preludeTypes ts k

/-- Agreement is a matter of files that pass the check of a session. -/
theorem Policy.AgreesOn.check {source : String} (hp : parseSource source = .ok ts)
    (h : π.AgreesOn ts) (t : Transcript) : ∃ t', Session.check ts [] t = .ok () t' := by
  obtain ⟨k, hk⟩ := h
  rw [Session.check_eq_ok_iff ofPrelude_nil]
  exact check_file_of_derives (isParsed_of_parseSource hp) hk

/-- Where the predicate asks for nothing, the files that the rules derive are those that pass the
check of a session. -/
theorem session_check_iff_derives {source : String} {l : Lowering.Lowered}
    (hp : parseSource source = .ok ts) (hl : LetLang.lower (.file ts) = .ok l)
    (base : String → Table String Ty) (t : Transcript) :
    (∃ t', Session.check ts [] t = .ok () t') ↔
      ∃ k, DerivesFile (fun _ => True) base preludeTypes ts k := by
  rw [Session.check_eq_ok_iff ofPrelude_nil]
  exact check_file_iff_derives hp hl base

/-- How a run of a file ends where the check and the evaluation agree: with a value of the result
type of the first function, with a failure that the policy allows, or not within the fuel. -/
theorem run_safe {source : String} {l : Lowering.Lowered} {p : Program} {a b : Ty}
    (hp : parseSource source = .ok ts) (hl : LetLang.lower (.file ts) = .ok l)
    (hagrees : π.AgreesOn ts)
    (hmain : (signatures ts).get? Evaluation.entryName = some (.function a b))
    (ha : a.isIntegral = true) (hbuild : Program.build l.arena [] = .ok p) (files : Files)
    (fuel : Nat) {r : Except Halt (Option Value)}
    (hr : (Evaluation.run ⟨l.arena, p, files⟩ fuel).result = r) :
    (∃ v, r = .ok (some v) ∧ v.Fits π.loose b) ∨ (∃ e, r = .error (.failed e) ∧ Allowed π e) ∨
      r = .error .outOfFuel := by
  obtain ⟨k, hk⟩ := hagrees
  obtain ⟨ids, tops, made, himage⟩ := Lowering.exists_image hl
  have hparsed := isParsed_of_parseSource hp
  have htable := himage.build
  rw [hbuild] at htable
  cases htable
  have hflat : ∀ t ∈ ts, t.nesting ≤ 1 := by
    intro t ht
    rw [nesting_of_derivesFile hk hparsed t ht]
    exact Nat.zero_le 1
  have halike := (himage.alike_run hparsed hflat files fuel).2
  have hworld := worldTyped_of_derivesFile hk hparsed files
  have hsafe := safe_runEntry hworld hmain ha fuel ⟨∅, ""⟩ (Policy.EnvTyped.empty fun _ => rfl)
  unfold Direct.run at halike
  rw [hr] at halike
  generalize Direct.runEntry _ fuel _ = result at halike hsafe
  cases hsafe with
  | ok hv =>
    cases r with
    | ok o =>
      have ho : some _ = o := halike
      exact .inl ⟨_, by rw [ho], hv⟩
    | error h => exact halike.elim
  | failed he =>
    cases r with
    | ok o => exact halike.elim
    | error h =>
      have hh : Halt.Alike Direct.anonymous _ h := halike
      cases hh with
      | failed hsame =>
        refine .inr (.inl ⟨_, rfl, ?_⟩)
        cases hsame with
        | same => exact he
        | lambda => exact fun _ => by simp [RunError.stage?]
  | outOfFuel =>
    cases r with
    | ok o => exact halike.elim
    | error h =>
      have hh : Halt.Alike Direct.anonymous _ h := halike
      cases hh
      exact .inr (.inr rfl)

section
variable {source : String} {c : Session.Compiled} {t t₁ t₂ t₃ : Transcript} {a b : Ty}
  {files : Files} {fuel : Nat}

/-- Type preservation: where a variable that is bound in the call at hand is read at the type of its
binding, a name is applied at the type of the definition that the program keeps, and empty arrays
stand at array types of length 0 only, a checked program that is begun with fitting seeds ends with
no value but one of the result type. -/
theorem value_inhabits (hc : Session.compile source true [] t = .ok c t₁)
    (hagrees : Policy.preserving.AgreesOn c.statements)
    (hmain : (signatures c.statements).get? Evaluation.entryName = some (.function a b))
    (ha : a.isIntegral = true) {v : Option Value}
    (hv : Session.interpret c.lowered.arena [] files fuel t₂ = .ok v t₃) :
    ∃ u, v = some u ∧ u.Inhabits b := by
  obtain ⟨hp, hl⟩ := Session.compile_eq_ok hc
  obtain ⟨p, hbuild, hresult⟩ := Session.interpret_eq_ok hv
  have hends := run_safe hp hl hagrees hmain ha hbuild files fuel hresult
  rcases hends with ⟨u, hu, hfits⟩ | ⟨e, he, -⟩ | hout
  · cases hu
    exact ⟨u, rfl, hfits⟩
  · cases he
  · cases hout

/-- A function that calls another one runs with a value of its result type. -/
theorem called_function_runs : ∃ c t v, ∃ t',
    Session.compile "let f : ui8 -> ui8 = \\y => y + 1; let main : ui8 -> ui8 = \\x => f x * x;" true
      [] ⟨"", []⟩ = .ok c t ∧
    Session.interpret c.lowered.arena [] .empty 5 t = .ok v t' ∧
    ∃ u, v = some u ∧ u.Inhabits (.atom .ui8) := by
  let f : Tree String := .bind (.identifier "f") (.functionType (.typeName "ui8") (.typeName "ui8"))
    (.lambda [.identifier "y"] (.binary (.identifier "y") (.number 1) .plus))
  let main : Tree String :=
    .bind (.identifier "main") (.functionType (.typeName "ui8") (.typeName "ui8"))
      (.lambda [.identifier "x"]
        (.binary (.apply (.identifier "f") (.identifier "x")) (.identifier "x") .times))
  obtain ⟨l, t, t', hc, hrun⟩ : ∃ l t t', Session.compile
      "let f : ui8 -> ui8 = \\y => y + 1; let main : ui8 -> ui8 = \\x => f x * x;" true [] ⟨"", []⟩ =
        .ok ⟨[f, main], l⟩ t ∧
      Session.interpret l.arena [] .empty 5 t = .ok (some (.number 12)) t' :=
    ⟨_, _, _, by cbv, by cbv⟩
  have hagrees : Policy.preserving.AgreesOn [f, main] := by
    refine ⟨_, .cons rfl rfl (.binary (by decide) (.identifier rfl ?_) (.numberAs rfl rfl) ?_)
      (.cons rfl rfl (.binary (by decide) (.apply rfl ?_ (.identifier rfl ?_)) (.identifier rfl ?_)
        ?_) .nil)⟩
    · exact fun _ => Policy.sees_some _ _
    · exact fun _ h => absurd h (by decide)
    · exact fun _ => ⟨Policy.sees_some _ _, fun h => absurd h (by decide)⟩
    · exact fun _ => Policy.sees_some _ _
    · exact fun _ => Policy.sees_some _ _
    · exact fun _ h => absurd h (by decide)
  exact ⟨_, t, _, t', hc, hrun, value_inhabits hc hagrees rfl rfl hrun⟩

/-- The source text compiles, its first function can be begun with seeds, and it ends with something
else than a value of the result type. -/
def ChangesType (source : String) : Prop :=
  ∃ c t a b v t', Session.compile source true [] ⟨"", []⟩ = .ok c t ∧
    (signatures c.statements).get? Evaluation.entryName = some (.function a b) ∧
    a.isIntegral = true ∧ Session.interpret c.lowered.arena [] .empty 9 t = .ok v t' ∧
    ¬ ∃ u, v = some u ∧ u.Inhabits b

/-- Each agreement is needed: a variable is rebound while its binding still reads the old value, a
call reaches the definition that was given after its check, and an empty array has every type. -/
theorem preservation_needs_agreement :
    ChangesType "let main : ui8 -> string = \\x => \x7b let x : string = x; x \x7d;" ∧
    ChangesType ("let f : ui8 -> ui8 = \\x => x; let main : ui8 -> ui8 = \\x => f x; " ++
      "let f : ui8 -> string = \\x => \"a\";") ∧
    ChangesType "let main : ui8 -> ui8 = \\x => [];" := by
  refine ⟨⟨_, _, _, _, some (.number 3), _, by cbv, by cbv, by cbv, by cbv, ?_⟩,
    ⟨_, _, _, _, some (.text "a"), _, by cbv, by cbv, by cbv, by cbv, ?_⟩,
    ⟨_, _, _, _, some (.array []), _, by cbv, by cbv, by cbv, by cbv, ?_⟩⟩
  · rintro ⟨u, hu, hinhabits⟩
    cases hu
    cases hinhabits with
    | number hk => cases hk
  · rintro ⟨u, hu, hinhabits⟩
    cases hu
    cases hinhabits
  · rintro ⟨u, hu, hinhabits⟩
    cases hu
    cases hinhabits with
    | empty hempty => cases hempty

/-- Checked programs do not get stuck: where every variable that is read is bound in the call at
hand at the type that the check gives it, every name that is applied has a definition of its type,
no function is bound inside another one, and sums, products and positions are of integer types, a
checked program that is begun with fitting seeds does not fail as a program. -/
theorem interpret_not_stuck {functionsBound : Bool}
    (hc : Session.compile source true [] t = .ok c t₁)
    (hagrees : (Policy.progressing functionsBound).AgreesOn c.statements)
    (hmain : (signatures c.statements).get? Evaluation.entryName = some (.function a b))
    (ha : a.isIntegral = true) {f : Failure}
    (hf : Session.interpret c.lowered.arena [] files fuel t₂ = .error f t₃) :
    f.stage? ≠ some .interpret := by
  obtain ⟨hp, hl⟩ := Session.compile_eq_ok hc
  rcases Session.interpret_eq_error hf with ⟨e, he, -⟩ | ⟨p, hbuild, ⟨e, hresult, rfl⟩ | rfl⟩
  · obtain ⟨ids, tops, made, himage⟩ := Lowering.exists_image hl
    rw [himage.build] at he
    cases he
  · have hends := run_safe hp hl hagrees hmain ha hbuild files fuel hresult
    rcases hends with ⟨u, hu, -⟩ | ⟨e', he, hallowed⟩ | hout
    · cases hu
    · cases he
      exact hallowed rfl
    · cases hout
  · simp [Failure.stage?]

/-- A position outside of an array is a failure, but not one of the program. -/
theorem outside_position_fails : ∃ c t f, ∃ t',
    Session.compile "let main : ui8 -> ui8 = \\x => [x, x] !! 5;" true [] ⟨"", []⟩ = .ok c t ∧
    Session.interpret c.lowered.arena [] .empty 5 t = .error f t' ∧
    f.stage? ≠ some .interpret := by
  let main : Tree String :=
    .bind (.identifier "main") (.functionType (.typeName "ui8") (.typeName "ui8"))
      (.lambda [.identifier "x"]
        (.binary (.array [.identifier "x", .identifier "x"]) (.number 5) .index))
  obtain ⟨l, t, t', hc, hrun⟩ : ∃ l t t', Session.compile
      "let main : ui8 -> ui8 = \\x => [x, x] !! 5;" true [] ⟨"", []⟩ = .ok ⟨[main], l⟩ t ∧
      Session.interpret l.arena [] .empty 5 t = .error (.run (.indexOutOfBounds 5 2)) t' :=
    ⟨_, _, _, by cbv, by cbv⟩
  have hagrees : (Policy.progressing true).AgreesOn [main] := by
    refine ⟨_, .cons rfl rfl (.index (.array rfl (.cons (.identifier rfl ?_)
      (.cons (.identifier rfl ?_) .nil)) (by simp)) (.numberAs rfl rfl) ?_) .nil⟩
    · exact fun _ => Policy.sees_some _ _
    · exact fun _ => Policy.sees_some _ _
    · exact fun _ _ => ⟨_, rfl, rfl⟩
  exact ⟨_, t, _, t', hc, hrun, interpret_not_stuck hc hagrees rfl rfl hrun⟩

/-- The source text compiles, its first function can be begun with seeds, and it fails as a
program. -/
def GetsStuck (source : String) : Prop :=
  ∃ c t a b f t', Session.compile source true [] ⟨"", []⟩ = .ok c t ∧
    (signatures c.statements).get? Evaluation.entryName = some (.function a b) ∧
    a.isIntegral = true ∧ Session.interpret c.lowered.arena [] .empty 9 t = .error f t' ∧
    f.stage? = some .interpret

/-- Each agreement is needed: the check knows a parameter of another function, applies a variable
that the table does not hold, binds functions inside of others, takes sums of texts and positions
that are Booleans, and lets an empty array be a number. -/
theorem progress_needs_agreement :
    GetsStuck "let f : ui8 -> ui8 = \\y => y; let main : ui8 -> ui8 = \\x => y;" ∧
    GetsStuck "let main : ui8 -> ui8 = \\x => \x7b let g : ui8 -> ui8 = main; g x \x7d;" ∧
    GetsStuck "let main : ui8 -> ui8 = \\x => \x7b let g : ui8 -> ui8 = \\y => y; x \x7d;" ∧
    GetsStuck "let main : ui8 -> string = \\x => \"a\" + \"b\";" ∧
    GetsStuck "let main : ui8 -> ui8 = \\x => [x] !! true;" ∧
    GetsStuck "let main : ui8 -> ui8 = \\x => [] + x;" :=
  ⟨⟨_, _, _, _, .run (.unknownIdentifier "y"), _, by cbv, by cbv, by cbv, by cbv, rfl⟩,
    ⟨_, _, _, _, .run (.unknownFunction "g"), _, by cbv, by cbv, by cbv, by cbv, rfl⟩,
    ⟨_, _, _, _, .run (.notAnExpression _), _, by cbv, by cbv, by cbv, by cbv, rfl⟩,
    ⟨_, _, _, _, .run (.operands _ _), _, by cbv, by cbv, by cbv, by cbv, rfl⟩,
    ⟨_, _, _, _, .run (.operands _ _), _, by cbv, by cbv, by cbv, by cbv, rfl⟩,
    ⟨_, _, _, _, .run (.operands _ _), _, by cbv, by cbv, by cbv, by cbv, rfl⟩⟩

end

end LetLang.Typing
