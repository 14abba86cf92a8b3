import LetLang.Proofs.Evaluation.Names
import LetLang.Proofs.Lowering.Consistent

/-!
# The order of functions

A file without applied lambdas runs as its trees do, and in these a function is found by its name
only. So neither the order of the functions matters to a run, nor do functions whose names the first
ones do not have.
-/

namespace LetLang

namespace Direct

variable {ts ts' extra : List (Tree String)} {x : String}

/-- A definition is found under the name that the statement binds. -/
theorem map_definition? (hts : ∀ t ∈ ts, t.IsDefinition) :
    (ts.filterMap definition?).map Prod.fst = ts.filterMap Tree.boundName? := by
  rw [List.map_filterMap]
  refine List.filterMap_congr fun t ht => ?_
  obtain ⟨y, type, ps, body, rfl⟩ := hts t ht
  rfl

theorem get?_definitions (ts : List (Tree String)) (x : String) :
    (definitions ts).get? x =
      (Table.last? x intrinsics).or (Table.last? x (ts.filterMap definition?)) := by
  rw [definitions, Table.get?_ofList, Table.last?_append]

/-- What a name stands for depends neither on the order of the definitions nor on definitions of
other names. -/
theorem get?_definitions_of_perm (hts' : ∀ t ∈ ts', t.IsDefinition)
    (hnames : (ts'.filterMap Tree.boundName?).Nodup) (hperm : ts'.Perm (ts ++ extra))
    (hx : ∀ t ∈ extra, t.boundName? ≠ some x) :
    (definitions ts).get? x = (definitions ts').get? x := by
  have hnodup : ((ts'.filterMap definition?).map Prod.fst).Nodup := by
    rw [map_definition? hts']
    exact hnames
  have hnone : Table.last? x (extra.filterMap definition?) = none := by
    rw [Table.last?_eq_none_iff]
    rintro ⟨y, d⟩ he rfl
    obtain ⟨t, ht, hd⟩ := List.mem_filterMap.1 he
    obtain ⟨z, type, ps, body, rfl⟩ :=
      hts' t (hperm.mem_iff.2 (List.mem_append_right _ ht))
    cases hd
    exact hx _ ht rfl
  have hlast := Table.last?_eq_of_perm (hperm.filterMap definition?) hnodup x
  rw [List.filterMap_append, Table.last?_append, hnone, Option.none_or] at hlast
  rw [get?_definitions, get?_definitions, hlast]

/-- The first function and the names of some trees. -/
def NamesOf (ts : List (Tree String)) (x : String) : Prop :=
  x = Evaluation.entryName ∨ ∃ t ∈ ts, x ∈ t.identifiers

theorem uses_of_get?_definitions {ps : List String} {body : Tree String}
    (h : (definitions ts).get? x = some (.written ps body)) : Uses (NamesOf ts) body := by
  rw [get?_definitions, Option.or_eq_some_iff] at h
  rcases h with h | ⟨-, h⟩
  · have hmem := Table.mem_of_last?_eq_some h
    simp [intrinsics] at hmem
  · obtain ⟨t, ht, hd⟩ := List.mem_filterMap.1 (Table.mem_of_last?_eq_some h)
    intro y hy
    unfold definition? at hd
    split at hd
    · cases hd
      refine .inr ⟨_, ht, ?_⟩
      exact List.mem_append_right _ (List.mem_append_right _ hy)
    · cases hd

/-- Moving definitions, and adding ones of other names, leaves the run of the trees as it is. -/
theorem run_of_perm (hts' : ∀ t ∈ ts', t.IsDefinition)
    (hnames : (ts'.filterMap Tree.boundName?).Nodup) (hperm : ts'.Perm (ts ++ extra))
    (hextra : ∀ t ∈ extra, ∀ x, t.boundName? = some x → ¬ NamesOf ts x) (files : Files)
    (fuel : Nat) : run ts files fuel = run ts' files fuel := by
  have hfound : ∀ x, NamesOf ts x → (definitions ts).get? x = (definitions ts').get? x := by
    intro x hx
    exact get?_definitions_of_perm hts' hnames hperm fun t ht hbound => hextra t ht x hbound hx
  have hworld : World.SameOn (NamesOf ts) ⟨definitions ts, files⟩ ⟨definitions ts', files⟩ :=
    ⟨rfl, hfound, fun x ps body _ h => uses_of_get?_definitions h⟩
  exact run_eq_of_sameOn hworld (.inl rfl) fuel

end Direct

/-- Both sessions end with the same value or the same failure, and print the same. What they note
may differ. -/
def Session.SameOutcome {α : Type} (s s' : Session α) : Prop :=
  s.outcome.1 = s'.outcome.1 ∧ s.outcome.2.printed = s'.outcome.2.printed

namespace Lowering

open Evaluation (Machine)

variable {ts : List (Tree String)} {l : Lowered} {ids : List Int} {tops made : List Function}

theorem IsImage.made_eq_nil (h : IsImage ts l ids tops made) (hflat : ∀ t ∈ ts, t.nesting = 0) :
    made = [] := by
  have hnesting : Tree.nestingAll ts = 0 :=
    Nat.le_zero.1 (Tree.nestingAll_le_iff.2 fun t ht => Nat.le_of_eq (hflat t ht))
  have hnames := h.madeNames
  rw [(numbered_liftingsAll ts).none hnesting 0] at hnames
  exact List.map_eq_nil_iff.1 hnames

/-- Without applied lambdas there is no function of a made name. -/
theorem IsImage.get?_liftedName (h : IsImage ts l ids tops made) (hts : ∀ t ∈ ts, t.IsParsed)
    (hflat : ∀ t ∈ ts, t.nesting = 0) (k : Nat) :
    (tableOf tops made).get? (liftedName k) = none := by
  rw [Option.eq_none_iff_forall_ne_some]
  intro g hg
  obtain ⟨hname, hmem⟩ := mem_of_get?_tableOf hg
  rw [h.made_eq_nil hflat, List.append_nil, List.mem_append] at hmem
  rcases hmem with htop | hnative
  · have hbound := List.mem_map_of_mem (f := some ∘ Function.name) htop
    rw [h.topNames, List.mem_map] at hbound
    obtain ⟨t, ht, hbound⟩ := hbound
    have hword := isName_of_boundName? (hts t ht) hbound
    exact liftedName_ne_of_hash_not_mem hword.hash_not_mem k hname.symm
  · have hplain : '#' ∉ g.name.toList := by
      simp only [Program.standardFunctions, List.mem_cons, List.not_mem_nil, or_false] at hnative
      rcases hnative with rfl | rfl | rfl | rfl <;> decide
    exact liftedName_ne_of_hash_not_mem hplain k hname.symm

/-- Without applied lambdas the program runs as the trees do, up to the words of failures. -/
theorem IsImage.run_eq (h : IsImage ts l ids tops made) (hts : ∀ t ∈ ts, t.IsParsed)
    (hflat : ∀ t ∈ ts, t.nesting = 0) (files : Files) (fuel : Nat) :
    Evaluation.run ⟨l.arena, tableOf tops made, files⟩ fuel = Direct.run ts files fuel := by
  obtain ⟨hprinted, hresult⟩ := h.alike_run hts (fun t ht => by simp [hflat t ht]) files fuel
  have hfailed : ∀ k m n, (Evaluation.run ⟨l.arena, tableOf tops made, files⟩ fuel).result ≠
      .error (.failed (.argumentCount (liftedName k) m n)) := by
    intro k m n he
    have htolerable := (failsBy_runEntry (h.consistent hts files) fuel).run he rfl
    generalize hname : liftedName k = x at htolerable
    cases htolerable with
    | argumentCount hget =>
      rw [← hname, h.get?_liftedName hts hflat] at hget
      cases hget
  generalize Direct.run ts files fuel = o, Evaluation.run ⟨l.arena, tableOf tops made, files⟩ fuel =
    o' at *
  obtain ⟨result, printed⟩ := o
  obtain ⟨result', printed'⟩ := o'
  cases hprinted
  have hsame : result' = result := by
    cases result with
    | ok v =>
      cases result' with
      | ok v' => exact congrArg Except.ok hresult.symm
      | error e => exact hresult.elim
    | error e =>
      cases result' with
      | ok v' => exact hresult.elim
      | error e' =>
        cases hresult with
        | outOfFuel => rfl
        | failed hfail =>
          cases hfail with
          | same => rfl
          | lambda k m n => exact absurd rfl (hfailed k m n)
  rw [hsame]

theorem sameOutcome_interpret {a a' : Arena Node} {p p' : Program} {files : Files} {fuel : Nat}
    (hp : Program.build a [] = .ok p) (hp' : Program.build a' [] = .ok p')
    (hrun : Evaluation.run ⟨a, p, files⟩ fuel = Evaluation.run ⟨a', p', files⟩ fuel) :
    Session.SameOutcome (Session.interpret a [] files fuel)
      (Session.interpret a' [] files fuel) := by
  have hpure : ∀ q : Program, Session.lift Failure.program (.ok q) = pure q := fun _ => rfl
  simp only [Session.interpret, hp, hp', hpure, pure_bind, hrun]
  generalize Evaluation.run ⟨a', p', files⟩ fuel = o
  obtain ⟨result, printed⟩ := o
  cases result with
  | ok v => exact ⟨rfl, rfl⟩
  | error e => cases e <;> exact ⟨rfl, rfl⟩

/-- Let a second file without applied lambdas have the functions of the first one, in any order, and
further functions with names that the first one does not have, where no two functions have one name.
Then both files make programs, and interpreting these gives the same value or the same failure and
prints the same, for any fuel. -/
theorem interpret_of_reordered {source source' : String} {ts' extra : List (Tree String)}
    {l' : Lowered} (hp : parseSource source = .ok ts) (hp' : parseSource source' = .ok ts')
    (hl : LetLang.lower (.file ts) = .ok l) (hl' : LetLang.lower (.file ts') = .ok l')
    (hflat : ∀ t ∈ ts', t.nesting = 0) (hnames : (ts'.filterMap Tree.boundName?).Nodup)
    (hperm : ts'.Perm (ts ++ extra))
    (hextra : ∀ t ∈ extra, ∀ x, t.boundName? = some x →
      x ≠ Evaluation.entryName ∧ ∀ u ∈ ts, x ∉ u.identifiers) :
    (∃ p, Program.build l.arena [] = .ok p) ∧ (∃ p, Program.build l'.arena [] = .ok p) ∧
      ∀ files fuel, Session.SameOutcome (Session.interpret l.arena [] files fuel)
        (Session.interpret l'.arena [] files fuel) := by
  obtain ⟨ids, tops, made, h⟩ := exists_image hl
  obtain ⟨ids', tops', made', h'⟩ := exists_image hl'
  have hkept : ∀ t ∈ ts, t ∈ ts' :=
    fun t ht => hperm.mem_iff.2 (List.mem_append_left extra ht)
  have hother : ∀ t ∈ extra, ∀ x, t.boundName? = some x → ¬ Direct.NamesOf ts x := by
    rintro t ht x hbound (hmain | ⟨u, hu, hx⟩)
    · exact (hextra t ht x hbound).1 hmain
    · exact (hextra t ht x hbound).2 u hu hx
  refine ⟨⟨_, h.build⟩, ⟨_, h'.build⟩, fun files fuel => sameOutcome_interpret h.build h'.build ?_⟩
  calc
    Evaluation.run ⟨l.arena, tableOf tops made, files⟩ fuel = Direct.run ts files fuel :=
      h.run_eq (isParsed_of_parseSource hp) (fun t ht => hflat t (hkept t ht)) files fuel
    _ = Direct.run ts' files fuel :=
      Direct.run_of_perm h'.definitions hnames hperm hother files fuel
    _ = Evaluation.run ⟨l'.arena, tableOf tops' made', files⟩ fuel :=
      (h'.run_eq (isParsed_of_parseSource hp') hflat files fuel).symm

/-- Three functions, with the first one last and one that is never called, do what two did. -/
theorem reversed_functions_interpreted :
    ∃ ts ts' l l', parseSource "let main : t -> t = \\x => f x; let f : t -> t = \\y => y + 1;" =
        .ok ts ∧
      parseSource
          "let g : t -> t = \\z => z; let f : t -> t = \\y => y + 1; let main : t -> t = \\x => f x;"
        = .ok ts' ∧
      LetLang.lower (.file ts) = .ok l ∧ LetLang.lower (.file ts') = .ok l' ∧
      (Session.interpret l.arena [] .empty 5).outcome.1 = .ok (some (.number 4)) ∧
      (Session.interpret l'.arena [] .empty 5).outcome.1 = .ok (some (.number 4)) := by
  let type : Tree String := .functionType (.typeName "t") (.typeName "t")
  let main : Tree String := .bind (.identifier "main") type
    (.lambda [.identifier "x"] (.apply (.identifier "f") (.identifier "x")))
  let f : Tree String := .bind (.identifier "f") type
    (.lambda [.identifier "y"] (.binary (.identifier "y") (.number 1) .plus))
  let g : Tree String := .bind (.identifier "g") type (.lambda [.identifier "z"] (.identifier "z"))
  have hp : parseSource "let main : t -> t = \\x => f x; let f : t -> t = \\y => y + 1;" =
      .ok [main, f] := by cbv
  have hp' : parseSource
      "let g : t -> t = \\z => z; let f : t -> t = \\y => y + 1; let main : t -> t = \\x => f x;" =
        .ok [g, f, main] := by cbv
  obtain ⟨l, hl, hrun⟩ : ∃ l, LetLang.lower (.file [main, f]) = .ok l ∧
      (Session.interpret l.arena [] .empty 5).outcome.1 = .ok (some (.number 4)) :=
    ⟨_, by cbv, by cbv⟩
  obtain ⟨l', hl'⟩ : ∃ l', LetLang.lower (.file [g, f, main]) = .ok l' := ⟨_, by cbv⟩
  have hperm : [g, f, main].Perm ([main, f] ++ [g]) := List.reverse_perm [main, f, g]
  have hextra : ∀ t ∈ [g], ∀ x, t.boundName? = some x →
      x ≠ Evaluation.entryName ∧ ∀ u ∈ [main, f], x ∉ u.identifiers := by
    intro t ht x hx
    cases List.mem_singleton.1 ht
    cases hx
    decide
  obtain ⟨-, -, hsame⟩ := interpret_of_reordered hp hp' hl hl' (by decide) (by decide) hperm hextra
  exact ⟨_, _, l, l', hp, hp', hl, hl', hrun, (hsame .empty 5).1.symm.trans hrun⟩

end Lowering

end LetLang
