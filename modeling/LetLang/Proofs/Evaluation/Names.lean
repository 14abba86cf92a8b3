import LetLang.Proofs.Evaluation.Congruence
import LetLang.Proofs.Evaluation.Direct
import LetLang.Proofs.Table

/-!
# The names that matter to an evaluation

The evaluation of a tree looks up names of the tree, and in a call names of the body that is called.
So two evaluations of one tree end alike if these names are bound alike and stand for the same
definitions. What else there is does not matter.
-/

namespace LetLang

namespace Tree

mutual

/-- The identifiers in a tree, those of parameters and of applied functions among them. -/
def identifiers : Tree String → List String
  | .bind id type value => id.identifiers ++ type.identifiers ++ value.identifiers
  | .identifier name => [name]
  | .binary left right _ => left.identifiers ++ right.identifiers
  | .lambda parameters body => identifiersAll parameters ++ body.identifiers
  | .apply callee argument => callee.identifiers ++ argument.identifiers
  | .functionType source target => source.identifiers ++ target.identifiers
  | .arrayType element _ => element.identifiers
  | .file ts | .tuple ts | .array ts | .block ts | .sumType ts | .productType ts =>
    identifiersAll ts
  | .number _ | .boolean _ | .text _ | .typeName _ | .unitType => []

def identifiersAll : List (Tree String) → List String
  | [] => []
  | t :: ts => t.identifiers ++ identifiersAll ts

end

theorem mem_identifiersAll_iff {ts : List (Tree String)} {x : String} :
    x ∈ identifiersAll ts ↔ ∃ t ∈ ts, x ∈ t.identifiers := by
  induction ts with
  | nil => simp [identifiersAll]
  | cons t ts ih => simp [identifiersAll, ih]

end Tree

namespace Evaluation

variable {N N' : String → Prop} {α β : Type}

/-- The environments bind the names `N` alike. -/
def Environment.SameOn (N : String → Prop) (e e' : Environment) : Prop :=
  ∀ x, N x → e.get? x = e'.get? x

/-- The same was printed, and the names `N` are bound alike. -/
structure Frame.SameOn (N : String → Prop) (f g : Frame) : Prop where
  environment : Environment.SameOn N f.environment g.environment
  printed : f.printed = g.printed

/-- The same value was reached, or the same failure, and the frames bind the names `N` alike. -/
inductive SameResult (N : String → Prop) :
    EStateM.Result Halt Frame α → EStateM.Result Halt Frame α → Prop
  | ok {a : α} {f g : Frame} : f.SameOn N g → SameResult N (.ok a f) (.ok a g)
  | error {h : Halt} {f g : Frame} : f.SameOn N g → SameResult N (.error h f) (.error h g)

/-- From frames that bind the names `N` alike the steps end alike. -/
def SameOn (N : String → Prop) (x y : Step α) : Prop :=
  ∀ f g : Frame, f.SameOn N g → SameResult N (x f) (y g)

theorem Environment.SameOn.insert {e e' : Environment} (h : SameOn N e e') (x : String)
    (v : Value) : SameOn N (e.insert x v) (e'.insert x v) := by
  intro y hy
  rw [Table.get?_insert, Table.get?_insert, h y hy]

namespace SameOn

theorem pure (a : α) : SameOn N (pure a) (pure a) := fun _ _ hfg => .ok hfg

theorem throw (h : Halt) : SameOn N (throw h : Step α) (throw h) := fun _ _ hfg => .error hfg

theorem fail (e : RunError) : SameOn N (fail e : Step α) (fail e) := throw (.failed e)

theorem bind {x y : Step α} {p q : α → Step β} (h : SameOn N x y)
    (hpq : ∀ a, SameOn N (p a) (q a)) : SameOn N (x >>= p) (y >>= q) := by
  intro f g hfg
  have hxy := h f g hfg
  change SameResult N (EStateM.bind x p f) (EStateM.bind y q g)
  unfold EStateM.bind
  generalize x f = r, y g = r' at hxy
  cases hxy with
  | ok hfg' => exact hpq _ _ _ hfg'
  | error hfg' => exact .error hfg'

theorem look {x : String} (hx : N x) : SameOn N (look x) (look x) := by
  intro f g hfg
  have hsame := hfg.environment x hx
  change SameResult N (.ok (f.environment.get? x) f) (.ok (g.environment.get? x) g)
  rw [hsame]
  exact .ok hfg

theorem bindName (x : String) (v : Value) :
    SameOn N (Evaluation.bind x v) (Evaluation.bind x v) :=
  fun _ _ hfg => .ok ⟨hfg.environment.insert x v, hfg.printed⟩

theorem print (s : String) : SameOn N (print s) (print s) :=
  fun _ _ hfg => .ok ⟨hfg.environment, congrArg (· ++ s) hfg.printed⟩

theorem lift (r : Except RunError α) : SameOn N (lift r) (lift r) := by
  cases r with
  | ok a => exact pure a
  | error e => exact fail e

/-- What a call binds is lost when it ends, so other names may matter in it. -/
theorem inCall {e e' : Environment} {x y : Step α} (he : Environment.SameOn N' e e')
    (h : SameOn N' x y) : SameOn N (inCall e x) (inCall e' y) := by
  intro f g hfg
  have hxy := h ⟨e, f.printed⟩ ⟨e', g.printed⟩ ⟨he, hfg.printed⟩
  unfold Evaluation.inCall
  generalize x ⟨e, f.printed⟩ = r, y ⟨e', g.printed⟩ = r' at hxy
  cases hxy with
  | ok hfg' => exact .ok ⟨hfg.environment, hfg'.printed⟩
  | error hfg' => exact .error ⟨hfg.environment, hfg'.printed⟩

theorem congruence : Congruence fun _ => SameOn N where
  pure := pure
  bind := bind

section
variable {ι : Type} {run run' : ι → Step Value}

theorem inSequence {is : List ι} (h : ∀ i ∈ is, SameOn N (run i) (run' i)) :
    SameOn N (inSequence run is) (inSequence run' is) :=
  congruence.inSequence run run' (List.forall₂_same.2 h) (fail _)

theorem inOrder {is : List ι} (h : ∀ i ∈ is, SameOn N (run i) (run' i)) :
    SameOn N (inOrder run is) (inOrder run' is) :=
  congruence.inOrder run run' (List.forall₂_same.2 h)

end

end SameOn

end Evaluation

namespace Direct

open Evaluation (Step SameOn)

variable {N : String → Prop} {w w' : World}

def Uses (N : String → Prop) (t : Tree String) : Prop := ∀ x ∈ t.identifiers, N x

/-- The names `N` stand for the same definitions, and the bodies of these use `N` only. -/
structure World.SameOn (N : String → Prop) (w w' : World) : Prop where
  files : w.files = w'.files
  found : ∀ x, N x → w.definitions.get? x = w'.definitions.get? x
  uses : ∀ x ps body, N x → w.definitions.get? x = some (.written ps body) → Uses N body

theorem uses_of_mem {ts : List (Tree String)} {t : Tree String}
    (h : ∀ x ∈ Tree.identifiersAll ts, N x) (ht : t ∈ ts) : Uses N t :=
  fun x hx => h x (Tree.mem_identifiersAll_iff.2 ⟨t, ht, hx⟩)

theorem sameOn_textFor (i : Intrinsic) (v : Value) : SameOn N (textFor i v) (textFor i v) := by
  cases v with
  | text s => exact .pure s
  | _ => exact .fail _

theorem sameOn_perform (files : Files) (i : Intrinsic) (v : Value) :
    SameOn N (perform files i v) (perform files i v) := by
  cases i with
  | print | printLine =>
    exact (sameOn_textFor _ v).bind fun s => (SameOn.print _).bind fun _ => .pure _
  | readFile =>
    refine (sameOn_textFor _ v).bind fun name => ?_
    cases files.readText name with
    | ok s => exact .pure _
    | error e => exact .fail _
  | inspect => exact (SameOn.lift _).bind fun _ => .pure _

section
variable {run run' : Tree String → Step Value}

theorem sameOn_apply (hfiles : w.files = w'.files)
    (hrun : ∀ t, Uses N t → SameOn N (run t) (run' t)) (x : String) {d : Definition}
    (hd : ∀ ps body, d = .written ps body → Uses N body) (v : Value) :
    SameOn N (apply w run x d v) (apply w' run' x d v) := by
  cases d with
  | written ps body =>
    exact (SameOn.lift _).bind fun e => SameOn.inCall (fun _ _ => rfl) (hrun body (hd ps body rfl))
  | intrinsic i =>
    simp only [apply, hfiles]
    split
    · exact sameOn_perform _ i v
    · exact .fail _

theorem sameOn_step (hw : w.SameOn N w') (hrun : ∀ t, Uses N t → SameOn N (run t) (run' t))
    (t : Tree String) (ht : Uses N t) : SameOn N (step w run t) (step w' run' t) := by
  cases t with
  | bind id type value =>
    cases id with
    | identifier x =>
      cases value with
      | lambda => exact .fail _
      | _ =>
        have hvalue := hrun _ fun y hy => ht y (List.mem_append_right _ hy)
        exact hvalue.bind fun v => (SameOn.bindName x v).bind fun _ => .pure _
    | _ => exact .fail _
  | block ts => exact .inSequence fun t htt => hrun t (uses_of_mem ht htt)
  | identifier x =>
    refine (SameOn.look (ht x (by simp [Tree.identifiers]))).bind fun o => ?_
    cases o with
    | none => exact .fail _
    | some v => exact .pure v
  | binary left right op =>
    have hleft := hrun left fun y hy => ht y (List.mem_append_left _ hy)
    have hright := hrun right fun y hy => ht y (List.mem_append_right _ hy)
    exact hleft.bind fun l => hright.bind fun r => .lift _
  | apply callee argument =>
    have hargument := hrun argument fun y hy => ht y (List.mem_append_right _ hy)
    cases callee with
    | lambda ps body =>
      have hbody : Uses N body := fun y hy =>
        ht y (List.mem_append_left _ (List.mem_append_right _ hy))
      refine hargument.bind fun v => sameOn_apply hw.files hrun anonymous ?_ v
      rintro _ _ ⟨⟩
      exact hbody
    | identifier x =>
      have hx : N x := ht x (by simp [Tree.identifiers])
      have huses := fun ps body => hw.uses x ps body hx
      refine hargument.bind fun v => ?_
      rw [← hw.found x hx]
      cases hd : w.definitions.get? x with
      | none => exact .fail _
      | some d =>
        rw [hd] at huses
        exact sameOn_apply hw.files hrun x (fun ps body h => huses ps body (congrArg some h)) v
    | _ => exact .fail _
  | tuple ts | array ts =>
    exact (SameOn.inOrder fun t htt => hrun t (uses_of_mem ht htt)).bind fun _ => .pure _
  | number | boolean | text => exact .pure _
  | _ => exact .fail _

end

/-- The evaluation of a tree does not depend on names that are not among `N`. -/
theorem sameOn_evaluate (hw : w.SameOn N w') (fuel : Nat) (t : Tree String) (ht : Uses N t) :
    SameOn N (evaluate w fuel t) (evaluate w' fuel t) := by
  induction fuel generalizing t with
  | zero => exact .throw _
  | succ fuel ih => exact sameOn_step hw ih t ht

theorem sameOn_entryEnvironment (hw : w.SameOn N w') (ps : List String) :
    Evaluation.Environment.SameOn N (entryEnvironment w ps) (entryEnvironment w' ps) := by
  have hfunctions : Evaluation.Environment.SameOn N
      (.ofList (w.definitions.keys.map fun x => (x, .function x)))
      (.ofList (w'.definitions.keys.map fun x => (x, .function x))) := by
    intro x hx
    rw [Table.get?_ofList_keys, Table.get?_ofList_keys, hw.found x hx]
  unfold entryEnvironment
  generalize Table.ofList (w.definitions.keys.map fun x => (x, Value.function x)) = e,
    Table.ofList (w'.definitions.keys.map fun x => (x, Value.function x)) = e' at hfunctions
  induction ps generalizing e e' with
  | nil => exact hfunctions
  | cons x ps ih => exact ih _ _ (hfunctions.insert x _)

theorem sameOn_runEntry (hw : w.SameOn N w') (hmain : N Evaluation.entryName) (fuel : Nat) :
    SameOn N (runEntry w fuel) (runEntry w' fuel) := by
  have huses := fun ps body => hw.uses Evaluation.entryName ps body hmain
  unfold runEntry
  rw [← hw.found Evaluation.entryName hmain]
  cases hd : w.definitions.get? Evaluation.entryName with
  | none => exact .fail _
  | some d =>
    rw [hd] at huses
    cases d with
    | written ps body =>
      have hbody := sameOn_evaluate hw fuel body (huses ps body rfl)
      exact SameOn.inCall (sameOn_entryEnvironment hw ps) hbody
    | intrinsic i =>
      dsimp only
      rw [hw.files]
      exact sameOn_perform _ i _

/-- Two files run alike if the first names of the one, and those that its functions use, stand for
the same in the other. -/
theorem run_eq_of_sameOn {ts ts' : List (Tree String)} {files : Files}
    (hw : World.SameOn N ⟨definitions ts, files⟩ ⟨definitions ts', files⟩)
    (hmain : N Evaluation.entryName) (fuel : Nat) : run ts files fuel = run ts' files fuel := by
  have hsame := sameOn_runEntry hw hmain fuel ⟨∅, ""⟩ ⟨∅, ""⟩ ⟨fun _ _ => rfl, rfl⟩
  unfold run
  generalize runEntry ⟨definitions ts, files⟩ fuel ⟨∅, ""⟩ = r,
    runEntry ⟨definitions ts', files⟩ fuel ⟨∅, ""⟩ = r' at hsame
  cases hsame with
  | ok hfg => simp only [hfg.printed]
  | error hfg => simp only [hfg.printed]

end Direct

end LetLang
