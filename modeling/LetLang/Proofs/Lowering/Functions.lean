import LetLang.Proofs.Lowering.Builds
import LetLang.Proofs.Lowering.Nesting
import LetLang.Proofs.Program

/-!
# The functions of a lowered file

The program of a lowered file has the functions of the statements, then those made of applied
lambdas, then the standard natives.
-/

namespace LetLang

def Arena.functionName? (a : Arena Node) (id : Int) : Option String :=
  (a.function? id).map Function.name

namespace Lowering

/-- The arena holds the functions `tops` for the statements, and the functions `made` for applied
lambdas. -/
structure IsImage (ts : List (Tree String)) (l : Lowered) (ids : List Int)
    (tops made : List Function) : Prop where
  root : l.arena.node? rootId = some (.file (ids ++ l.lifted))
  definitions : ∀ t ∈ ts, t.IsDefinition
  topsAt : ids.map l.arena.function? = tops.map some
  madeAt : l.lifted.map l.arena.function? = made.map some
  topNames : tops.map (some ∘ Function.name) = ts.map Tree.boundName?
  madeNames : made.map Function.name = (numbers (liftingsAll ts 0)).map liftedName
  represents : ∀ R, (∀ f ∈ l.lifted, ∀ g, l.arena.function? f = some g → R g.name f) →
    List.Forall₂ (Represents l.arena.node? R) ts ids ∧
      List.Forall₂ (IsLifted l.arena.node? R) (liftingsAll ts 0) l.lifted

section
variable {a : Arena Node} {R : String → Int → Prop}

theorem exists_function_of_represents {t : Tree String} {id : Int}
    (h : Represents a.node? R t id) (ht : t.IsDefinition) :
    ∃ g, a.function? id = some g ∧ some g.name = t.boundName? := by
  obtain ⟨x, type, ps, body, rfl⟩ := ht
  cases h with
  | function hid =>
    exact ⟨_, Arena.function?_eq_some_iff.2 ⟨_, _, _, hid, rfl⟩, rfl⟩
  | bind hne => exact absurd rfl (hne ps body)

theorem exists_functions_of_represents {ts : List (Tree String)} {ids : List Int}
    (h : List.Forall₂ (Represents a.node? R) ts ids) (hts : ∀ t ∈ ts, t.IsDefinition) :
    ∃ gs : List Function, ids.map a.function? = gs.map some ∧
      gs.map (some ∘ Function.name) = ts.map Tree.boundName? := by
  induction h with
  | nil => exact ⟨[], rfl, rfl⟩
  | cons ht _ ih =>
    obtain ⟨ht', hts'⟩ := List.forall_mem_cons.1 hts
    obtain ⟨g, hg, hname⟩ := exists_function_of_represents ht ht'
    obtain ⟨gs, hgs, hnames⟩ := ih hts'
    exact ⟨g :: gs, by simp [hg, hgs], by simp [hname, hnames]⟩

theorem exists_functions_of_isLifted {ls : List Lifting} {fs : List Int}
    (h : List.Forall₂ (IsLifted a.node? R) ls fs) :
    ∃ gs : List Function, fs.map a.function? = gs.map some ∧
      gs.map Function.name = (numbers ls).map liftedName := by
  induction h with
  | nil => exact ⟨[], rfl, rfl⟩
  | @cons l f _ _ hf _ ih =>
    obtain @⟨is, b, hnode, -, -⟩ := hf
    obtain ⟨gs, hgs, hnames⟩ := ih
    have hg := Arena.function?_eq_some_iff.2 ⟨_, _, _, hnode, rfl⟩
    exact ⟨.lowered (liftedName l.number) is b :: gs, by simp [hg, hgs],
      by simp [hnames, numbers, Function.name]⟩

end

variable {ts : List (Tree String)} {l : Lowered} {ids : List Int} {tops made : List Function}

theorem exists_image (h : LetLang.lower (.file ts) = .ok l) :
    ∃ ids tops made, IsImage ts l ids tops made := by
  obtain ⟨ids, hroot, hdef, -, hrep⟩ := represents_of_lower h
  obtain ⟨hts, hls⟩ := hrep (fun _ _ => True) fun _ _ _ _ _ _ => trivial
  obtain ⟨tops, htops, htopNames⟩ := exists_functions_of_represents hts hdef
  obtain ⟨made, hmade, hmadeNames⟩ := exists_functions_of_isLifted hls
  refine ⟨ids, tops, made, hroot, hdef, htops, hmade, htopNames, hmadeNames, fun R hR => ?_⟩
  exact hrep R fun f hf name is b hnode =>
    hR f hf _ (Arena.function?_eq_some_iff.2 ⟨name, is, b, hnode, rfl⟩)

def tableOf (tops made : List Function) : Program :=
  .ofList (Program.entriesOf (tops ++ made ++ Program.standardFunctions))

theorem IsImage.build (h : IsImage ts l ids tops made) :
    Program.build l.arena [] = .ok (tableOf tops made) :=
  Program.build_eq h.root (by rw [List.map_append, h.topsAt, h.madeAt, List.map_append])

theorem IsImage.exists_function (h : IsImage ts l ids tops made) {f : Int}
    (hf : f ∈ ids ++ l.lifted) : ∃ x is b, l.arena.node? f = some (.function x is b) := by
  have hmem := List.mem_map_of_mem (f := l.arena.function?) hf
  rw [List.map_append, h.topsAt, h.madeAt, ← List.map_append, List.mem_map] at hmem
  obtain ⟨g, -, hg⟩ := hmem
  obtain ⟨x, is, b, hnode, -⟩ := Arena.function?_eq_some_iff.1 hg.symm
  exact ⟨x, is, b, hnode⟩

end Lowering

end LetLang
