import LetLang.Program
import LetLang.Proofs.Arena.Growth
import LetLang.Proofs.Table

/-!
# Programs of arenas

If the root of an arena lists functions only, its program is the table of these functions and of the
standard natives, and the last one of a name wins.
-/

namespace LetLang

def Arena.function? (a : Arena Node) (id : Int) : Option Function :=
  match a.node? id with
  | some (.function name is b) => some (.lowered name is b)
  | _ => none

theorem Arena.function?_eq_some_iff {a : Arena Node} {id : Int} {f : Function} :
    a.function? id = some f ↔
      ∃ name is b, a.node? id = some (.function name is b) ∧ f = .lowered name is b := by
  unfold function?
  split <;> simp_all [eq_comm]

namespace Program

def standardFunctions : List Function :=
  [.native "std.print" [nativeParameter] .print,
   .native "std.println" [nativeParameter] .printLine,
   .native "std.read" [nativeParameter] .readFile,
   .native "std.to_string" [nativeParameter] .inspect]

def entriesOf (fs : List Function) : List (String × Function) := fs.map fun f => (f.name, f)

theorem addLowered_eq {a : Arena Node} {ids : List Int} {fs : List Function}
    (h : ids.map a.function? = fs.map some) (p : Program) :
    addLowered a p ids = .ok (fs.foldl add p) := by
  induction ids generalizing fs p with
  | nil =>
    rw [List.map_nil, List.nil_eq, List.map_eq_nil_iff] at h
    rw [h]
    rfl
  | cons id ids ih =>
    obtain ⟨f, fs, rfl, hf, hfs⟩ := List.map_eq_cons_iff.1 h.symm
    obtain ⟨name, is, b, hid, rfl⟩ := Arena.function?_eq_some_iff.1 hf.symm
    rw [addLowered, Arena.value?_eq_some_iff.2 hid]
    exact ih hfs.symm _

/-- The program of a root that lists the functions `fs`. -/
theorem build_eq {a : Arena Node} {ids : List Int} {fs : List Function}
    (hroot : a.node? rootId = some (.file ids))
    (h : ids.map a.function? = fs.map some) :
    build a [] = .ok (.ofList (entriesOf (fs ++ standardFunctions))) := by
  unfold build
  rw [Arena.value?_eq_some_iff.2 hroot]
  simp only [addLowered_eq h]
  simp only [Native.prelude, Native.extend, Table.ofList, entriesOf, List.foldl_map,
    List.foldl_append]
  rfl

section
variable {a b : Arena Node} {ids : List Int}

theorem addLowered_congr (h : ∀ id ∈ ids, a.value? id = b.value? id) (p : Program) :
    addLowered a p ids = addLowered b p ids := by
  induction ids generalizing p with
  | nil => rfl
  | cons id ids ih =>
    obtain ⟨hid, hids⟩ := List.forall_mem_cons.1 h
    simp only [addLowered, hid, ih hids]

/-- A program depends on the root and on what the root lists. -/
theorem build_congr (hroot : a.value? rootId = b.value? rootId)
    (h : ∀ fs, a.node? rootId = some (.file fs) → ∀ f ∈ fs, a.value? f = b.value? f)
    (natives : List Native) : build a natives = build b natives := by
  unfold build
  rw [← hroot]
  split
  · rfl
  · next fs hfs => rw [addLowered_congr (h fs (Arena.value?_eq_some_iff.1 hfs))]
  · rfl

def All (P : Function → Prop) (p : Program) : Prop := ∀ x f, p.get? x = some f → P f

variable {P : Function → Prop} {p q : Program}

theorem All.empty : All P ∅ := by
  rintro x f ⟨⟩

theorem All.add {f : Function} (h : p.All P) (hf : P f) : (p.add f).All P := by
  intro x g hg
  rw [Program.add, Table.get?_insert] at hg
  split at hg
  · cases hg
    exact hf
  · exact h x g hg

theorem All.addLowered (h : p.All P)
    (hP : ∀ id name is b, a.node? id = some (.function name is b) → P (.lowered name is b))
    (hq : Program.addLowered a p ids = .ok q) : q.All P := by
  induction ids generalizing p with
  | nil =>
    cases hq
    exact h
  | cons id ids ih =>
    unfold Program.addLowered at hq
    split at hq
    · cases hq
    · next name is b hid =>
      exact ih (h.add (hP id name is b (Arena.value?_eq_some_iff.1 hid))) hq
    · cases hq

theorem All.addNatives {ns : List Native} (h : p.All P)
    (hP : ∀ name ps action, P (.native name ps action)) (hq : Program.addNatives p ns = .ok q) :
    q.All P := by
  induction ns generalizing p with
  | nil =>
    cases hq
    exact h
  | cons n ns ih =>
    unfold Program.addNatives at hq
    cases hn : ofNative n with
    | error e =>
      rw [hn] at hq
      cases hq
    | ok f =>
      rw [hn] at hq
      have hf : P f := by
        unfold ofNative at hn
        split at hn
        · cases hn
        · split at hn <;> cases hn
          exact hP _ _ _
      exact ih (h.add hf) hq

/-- A program has no functions but those of the arena, and natives. -/
theorem all_of_build {natives : List Native} (h : build a natives = .ok p)
    (hP : ∀ id name is b, a.node? id = some (.function name is b) → P (.lowered name is b))
    (hnative : ∀ name ps action, P (.native name ps action)) : p.All P := by
  unfold build at h
  split at h
  · cases h
  · next fs _ =>
    cases hlowered : addLowered a ∅ fs with
    | error e =>
      rw [hlowered] at h
      cases h
    | ok q =>
      simp only [hlowered] at h
      split at h
      · cases h
      · exact (All.empty.addLowered hP hlowered).addNatives hnative h
  · cases h

/-- Every lowered function of a program is a node of the arena. -/
theorem exists_node_of_build {natives : List Native} (h : build a natives = .ok p) {x name : String}
    {is : List Int} {b : Int} (hget : p.get? x = some (.lowered name is b)) :
    ∃ id, a.node? id = some (.function name is b) := by
  let FromArena : Function → Prop := fun f => ∀ name is b, f = .lowered name is b →
    ∃ id, a.node? id = some (.function name is b)
  have hall : p.All FromArena := by
    refine all_of_build h (fun id name is b hid => ?_) fun name ps action => ?_
    · rintro _ _ _ ⟨⟩
      exact ⟨id, hid⟩
    · rintro _ _ _ ⟨⟩
  exact hall x _ hget name is b rfl

end

end Program

end LetLang
