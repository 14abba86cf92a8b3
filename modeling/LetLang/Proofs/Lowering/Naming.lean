import LetLang.Proofs.Lowering.Functions
import Mathlib

/-!
# The names of lifted functions

A made name has a character that no name of a source text has. Two made names are equal only if
their numbers are. So the program of a lowered file finds every lifted function by its name exactly
if no two lifted functions got one number, which is to say that applied lambdas do not nest in each
other's bodies.
-/

namespace LetLang

/-- A name has no character that does not go on with a word. -/
theorem IsName.not_mem {name : String} {c : Char} (h : IsName name)
    (hc : Scan.continuesWord c = false) : c ∉ name.toList := by
  obtain ⟨⟨d, ds, hname, hd, hds⟩, -⟩ := h
  have hgo : ∀ e ∈ name.toList, Scan.continuesWord e = true := by
    rw [hname]
    exact List.forall_mem_cons.2 ⟨Scan.continuesWord_of_startsWord hd, hds⟩
  intro hmem
  rw [hgo c hmem] at hc
  cases hc

theorem IsName.hash_not_mem {name : String} (h : IsName name) : '#' ∉ name.toList :=
  h.not_mem (by decide +kernel)

namespace Lowering

theorem toList_liftedName (k : Nat) :
    (liftedName k).toList = "lambda#".toList ++ Nat.toDigits 10 k := by
  unfold liftedName
  rw [Nat.toString_eq_repr, String.toList_append, Nat.toList_repr]
  rfl

theorem liftedName_injective : Function.Injective liftedName := by
  intro k m h
  have hlists := congrArg String.toList h
  rw [toList_liftedName, toList_liftedName, List.append_cancel_left_eq] at hlists
  rw [← Nat.toList_repr, ← Nat.toList_repr] at hlists
  exact Nat.repr_injective (String.toList_inj.1 hlists)

theorem liftedName_ne_of_hash_not_mem {name : String} (h : '#' ∉ name.toList) (k : Nat) :
    liftedName k ≠ name := by
  rintro rfl
  rw [toList_liftedName] at h
  simp at h

/-- The name is looked up to the very function that the node is. -/
def Resolves (p : Program) (a : Arena Node) (name : String) (f : Int) : Prop :=
  ∃ g, a.function? f = some g ∧ p.get? name = some g

/-- No two lambdas are confused: the names of the lifted functions differ from each other and from
the names of the statements, and the name in every application of a lambda is looked up to the
function made of this lambda. -/
structure KeepsApart (ts : List (Tree String)) (l : Lowered) : Prop where
  distinct : (l.lifted.map l.arena.functionName?).Nodup
  apart : ∀ f ∈ l.lifted, ∀ t ∈ ts, l.arena.functionName? f ≠ t.boundName?
  resolved : ∃ p ids, Program.build l.arena [] = .ok p ∧
    l.arena.node? rootId = some (.file (ids ++ l.lifted)) ∧
    List.Forall₂ (Represents l.arena.node? (Resolves p l.arena)) ts ids

variable {ts : List (Tree String)} {l : Lowered} {ids : List Int} {tops made : List Function}

theorem isName_of_boundName? {t : Tree String} {x : String} (h : t.IsParsed)
    (hx : t.boundName? = some x) : IsName x := by
  cases h with
  | bind hi =>
    obtain ⟨n, rfl, hn⟩ := hi
    cases hx
    exact hn
  | _ => cases hx

namespace IsImage

theorem map_functionName? (h : IsImage ts l ids tops made) :
    l.lifted.map l.arena.functionName? =
      (numbers (liftingsAll ts 0)).map (some ∘ liftedName) := by
  have hmap : l.arena.functionName? = Option.map Function.name ∘ l.arena.function? := rfl
  rw [hmap, ← List.map_map, h.madeAt, List.map_map, ← List.map_map (f := liftedName), ← h.madeNames,
    List.map_map]
  rfl

theorem nodup_names_iff (h : IsImage ts l ids tops made) :
    (l.lifted.map l.arena.functionName?).Nodup ↔ ∀ t ∈ ts, t.nesting ≤ 1 := by
  have hinj : Function.Injective (some ∘ liftedName) :=
    (Option.some_injective _).comp liftedName_injective
  rw [h.map_functionName?, List.nodup_map_iff hinj, nodup_numbers_iff]

theorem exists_liftedName (h : IsImage ts l ids tops made) {f : Int} (hf : f ∈ l.lifted) :
    ∃ k, l.arena.functionName? f = some (liftedName k) := by
  have hmem := List.mem_map_of_mem (f := l.arena.functionName?) hf
  rw [h.map_functionName?, List.mem_map] at hmem
  obtain ⟨k, -, hk⟩ := hmem
  exact ⟨k, hk.symm⟩

/-- Where names differ, each lifted function is found by its name. -/
theorem get?_of_mem_made (h : IsImage ts l ids tops made) (hflat : ∀ t ∈ ts, t.nesting ≤ 1)
    {g : Function} (hg : g ∈ made) : (tableOf tops made).get? g.name = some g := by
  have hmem := List.mem_map_of_mem (f := Function.name) hg
  rw [h.madeNames, List.mem_map] at hmem
  obtain ⟨k, -, hk⟩ := hmem
  have hnatives : Table.last? g.name (Program.entriesOf Program.standardFunctions) = none := by
    rw [Table.last?_eq_none_iff, ← hk]
    intro e he
    refine (liftedName_ne_of_hash_not_mem ?_ k).symm
    simp only [Program.entriesOf, Program.standardFunctions, List.map_cons, List.map_nil,
      List.mem_cons, List.not_mem_nil, or_false] at he
    rcases he with rfl | rfl | rfl | rfl <;> decide
  have hmade : Table.last? g.name (Program.entriesOf made) = some g := by
    refine Table.last?_eq_some_of_nodup ?_ (List.mem_map_of_mem hg)
    rw [Program.entriesOf, List.map_map]
    change (made.map Function.name).Nodup
    rw [h.madeNames, List.nodup_map_iff liftedName_injective, nodup_numbers_iff]
    exact hflat
  unfold tableOf Program.entriesOf at *
  rw [Table.get?_ofList, List.map_append, List.map_append, Table.last?_append,
    Table.last?_append, hnatives, hmade, Option.none_or, Option.some_or]

theorem resolves (h : IsImage ts l ids tops made) (hflat : ∀ t ∈ ts, t.nesting ≤ 1) {f : Int}
    (hf : f ∈ l.lifted) {g : Function} (hg : l.arena.function? f = some g) :
    Resolves (tableOf tops made) l.arena g.name f := by
  have hmem := List.mem_map_of_mem (f := l.arena.function?) hf
  rw [h.madeAt, hg, List.mem_map] at hmem
  obtain ⟨_, hg', ⟨⟩⟩ := hmem
  exact ⟨g, hg, h.get?_of_mem_made hflat hg'⟩

end IsImage

/-- Lambda lifting keeps the lambdas of a source text apart exactly if no lambda that is applied on
the spot has another one in its body. -/
theorem keepsApart_iff {source : String} (hp : parseSource source = .ok ts)
    (hl : LetLang.lower (.file ts) = .ok l) : KeepsApart ts l ↔ ∀ t ∈ ts, t.nesting ≤ 1 := by
  obtain ⟨ids, tops, made, h⟩ := exists_image hl
  constructor
  · exact fun hapart => h.nodup_names_iff.1 hapart.distinct
  intro hflat
  refine ⟨h.nodup_names_iff.2 hflat, fun f hf t ht => ?_,
    tableOf tops made, ids, h.build, h.root, ?_⟩
  · obtain ⟨k, hk⟩ := h.exists_liftedName hf
    rw [hk]
    intro hname
    have hword := isName_of_boundName? (isParsed_of_parseSource hp t ht) hname.symm
    exact liftedName_ne_of_hash_not_mem hword.hash_not_mem k rfl
  · exact (h.represents _ fun f hf g hg => h.resolves hflat hf hg).1

/-- Two lambdas are confused where one is applied in the body of the other. -/
theorem nested_lambdas_confused :
    ∃ ts l,
      parseSource "let main : ui8 -> ui8 = \\x => (\\(y, w) => (\\z => z) y) (x, x);" = .ok ts ∧
      LetLang.lower (.file ts) = .ok l ∧ ¬KeepsApart ts l := by
  let inner : Tree String := .apply (.lambda [.identifier "z"] (.identifier "z")) (.identifier "y")
  let main : Tree String :=
    .bind (.identifier "main") (.functionType (.typeName "ui8") (.typeName "ui8"))
      (.lambda [.identifier "x"] (.apply (.lambda [.identifier "y", .identifier "w"] inner)
        (.tuple [.identifier "x", .identifier "x"])))
  have hp : parseSource "let main : ui8 -> ui8 = \\x => (\\(y, w) => (\\z => z) y) (x, x);" =
      .ok [main] := by cbv
  obtain ⟨l, hl⟩ : ∃ l, LetLang.lower (.file [main]) = .ok l := ⟨_, by cbv⟩
  refine ⟨[main], l, hp, hl, fun hapart => ?_⟩
  have hflat := (keepsApart_iff hp hl).1 hapart main List.mem_cons_self
  exact absurd hflat (by decide)

end Lowering

end LetLang
