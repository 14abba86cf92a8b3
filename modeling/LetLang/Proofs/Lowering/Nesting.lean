import LetLang.Proofs.Lowering.Represents

/-!
# Nested applied lambdas

The number in the name of a lifted function is the number of functions lifted before it, taken
before its own body is lowered. If the body lifts a function too, both get the same number; if no
body of an applied lambda does, the numbers are consecutive.
-/

namespace LetLang

namespace Tree

mutual

/-- How deep lambdas that are applied on the spot lie in each other's bodies. -/
def nesting : Tree String → Nat
  | .bind (.identifier _) _ (.lambda parameters body) => max (nestingAll parameters) body.nesting
  | .bind _ type value => max type.nesting value.nesting
  | .apply (.lambda parameters body) argument =>
    max (max (nestingAll parameters) body.nesting + 1) argument.nesting
  | .apply _ argument => argument.nesting
  | .block statements => nestingAll statements
  | .binary left right _ => max left.nesting right.nesting
  | .tuple elements => nestingAll elements
  | .array elements => nestingAll elements
  | .sumType options => nestingAll options
  | .productType elements => nestingAll elements
  | .functionType source target => max source.nesting target.nesting
  | .arrayType element _ => element.nesting
  | _ => 0

def nestingAll : List (Tree String) → Nat
  | [] => 0
  | t :: ts => max t.nesting (nestingAll ts)

end

theorem nestingAll_le_iff {ts : List (Tree String)} {d : Nat} :
    nestingAll ts ≤ d ↔ ∀ t ∈ ts, t.nesting ≤ d := by
  induction ts with
  | nil => simp [nestingAll]
  | cons t ts ih => rw [nestingAll, Nat.max_le, List.forall_mem_cons, ih]

end Tree

namespace Lowering

def numbers (ls : List Lifting) : List Nat := ls.map Lifting.number

/-- How numbers are given out to applied lambdas that nest `depth` deep. -/
structure Numbered (depth : Nat) (make : Nat → List Lifting) : Prop where
  none : depth = 0 → ∀ n, make n = []
  first : 0 < depth → ∀ n, n ∈ numbers (make n)
  consecutive : depth ≤ 1 → ∀ n, numbers (make n) = List.range' n (make n).length
  clash : 1 < depth → ∀ n, ¬(numbers (make n)).Nodup

variable {d e : Nat} {make make' : Nat → List Lifting}

theorem numbered_nil : Numbered 0 fun _ => [] where
  none _ _ := rfl
  first h := by omega
  consecutive _ _ := rfl
  clash h := by omega

theorem Numbered.inTurn (h : Numbered d make) (h' : Numbered e make') :
    Numbered (max d e) (inTurn make make') where
  none hd n := by
    rw [Lowering.inTurn, h.none (by omega), h'.none (by omega), List.append_nil]
  first hd n := by
    rw [Lowering.inTurn, numbers, List.map_append, List.mem_append]
    rcases Nat.eq_zero_or_pos d with h0 | hpos
    · right
      rw [h.none h0]
      exact h'.first (by omega) n
    · left
      exact h.first hpos n
  consecutive hd n := by
    rw [Lowering.inTurn, numbers, List.map_append, List.length_append, ← List.range'_append_1]
    congr 1
    · exact h.consecutive (by omega) n
    · exact h'.consecutive (by omega) _
  clash hd n := by
    rw [Lowering.inTurn, numbers, List.map_append, List.nodup_append]
    rintro ⟨h₁, h₂, -⟩
    rcases Nat.lt_or_ge 1 d with hd₁ | hd₁
    · exact h.clash hd₁ n h₁
    · exact h'.clash (by omega) _ h₂

/-- The function of an applied lambda is finished after those of its body, and shares its number
with the first of them. -/
theorem Numbered.lift (h : Numbered d make) (ps : List (Tree String)) (b : Tree String) :
    Numbered (d + 1) fun n => Lowering.inTurn make (fun _ => [⟨n, ps, b⟩]) n where
  none hd := by omega
  first _ n := by simp [Lowering.inTurn, numbers]
  consecutive hd n := by simp [Lowering.inTurn, numbers, h.none (by omega) n]
  clash hd n := by
    rw [Lowering.inTurn, numbers, List.map_append, List.nodup_append]
    rintro ⟨-, -, hne⟩
    exact hne n (h.first (by omega) n) n (by simp) rfl

mutual

theorem numbered_liftings : (t : Tree String) → Numbered t.nesting (liftings t)
  | .bind id type value => by
    cases id with
    | identifier x =>
      cases value with
      | lambda ps b =>
        rw [Tree.nesting, liftings]
        exact (numbered_liftingsAll ps).inTurn (numbered_liftings b)
      | _ =>
        rw [Tree.nesting, liftings] <;>
          first | exact (numbered_liftings type).inTurn (numbered_liftings _) | simp
    | _ =>
      rw [Tree.nesting, liftings] <;>
        first | exact (numbered_liftings type).inTurn (numbered_liftings value) | simp
  | .apply callee argument => by
    cases callee with
    | lambda ps b =>
      rw [Tree.nesting, liftings]
      exact (((numbered_liftingsAll ps).inTurn (numbered_liftings b)).lift ps b).inTurn
        (numbered_liftings argument)
    | _ =>
      rw [Tree.nesting, liftings] <;> first | exact numbered_liftings argument | simp
  | .block ts => numbered_liftingsAll ts
  | .binary left right _ => (numbered_liftings left).inTurn (numbered_liftings right)
  | .tuple ts => numbered_liftingsAll ts
  | .array ts => numbered_liftingsAll ts
  | .sumType ts => numbered_liftingsAll ts
  | .productType ts => numbered_liftingsAll ts
  | .functionType source target => (numbered_liftings source).inTurn (numbered_liftings target)
  | .arrayType element _ => numbered_liftings element
  | .file _ | .identifier _ | .lambda .. | .number _ | .boolean _ | .text _ | .typeName _
  | .unitType => numbered_nil

theorem numbered_liftingsAll :
    (ts : List (Tree String)) → Numbered (Tree.nestingAll ts) (liftingsAll ts)
  | [] => numbered_nil
  | t :: ts => (numbered_liftings t).inTurn (numbered_liftingsAll ts)

end

theorem nodup_numbers_iff (ts : List (Tree String)) :
    (numbers (liftingsAll ts 0)).Nodup ↔ ∀ t ∈ ts, t.nesting ≤ 1 := by
  have h := numbered_liftingsAll ts
  rw [← Tree.nestingAll_le_iff]
  constructor
  · intro hn
    by_contra hd
    exact h.clash (by omega) 0 hn
  · intro hd
    rw [h.consecutive hd]
    exact List.nodup_range'

end Lowering

end LetLang
