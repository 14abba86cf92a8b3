import LetLang.Proofs.Lowering.Layout

/-!
# What lifting leaves of a tree

When the lambdas that are applied on the spot are lifted out of a tree, the names of their functions
are left in their places. A lambda under a name stays where it is, but its type is not kept. Nothing
else changes, so a tree without lambdas is left as it is.
-/

namespace LetLang.Lowering

mutual

/-- What is left of a tree when the lambdas that are applied on the spot are lifted out of it, where
`n` functions were lifted before. -/
def residual : Tree String → Nat → Tree String
  | .bind (.identifier x) _ (.lambda parameters body), n =>
    .bind (.identifier x) .unitType (.lambda (residualAll parameters n)
      (residual body (n + (liftingsAll parameters n).length)))
  | .bind id type value, n =>
    .bind id (residual type n) (residual value (n + (liftings type n).length))
  | .apply (.lambda parameters body) argument, n =>
    .apply (.identifier (liftedName n))
      (residual argument (n + (inTurn (liftingsAll parameters) (liftings body) n).length + 1))
  | .apply callee argument, n => .apply callee (residual argument n)
  | .block statements, n => .block (residualAll statements n)
  | .binary left right op, n =>
    .binary (residual left n) (residual right (n + (liftings left n).length)) op
  | .tuple elements, n => .tuple (residualAll elements n)
  | .array elements, n => .array (residualAll elements n)
  | .sumType options, n => .sumType (residualAll options n)
  | .productType elements, n => .productType (residualAll elements n)
  | .functionType source target, n =>
    .functionType (residual source n) (residual target (n + (liftings source n).length))
  | .arrayType element length, n => .arrayType (residual element n) length
  | t, _ => t

def residualAll : List (Tree String) → Nat → List (Tree String)
  | [], _ => []
  | t :: ts, n => residual t n :: residualAll ts (n + (liftings t n).length)

end

def Lifting.tree (l : Lifting) : Tree String :=
  .bind (.identifier (liftedName l.number)) .unitType (.lambda l.parameters l.body)

def Lifting.residual (l : Lifting) : Tree String := Lowering.residual l.tree l.number

theorem residualAll_append (ts us : List (Tree String)) (n : Nat) :
    residualAll (ts ++ us) n =
      residualAll ts n ++ residualAll us (n + (liftingsAll ts n).length) := by
  induction ts generalizing n with
  | nil => simp [residualAll, liftingsAll]
  | cons t ts ih => simp [residualAll, liftingsAll, inTurn, ih, Nat.add_assoc]

theorem liftingsAll_append (ts us : List (Tree String)) :
    liftingsAll (ts ++ us) = inTurn (liftingsAll ts) (liftingsAll us) := by
  funext n
  induction ts generalizing n with
  | nil => simp [liftingsAll, inTurn]
  | cons t ts ih => simp [liftingsAll, inTurn, ih, Nat.add_assoc]

/-- An applied lambda is lifted before what follows from the argument. -/
theorem liftings_apply_lambda (l : Lifting) (argument : Tree String) :
    liftings (.apply (.lambda l.parameters l.body) argument) l.number =
      (liftings l.tree l.number ++ [l]) ++
        liftings (.apply (.identifier (liftedName l.number)) argument)
          (l.number + (liftings l.tree l.number ++ [l]).length) := by
  simp [liftings, Lifting.tree, inTurn]

theorem residual_apply_lambda (l : Lifting) (argument : Tree String) :
    residual (.apply (.lambda l.parameters l.body) argument) l.number =
      residual (.apply (.identifier (liftedName l.number)) argument)
        (l.number + (liftings l.tree l.number ++ [l]).length) := by
  simp [residual, liftings, Lifting.tree, Nat.add_assoc]

/-- What a tree lifts is what its parts lift. -/
theorem liftings_of_layout {t : Tree String} {draft : Node} {parts : List (Tree String)}
    (h : layout t = .node draft parts) : liftings t = liftingsAll parts := by
  unfold layout at h
  split at h <;> cases h
  case h_1 =>
    funext n
    simp [liftings, liftingsAll_append, liftingsAll, inTurn]
  case h_2 hvalue =>
    funext n
    rw [liftings]
    · simp [liftingsAll, liftings, inTurn]
    · exact fun _ ps b _ => hvalue ps b
  all_goals
    funext n
    simp [liftings, liftingsAll, inTurn]

mutual

/-- There is no lambda in the tree. -/
def lambdaFree : Tree String → Bool
  | .file statements => lambdaFreeAll statements
  | .bind id type value => lambdaFree id && lambdaFree type && lambdaFree value
  | .binary left right _ => lambdaFree left && lambdaFree right
  | .lambda .. => false
  | .apply callee argument => lambdaFree callee && lambdaFree argument
  | .tuple elements => lambdaFreeAll elements
  | .array elements => lambdaFreeAll elements
  | .block statements => lambdaFreeAll statements
  | .sumType options => lambdaFreeAll options
  | .productType elements => lambdaFreeAll elements
  | .functionType source target => lambdaFree source && lambdaFree target
  | .arrayType element _ => lambdaFree element
  | _ => true

def lambdaFreeAll : List (Tree String) → Bool
  | [] => true
  | t :: ts => lambdaFree t && lambdaFreeAll ts

end

mutual

theorem liftings_of_lambdaFree (n : Nat) : (t : Tree String) → lambdaFree t → liftings t n = []
  | .bind id type value, h => by
    simp only [lambdaFree, Bool.and_eq_true] at h
    rw [liftings]
    · simp [inTurn, liftings_of_lambdaFree n type h.1.2, liftings_of_lambdaFree n value h.2]
    · rintro _ ps body - rfl
      simp [lambdaFree] at h
  | .apply callee argument, h => by
    simp only [lambdaFree, Bool.and_eq_true] at h
    rw [liftings]
    · exact liftings_of_lambdaFree n argument h.2
    · rintro ps body rfl
      simp [lambdaFree] at h
  | .block ts, h | .tuple ts, h | .array ts, h | .sumType ts, h | .productType ts, h =>
    liftingsAll_of_lambdaFreeAll n ts h
  | .binary l r _, h | .functionType l r, h => by
    simp only [lambdaFree, Bool.and_eq_true] at h
    simp [liftings, inTurn, liftings_of_lambdaFree n l h.1, liftings_of_lambdaFree n r h.2]
  | .arrayType e _, h => liftings_of_lambdaFree n e h
  | .file _, _ | .identifier _, _ | .lambda .., _ | .number _, _ | .boolean _, _ | .text _, _
  | .typeName _, _ | .unitType, _ => rfl

theorem liftingsAll_of_lambdaFreeAll (n : Nat) :
    (ts : List (Tree String)) → lambdaFreeAll ts → liftingsAll ts n = []
  | [], _ => rfl
  | t :: ts, h => by
    simp only [lambdaFreeAll, Bool.and_eq_true] at h
    simp [liftingsAll, inTurn, liftings_of_lambdaFree n t h.1,
      liftingsAll_of_lambdaFreeAll n ts h.2]

end

mutual

/-- Nothing is lifted out of a tree without lambdas, such as a type, and it is left as it is. -/
theorem residual_of_lambdaFree (n : Nat) : (t : Tree String) → lambdaFree t → residual t n = t
  | .bind id type value, h => by
    simp only [lambdaFree, Bool.and_eq_true] at h
    rw [residual]
    · rw [liftings_of_lambdaFree n type h.1.2, residual_of_lambdaFree n type h.1.2]
      rw [List.length_nil, Nat.add_zero, residual_of_lambdaFree n value h.2]
    · rintro _ ps body - rfl
      simp [lambdaFree] at h
  | .apply callee argument, h => by
    simp only [lambdaFree, Bool.and_eq_true] at h
    rw [residual]
    · rw [residual_of_lambdaFree n argument h.2]
    · rintro ps body rfl
      simp [lambdaFree] at h
  | .block ts, h | .tuple ts, h | .array ts, h | .sumType ts, h | .productType ts, h => by
    rw [residual, residualAll_of_lambdaFreeAll n ts h]
  | .binary l r _, h | .functionType l r, h => by
    simp only [lambdaFree, Bool.and_eq_true] at h
    rw [residual, residual_of_lambdaFree n l h.1, liftings_of_lambdaFree n l h.1, List.length_nil,
      Nat.add_zero, residual_of_lambdaFree n r h.2]
  | .arrayType e _, h => by rw [residual, residual_of_lambdaFree n e h]
  | .file _, _ | .identifier _, _ | .lambda .., _ | .number _, _ | .boolean _, _ | .text _, _
  | .typeName _, _ | .unitType, _ => rfl

theorem residualAll_of_lambdaFreeAll (n : Nat) :
    (ts : List (Tree String)) → lambdaFreeAll ts → residualAll ts n = ts
  | [], _ => rfl
  | t :: ts, h => by
    simp only [lambdaFreeAll, Bool.and_eq_true] at h
    rw [residualAll, residual_of_lambdaFree n t h.1, liftings_of_lambdaFree n t h.1,
      List.length_nil, Nat.add_zero, residualAll_of_lambdaFreeAll n ts h.2]

end

end LetLang.Lowering
