import LetLang.Proofs.Grammar.Shape

/-!
# Trees inside of trees

A tree occurs in another one if it is reached by going from a tree to one of its parts, any number
of times. Types and parameters are parts like all others.
-/

namespace LetLang.Tree

/-- The nodes directly below a node, in the order in which they are written. -/
@[simp] def parts {τ : Type} : Tree τ → List (Tree τ)
  | .file statements => statements
  | .bind id type value => [id, type, value]
  | .binary left right _ => [left, right]
  | .lambda parameters body => parameters ++ [body]
  | .apply callee argument => [callee, argument]
  | .tuple elements => elements
  | .array elements => elements
  | .block statements => statements
  | .sumType options => options
  | .productType elements => elements
  | .functionType source target => [source, target]
  | .arrayType element _ => [element]
  | .identifier _ | .number _ | .boolean _ | .text _ | .typeName _ | .unitType => []

/-- The first tree is the second one, or occurs in a part of it. -/
inductive Occurs (u : Tree String) : Tree String → Prop
  | self : Occurs u u
  | part {p t : Tree String} : p ∈ t.parts → Occurs u p → Occurs u t

variable {u v t : Tree String}

theorem Occurs.trans (h : u.Occurs v) (h' : v.Occurs t) : u.Occurs t := by
  induction h' with
  | self => exact h
  | part hp _ ih => exact .part hp ih

theorem occurs_of_mem_parts (h : u ∈ t.parts) : u.Occurs t := .part h .self

theorem occurs_iff : u.Occurs t ↔ u = t ∨ ∃ p ∈ t.parts, u.Occurs p := by
  constructor
  · intro h
    cases h with
    | self => exact .inl rfl
    | part hp hu => exact .inr ⟨_, hp, hu⟩
  · rintro (rfl | ⟨p, hp, hu⟩)
    · exact .self
    · exact .part hp hu

/-- Somewhere in the tree a lambda literal stands where something is called. -/
def AppliesLambda (t : Tree String) : Prop :=
  ∃ ps body argument, (Tree.apply (.lambda ps body) argument).Occurs t

theorem AppliesLambda.mono (h : u.AppliesLambda) (hu : u.Occurs t) : t.AppliesLambda := by
  obtain ⟨ps, body, argument, hoccurs⟩ := h
  exact ⟨ps, body, argument, hoccurs.trans hu⟩

theorem appliesLambda_iff :
    t.AppliesLambda ↔
      (∃ ps body argument, t = .apply (.lambda ps body) argument) ∨
        ∃ p ∈ t.parts, p.AppliesLambda := by
  constructor
  · rintro ⟨ps, body, argument, h⟩
    rcases occurs_iff.1 h with rfl | ⟨p, hp, hin⟩
    · exact .inl ⟨ps, body, argument, rfl⟩
    · exact .inr ⟨p, hp, ps, body, argument, hin⟩
  · rintro (⟨ps, body, argument, rfl⟩ | ⟨p, hp, happlies⟩)
    · exact ⟨ps, body, argument, .self⟩
    · exact happlies.mono (occurs_of_mem_parts hp)

/-- A tree that is no application applies a lambda only in its parts. -/
theorem not_appliesLambda (hshape : ∀ f a, t ≠ .apply f a)
    (hparts : ∀ p ∈ t.parts, ¬ p.AppliesLambda) : ¬ t.AppliesLambda := by
  rw [appliesLambda_iff]
  rintro (⟨ps, body, argument, rfl⟩ | ⟨p, hp, happlies⟩)
  · exact hshape _ _ rfl
  · exact hparts p hp happlies

/-- The parts of a type expression are type expressions. -/
theorem IsTypeExpression.of_mem_parts (h : t.IsTypeExpression) (hu : u ∈ t.parts) :
    u.IsTypeExpression := by
  cases h with
  | option h =>
    cases h with
    | link h =>
      cases h with
      | atom h =>
        cases h with
        | name => cases hu
        | array hn =>
          obtain rfl := List.mem_singleton.1 hu
          exact .option (.link (.atom (.name hn)))
      | product _ hts => exact .option (.link (.atom (hts u hu)))
    | function hs ht =>
      rcases (by simpa using hu : u = _ ∨ u = _) with rfl | rfl
      · exact .option (.link hs)
      · exact .option ht
  | sum _ hts => exact .option (hts u hu)

/-- The parts of a parsed tree are parsed trees and type expressions. -/
theorem IsParsed.of_mem_parts (h : t.IsParsed) (hu : u ∈ t.parts) :
    u.IsParsed ∨ u.IsTypeExpression := by
  have hparameter : ∀ {p : Tree String}, p.IsParameter → p.IsParsed := by
    rintro _ ⟨n, rfl, hn⟩
    exact .identifier hn
  cases h with
  | identifier | text | number | boolean => cases hu
  | array hts | tuple _ hts | block _ hts => exact .inl (hts u hu)
  | lambda hps hb =>
    rcases List.mem_append.1 hu with hu | hu
    · exact .inl (hparameter (hps u hu))
    · obtain rfl := List.mem_singleton.1 hu
      exact .inl hb
  | apply hf ha =>
    rcases (by simpa using hu : u = _ ∨ u = _) with rfl | rfl
    · exact .inl hf
    · exact .inl ha
  | binary _ hl hr =>
    rcases (by simpa using hu : u = _ ∨ u = _) with rfl | rfl
    · exact .inl hl
    · exact .inl hr
  | bind hi ht hv =>
    rcases List.mem_cons.1 hu with rfl | hu
    · exact .inl (hparameter hi)
    · rcases (by simpa using hu : u = _ ∨ u = _) with rfl | rfl
      · exact .inr ht
      · exact .inl hv

/-- What holds of a tree and goes over to parts holds of all that occurs in the tree. -/
theorem Occurs.inherit {P : Tree String → Prop} (hparts : ∀ {t p}, P t → p ∈ t.parts → P p)
    (hu : u.Occurs t) (ht : P t) : P u := by
  induction hu with
  | self => exact ht
  | part hp _ ih => exact ih (hparts ht hp)

theorem Occurs.isTypeExpression (hu : u.Occurs t) (ht : t.IsTypeExpression) :
    u.IsTypeExpression :=
  hu.inherit (P := IsTypeExpression) IsTypeExpression.of_mem_parts ht

/-- In a parsed tree occur parsed trees and type expressions. -/
theorem Occurs.isParsed_or_isTypeExpression (hu : u.Occurs t) (ht : t.IsParsed) :
    u.IsParsed ∨ u.IsTypeExpression := by
  refine hu.inherit (P := fun u => u.IsParsed ∨ u.IsTypeExpression) ?_ (.inl ht)
  rintro t p (ht | ht) hp
  · exact ht.of_mem_parts hp
  · exact .inr (ht.of_mem_parts hp)

theorem IsParameter.not_appliesLambda (h : t.IsParameter) : ¬ t.AppliesLambda := by
  obtain ⟨n, rfl, -⟩ := h
  exact Tree.not_appliesLambda (by simp) (by simp)

theorem IsTypeExpression.not_appliesLambda (h : t.IsTypeExpression) : ¬ t.AppliesLambda := by
  rintro ⟨ps, body, argument, hu⟩
  rcases hu.isTypeExpression h with ⟨⟨⟨⟨⟩⟩⟩⟩

end LetLang.Tree
