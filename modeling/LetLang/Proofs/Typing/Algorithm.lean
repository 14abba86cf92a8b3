import LetLang.Proofs.Lowering.Builds
import LetLang.Proofs.Typing.Derivable

/-!
# The check follows the rules

On the statements of a source text that can be lowered, the check succeeds exactly if the rules
derive a typing, and both know the same variables afterwards.
-/

namespace LetLang.Typing

def preludeTypes : Table String Ty := .ofList nativeTypes

theorem ofPrelude_nil : Scope.ofPrelude [] = .ok (contextOf preludeTypes).own := rfl

theorem checkStatements_of_derives {Q : Site → Prop} {base : String → Table String Ty}
    {ts : List (Tree String)} {k k' : Table String Ty} (h : DerivesFile Q base k ts k')
    (hp : ∀ t ∈ ts, t.IsParsed) (fitted : List (String × Ty)) :
    ∃ fitted', checkStatements ts ⟨contextOf k, fitted⟩ = .ok () ⟨contextOf k', fitted'⟩ := by
  induction h generalizing fitted with
  | nil => exact ⟨fitted, rfl⟩
  | cons htype hes hbody _ ih =>
    obtain ⟨hpt, hps⟩ := List.forall_mem_cons.1 hp
    cases hpt with
    | bind _ htypes hlambda =>
    cases hlambda with
    | lambda hparameters hpbody =>
      have hlambda := passes_lambda hparameters (source_ne_unit_of_denote htype) hes
        (passes_of_derives hpbody hbody)
      obtain ⟨f₁, ht⟩ := passes_bind htypes htype hlambda .nothing fitted
      obtain ⟨f₂, hts⟩ := ih hps f₁
      refine ⟨f₂, ?_⟩
      unfold checkStatements
      rw [bind_of_ok ht]
      exact hts

theorem derives_of_checkStatements {nodes : Int → Option Node} {R : String → Int → Prop}
    (base : String → Table String Ty) {ts : List (Tree String)} {is : List Int}
    (hr : List.Forall₂ (Lowering.Represents nodes R) ts is) (hp : ∀ t ∈ ts, t.IsParsed)
    (hdef : ∀ t ∈ ts, t.IsDefinition) {k : Table String Ty} {fitted : List (String × Ty)}
    {st : State} (h : checkStatements ts ⟨contextOf k, fitted⟩ = .ok () st) :
    ∃ k', DerivesFile (fun _ => True) base k ts k' := by
  induction hr generalizing k fitted with
  | nil => exact ⟨k, .nil⟩
  | @cons t i ts is hrt _ ih =>
    obtain ⟨hpt, hps⟩ := List.forall_mem_cons.1 hp
    obtain ⟨⟨x, type, ps, body, rfl⟩, hds⟩ := List.forall_mem_cons.1 hdef
    unfold checkStatements at h
    obtain ⟨o, s₁, ht, hts⟩ := bind_eq_ok h
    cases hrt with
    | bind hne => exact absurd rfl (hne ps body)
    | function _ _ hrb =>
    cases hpt with
    | bind _ htypes hlambda =>
    cases hlambda with
    | lambda hparameters hpbody =>
      obtain ⟨u, s₂, hu, rfl, hvalue, hst⟩ := check_bind_eq_ok htypes ht
      have hunit : ∀ a b, u = .function a b → a ≠ .unit := by
        rintro a b rfl
        exact source_ne_unit_of_denote hu
      obtain ⟨a, b, es, rfl, hes, hbody⟩ := check_lambda_eq_ok hparameters hunit hvalue
      obtain ⟨s', f', rfl, hd⟩ := derivable_of_isParsed hpbody _ hrb hbody ((base x).insertAll es)
      obtain ⟨context, f₁⟩ := s₁
      cases hst
      obtain ⟨k', hk'⟩ := ih hps hds hts
      have htrue : (fun _ : Site => IsKept x ts → True) = fun _ => True := by
        funext
        simp
      exact ⟨k', .cons hu hes (htrue ▸ hd) hk'⟩

/-- Whatever the predicate asks for, a file that the rules derive passes the check. -/
theorem check_file_of_derives {Q : Site → Prop} {base : String → Table String Ty}
    {ts : List (Tree String)} {k' : Table String Ty} (hp : ∀ t ∈ ts, t.IsParsed)
    (h : DerivesFile Q base preludeTypes ts k') :
    ∃ o st, check (.file ts) .nothing ⟨contextOf preludeTypes, []⟩ = .ok o st := by
  obtain ⟨fitted', hts⟩ := checkStatements_of_derives h hp []
  refine ⟨none, ⟨contextOf k', fitted'⟩, ?_⟩
  unfold check
  rw [bind_of_ok hts]
  rfl

/-- With the predicate that always holds, the rules derive exactly the files that pass the check. -/
theorem check_file_iff_derives {source : String} {ts : List (Tree String)} {l : Lowering.Lowered}
    (hp : parseSource source = .ok ts) (hl : LetLang.lower (.file ts) = .ok l)
    (base : String → Table String Ty) :
    (∃ o st, check (.file ts) .nothing ⟨contextOf preludeTypes, []⟩ = .ok o st) ↔
      ∃ k', DerivesFile (fun _ => True) base preludeTypes ts k' := by
  have hparsed := isParsed_of_parseSource hp
  constructor
  · rintro ⟨o, st, h⟩
    unfold check at h
    obtain ⟨_, s₁, hts, -⟩ := bind_eq_ok h
    obtain ⟨is, -, hdef, -, hrep⟩ := Lowering.represents_of_lower hl
    have hr := (hrep (fun _ _ => True) fun _ _ _ _ _ _ => trivial).1
    exact derives_of_checkStatements base hr hparsed hdef hts
  · rintro ⟨k', hk'⟩
    exact check_file_of_derives hparsed hk'

end LetLang.Typing
