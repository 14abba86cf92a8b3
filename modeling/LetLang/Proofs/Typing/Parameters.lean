import LetLang.Proofs.Lowering.Correct
import LetLang.Proofs.Typing.Inhabits

/-!
# Parameters in the check and in calls

The check spreads the argument type of a lambda over its parameters, and a call spreads the argument
over them. The check looks at the type, the call at the value and at the number of the parameters.
They come to the same unless the argument type is the unit type, of which the check binds nothing,
or a product of one type, whose values a call does not take apart.
-/

namespace LetLang

/-- The tree is an identifier, whatever its name. -/
def Tree.IsIdentifier (t : Tree String) : Prop := ∃ x, t = .identifier x

/-- The context with some variables bound in its own scope, one after the other. -/
def Context.addVariables (c : Context) (es : List (String × Ty)) : Context :=
  { c with own := { c.own with bindings := c.own.bindings.insertAll es } }

namespace Typing

section
variable {ps : List (Tree String)} (hps : ∀ p ∈ ps, p.IsIdentifier)
include hps

theorem length_names_of_isIdentifier : (Direct.names ps).length = ps.length := by
  induction ps with
  | nil => rfl
  | cons p ps ih =>
    obtain ⟨⟨x, rfl⟩, hrest⟩ := List.forall_mem_cons.1 hps
    rw [Direct.names, List.filterMap_cons, List.length_cons]
    exact congrArg Nat.succ (ih hrest)

theorem addParameters_of_isIdentifier {us : List Ty} (hlen : us.length = ps.length) (s : State) :
    addParameters ps us s =
      .ok () { s with context := s.context.addVariables ((Direct.names ps).zip us) } := by
  induction ps generalizing us s with
  | nil => rfl
  | cons p ps ih =>
    obtain ⟨⟨x, rfl⟩, hrest⟩ := List.forall_mem_cons.1 hps
    cases us with
    | nil => cases hlen
    | cons u us =>
      have hadd : addParameter (.identifier x) u s =
          .ok () { s with context := s.context.addVariable x u } := rfl
      rw [addParameters, bind_of_ok hadd, ih hrest (Nat.succ.inj hlen)]
      rfl

/-- The types that the check binds parameters to: the parts of a product, or the one type that is
neither a product nor the unit type. -/
inductive SpreadsOver : Ty → List Ty → Prop
  | product (us : List Ty) : SpreadsOver (.product us) us
  | single {u : Ty} : (∀ us, u ≠ .product us) → u ≠ .unit → SpreadsOver u [u]

/-- Where the parameters of a lambda are bound, there are as many as types to bind them to, or the
argument type is the unit type and nothing is bound. -/
theorem addLambdaParameters_eq_ok {source : Ty} {s s₁ : State}
    (h : addLambdaParameters ps source s = .ok () s₁) :
    source = .unit ∧ s₁ = s ∨ ∃ us, SpreadsOver source us ∧ us.length = ps.length ∧
      s₁ = { s with context := s.context.addVariables ((Direct.names ps).zip us) } := by
  unfold addLambdaParameters at h
  cases source with
  | unit =>
    cases h
    exact .inl ⟨rfl, rfl⟩
  | product us =>
    dsimp only at h
    split at h
    · next hlen =>
      rw [addParameters_of_isIdentifier hps hlen] at h
      cases h
      exact .inr ⟨us, .product us, hlen, rfl⟩
    · cases h
  | _ =>
    right
    cases ps with
    | nil => cases h
    | cons p ps =>
      cases ps with
      | nil =>
        obtain ⟨x, rfl⟩ := hps p List.mem_cons_self
        cases h
        exact ⟨_, .single (by simp) (by simp), rfl, rfl⟩
      | cons q ps => cases h

end

/-- What a call gives to a parameter, as against the type that the check bound it to: a value of
this type; the whole tuple where the argument type is a product of one type; the void value, where
it is the unit type. -/
inductive Gets (source : Ty) : Option Ty → Value → Prop
  | value {u : Ty} {w : Value} : source ≠ .unit → (∀ e, source ≠ .product [e]) → w.Inhabits u →
      Gets source (some u) w
  | whole {u : Ty} {e : Value} : source = .product [u] → e.Inhabits u →
      Gets source (some u) (.tuple [e])
  | void {o : Option Ty} : source = .unit → Gets source o .void

open Direct (spread)

theorem inhabits_product {v : Value} {us : List Ty} (h : v.Inhabits (.product us)) :
    ∃ vs, v = .tuple vs ∧ List.Forall₂ Value.Inhabits vs us := by
  cases h with
  | tuple hvs => exact ⟨_, rfl, hvs⟩
  | empty hloose => cases hloose

/-- A value is spread over parameters as its type is. -/
theorem spread_gets {source : Ty} {us : List Ty} (hus : SpreadsOver source us) {v : Value}
    (hv : v.Inhabits source) :
    List.Forall₂ (fun w u => Gets source (some u) w) (spread v) us := by
  cases hus with
  | single hproduct hunit =>
    have hspread : spread v = [v] := by
      cases hv with
      | tuple => exact absurd rfl (hproduct _)
      | _ => rfl
    rw [hspread]
    exact .cons (.value hunit (fun e => hproduct [e]) hv) .nil
  | product =>
    obtain ⟨vs, rfl, hvs⟩ := inhabits_product hv
    match vs, us, hvs with
    | [], [], _ => exact .nil
    | [e], [u], .cons he .nil => exact .cons (.whole rfl he) .nil
    | v :: w :: vs, u :: x :: us, hvs =>
      exact hvs.imp fun w u hw => .value (by simp) (by simp) hw

theorem arguments_of_length {names : List String} {v : Value}
    (h : names.length = (spread v).length) (x : String) :
    Evaluation.arguments x names v = .ok (.ofList (names.zip (spread v))) := by
  rw [← Lowering.arguments_eq]
  exact if_pos h

theorem isSome_get?_zip {names : List String} {vs : List Value} (h : names.length = vs.length)
    (n : String) : ((Table.ofList (names.zip vs)).get? n).isSome ↔ n ∈ names := by
  have hkeys : (names.zip vs).map Prod.fst = names := List.map_fst_zip (Nat.le_of_eq h)
  rw [Table.get?_ofList, Option.isSome_iff_ne_none, Ne, Table.last?_eq_none_iff]
  constructor
  · intro hsome
    by_contra hn
    refine hsome fun e he heq => hn ?_
    rw [← hkeys, ← heq]
    exact List.mem_map_of_mem he
  · intro hn hnone
    rw [← hkeys] at hn
    obtain ⟨e, he, heq⟩ := List.mem_map.1 hn
    exact hnone e he heq

/-- Wherever a lambda is accepted with the argument type, a value of the type is bound to exactly
its parameters, and each gets what the check bound it to. -/
theorem arguments_of_accepted {ps : List (Tree String)} (hps : ∀ p ∈ ps, p.IsIdentifier)
    {source : Ty} {s s₁ : State} (h : addLambdaParameters ps source s = .ok () s₁)
    (hunit : source = .unit → ps.length = 1) {v : Value} (hv : v.Inhabits source) (x : String) :
    ∃ e, Evaluation.arguments x (Direct.names ps) v = .ok e ∧
      (∀ n, (e.get? n).isSome ↔ n ∈ Direct.names ps) ∧
      ∀ n w, e.get? n = some w → Gets source (s₁.context.own.bindings.get? n) w := by
  have hlen := length_names_of_isIdentifier hps
  rcases addLambdaParameters_eq_ok hps h with ⟨rfl, rfl⟩ | ⟨us, hus, hcount, rfl⟩
  · obtain rfl : v = .void := by
      cases hv with
      | void => rfl
      | empty hloose => cases hloose
    have hspread : (Direct.names ps).length = (spread Value.void).length := hlen.trans (hunit rfl)
    refine ⟨_, arguments_of_length hspread x, isSome_get?_zip hspread, fun n w hw => ?_⟩
    rw [Table.get?_ofList] at hw
    have hmem := (List.of_mem_zip (Table.mem_of_last?_eq_some hw)).2
    obtain rfl := List.mem_singleton.1 hmem
    exact .void rfl
  · have hgets := spread_gets hus hv
    have hspread : (Direct.names ps).length = (spread v).length := by
      rw [hlen, hgets.length_eq, hcount]
    refine ⟨_, arguments_of_length hspread x, isSome_get?_zip hspread, fun n w hw => ?_⟩
    have hrel := Table.rel_last? (R := fun w u => Gets source (some u) w)
      (forall₂_zip hgets (Direct.names ps)) n
    rw [Table.get?_ofList] at hw
    rw [hw] at hrel
    change Gets source ((s.context.own.bindings.insertAll _).get? n) w
    rw [Table.insertAll, Table.get?_foldl_insert]
    cases hlast : Table.last? n ((Direct.names ps).zip us) with
    | none =>
      rw [hlast] at hrel
      cases hrel
    | some u =>
      rw [hlast] at hrel
      cases hrel with
      | some hu => exact hu

end Typing

end LetLang
