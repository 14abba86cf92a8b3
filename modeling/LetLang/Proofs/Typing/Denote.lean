import LetLang.Proofs.Grammar.Shape
import LetLang.Proofs.Step
import LetLang.Proofs.Table
import LetLang.Typing.Check

/-!
# The types that type expressions denote

The check knows two type names and never learns another one, so the type that a type expression
denotes depends on the expression alone.
-/

namespace LetLang.Typing

def contextOf (known : Table String Ty) : Context := ⟨⟨known, Scope.standardTypes⟩, []⟩

mutual

def denote : Tree String → Option Ty
  | .typeName name => Scope.standardTypes.get? name
  | .arrayType element length => (denote element).map fun t => .array t length
  | .productType elements => (denoteAll elements).map .product
  | .functionType source target => do return .function (← denote source) (← denote target)
  | _ => none

def denoteAll : List (Tree String) → Option (List Ty)
  | [] => some []
  | t :: ts => do return (← denote t) :: (← denoteAll ts)

end

theorem yielded_some (place : TypedPlace) (t : Ty) (s : State) :
    yielded place (some t) s = .ok t s := rfl

theorem yielded_eq_ok {place : TypedPlace} {o : Option Ty} {s s' : State} {t : Ty}
    (h : yielded place o s = .ok t s') : o = some t ∧ s' = s := by
  cases o with
  | none => cases h
  | some u =>
    cases h
    exact ⟨rfl, rfl⟩

/-- The forms of the types that can be written. -/
theorem denote_eq_some {t : Tree String} {u : Ty} (h : denote t = some u) :
    (∃ a, u = .atom a) ∨ (∃ e n, u = .array e n) ∨
      (∃ ts us, t = .productType ts ∧ u = .product us ∧ denoteAll ts = some us) ∨
      ∃ source target a b, t = .functionType source target ∧ u = .function a b ∧
        denote source = some a ∧ denote target = some b := by
  cases t with
  | typeName name =>
    left
    have hmem : (name, u) ∈ [("ui8", Ty.atom .ui8), ("string", .atom .text)] := by
      rw [denote, Scope.standardTypes, Table.get?_ofList] at h
      exact Table.mem_of_last?_eq_some h
    simp only [List.mem_cons, Prod.mk.injEq, List.not_mem_nil, or_false] at hmem
    rcases hmem with ⟨-, rfl⟩ | ⟨-, rfl⟩ <;> exact ⟨_, rfl⟩
  | arrayType element length =>
    right; left
    obtain ⟨e, -, rfl⟩ := Option.map_eq_some_iff.1 h
    exact ⟨e, length, rfl⟩
  | productType ts =>
    right; right; left
    obtain ⟨us, hus, rfl⟩ := Option.map_eq_some_iff.1 h
    exact ⟨ts, us, rfl, rfl, hus⟩
  | functionType source target =>
    right; right; right
    obtain ⟨a, ha, h₁⟩ := Option.bind_eq_some_iff.1 h
    obtain ⟨b, hb, h₂⟩ := Option.bind_eq_some_iff.1 h₁
    cases h₂
    exact ⟨source, target, a, b, rfl, rfl, ha, hb⟩
  | _ => cases h

theorem denote_ne_unit (t : Tree String) : denote t ≠ some .unit := by
  intro h
  rcases denote_eq_some h with ⟨_, hu⟩ | ⟨_, _, hu⟩ | ⟨_, _, -, hu, -⟩ | ⟨_, _, _, _, -, hu, -⟩ <;>
    cases hu

theorem denote_functionType {t : Tree String} {a b : Ty} (h : denote t = some (.function a b)) :
    ∃ source target, t = .functionType source target ∧ denote source = some a ∧
      denote target = some b := by
  rcases denote_eq_some h with
    ⟨_, hu⟩ | ⟨_, _, hu⟩ | ⟨_, _, -, hu, -⟩ | ⟨s, t, _, _, ht, hu, ha, hb⟩ <;> cases hu
  exact ⟨s, t, ht, ha, hb⟩

theorem source_ne_unit_of_denote {t : Tree String} {a b : Ty}
    (h : denote t = some (.function a b)) : a ≠ .unit := by
  rintro rfl
  obtain ⟨source, _, -, hsource, -⟩ := denote_functionType h
  exact denote_ne_unit source hsource

theorem length_denoteAll {ts : List (Tree String)} {us : List Ty} (h : denoteAll ts = some us) :
    us.length = ts.length := by
  induction ts generalizing us with
  | nil =>
    cases h
    rfl
  | cons t ts ih =>
    obtain ⟨u, -, h₁⟩ := Option.bind_eq_some_iff.1 h
    obtain ⟨us, hus, h₂⟩ := Option.bind_eq_some_iff.1 h₁
    cases h₂
    rw [List.length_cons, ih hus, List.length_cons]

/-- The argument type of a written function type is never a product of one type. -/
theorem length_ne_one_of_denote {t : Tree String} (ht : t.IsTypeExpression) {us : List Ty} {b : Ty}
    (h : denote t = some (.function (.product us) b)) : us.length ≠ 1 := by
  obtain ⟨source, target, rfl, hsource, -⟩ := denote_functionType h
  cases ht with
  | option ht =>
  cases ht with
  | link ht => cases ht with | atom ht => cases ht
  | function hlink =>
    rcases denote_eq_some hsource with
      ⟨_, hu⟩ | ⟨_, _, hu⟩ | ⟨ts, _, rfl, hu, hus⟩ | ⟨_, _, _, _, -, hu, -⟩ <;> cases hu
    cases hlink with
    | atom h => cases h
    | product hlen =>
      rw [length_denoteAll hus]
      exact hlen

/-- A check of the tree yields a type exactly if the tree denotes it, and changes nothing. -/
def ChecksAsType (t : Tree String) : Prop :=
  ∀ known fitted u s', check t .nothing ⟨contextOf known, fitted⟩ = .ok (some u) s' ↔
    denote t = some u ∧ s' = ⟨contextOf known, fitted⟩

theorem check_typeName (name : String) (known : Table String Ty) (fitted : List (String × Ty)) :
    check (.typeName name) .nothing ⟨contextOf known, fitted⟩ =
      match Scope.standardTypes.get? name with
      | some t => .ok (some t) ⟨contextOf known, fitted⟩
      | none => .error (.unknownType name) ⟨contextOf known, fitted⟩ := by
  have hnamed : (contextOf known).typeNamed? name = Scope.standardTypes.get? name := by
    simp [Context.typeNamed?, Context.scopes, contextOf]
  unfold check
  rw [← hnamed]
  change (match (contextOf known).typeNamed? name with
    | some t => pure (some t)
    | none => throw (.unknownType name) : Step (Option Ty)) _ = _
  cases (contextOf known).typeNamed? name <;> rfl

theorem checksAsType_typeName (name : String) : ChecksAsType (.typeName name) := by
  intro known fitted u s'
  rw [check_typeName, denote]
  cases Scope.standardTypes.get? name <;> simp [eq_comm]

theorem checksAsType_arrayType {t : Tree String} (ht : ChecksAsType t) (length : Int) :
    ChecksAsType (.arrayType t length) := by
  intro known fitted u s'
  unfold check
  rw [denote]
  constructor
  · intro h
    obtain ⟨o, s₁, ho, h₁⟩ := bind_eq_ok h
    obtain ⟨e, s₂, he, h₂⟩ := bind_eq_ok h₁
    obtain ⟨rfl, rfl⟩ := yielded_eq_ok he
    obtain ⟨hd, rfl⟩ := (ht known fitted e s₂).1 ho
    cases h₂
    exact ⟨by rw [hd]; rfl, rfl⟩
  · rintro ⟨h, rfl⟩
    obtain ⟨e, hd, rfl⟩ := Option.map_eq_some_iff.1 h
    rw [bind_of_ok ((ht known fitted e _).2 ⟨hd, rfl⟩)]
    rfl

theorem checksAsType_functionType {source target : Tree String} (hs : ChecksAsType source)
    (ht : ChecksAsType target) : ChecksAsType (.functionType source target) := by
  intro known fitted u s'
  unfold check
  rw [denote]
  constructor
  · intro h
    obtain ⟨o, s₁, ho, h₁⟩ := bind_eq_ok h
    obtain ⟨a, s₂, ha, h₂⟩ := bind_eq_ok h₁
    obtain ⟨rfl, rfl⟩ := yielded_eq_ok ha
    obtain ⟨hda, rfl⟩ := (hs known fitted a s₂).1 ho
    obtain ⟨o, s₃, ho, h₃⟩ := bind_eq_ok h₂
    obtain ⟨b, s₄, hb, h₄⟩ := bind_eq_ok h₃
    obtain ⟨rfl, rfl⟩ := yielded_eq_ok hb
    obtain ⟨hdb, rfl⟩ := (ht known fitted b s₄).1 ho
    cases h₄
    exact ⟨by rw [hda, hdb]; rfl, rfl⟩
  · rintro ⟨h, rfl⟩
    obtain ⟨a, hda, h⟩ := Option.bind_eq_some_iff.1 h
    obtain ⟨b, hdb, h⟩ := Option.bind_eq_some_iff.1 h
    cases h
    rw [bind_of_ok ((hs known fitted a _).2 ⟨hda, rfl⟩), bind_of_ok (yielded_some _ _ _),
      bind_of_ok ((ht known fitted b _).2 ⟨hdb, rfl⟩)]
    rfl

theorem checkAll_eq_ok_iff {ts : List (Tree String)} (hts : ∀ t ∈ ts, ChecksAsType t)
    (place : TypedPlace) (known : Table String Ty) (fitted : List (String × Ty)) (us : List Ty)
    (s' : State) :
    checkAll place .nothing ts ⟨contextOf known, fitted⟩ = .ok us s' ↔
      denoteAll ts = some us ∧ s' = ⟨contextOf known, fitted⟩ := by
  induction ts generalizing us s' with
  | nil =>
    unfold checkAll denoteAll
    constructor
    · intro h
      cases h
      exact ⟨rfl, rfl⟩
    · rintro ⟨h, rfl⟩
      cases h
      rfl
  | cons t ts ih =>
    obtain ⟨ht, hts⟩ := List.forall_mem_cons.1 hts
    unfold checkAll denoteAll
    constructor
    · intro h
      obtain ⟨o, s₁, ho, h₁⟩ := bind_eq_ok h
      obtain ⟨u, s₂, hu, h₂⟩ := bind_eq_ok h₁
      obtain ⟨rfl, rfl⟩ := yielded_eq_ok hu
      obtain ⟨hd, rfl⟩ := (ht known fitted u s₂).1 ho
      obtain ⟨us', s₃, hus, h₃⟩ := bind_eq_ok h₂
      obtain ⟨hds, rfl⟩ := (ih hts us' s₃).1 hus
      cases h₃
      exact ⟨by rw [hd, hds]; rfl, rfl⟩
    · rintro ⟨h, rfl⟩
      obtain ⟨u, hd, h⟩ := Option.bind_eq_some_iff.1 h
      obtain ⟨us', hds, h⟩ := Option.bind_eq_some_iff.1 h
      cases h
      rw [bind_of_ok ((ht known fitted u _).2 ⟨hd, rfl⟩), bind_of_ok (yielded_some _ _ _),
        bind_of_ok ((ih hts us' _).2 ⟨hds, rfl⟩)]
      rfl

theorem checksAsType_productType {ts : List (Tree String)} (hts : ∀ t ∈ ts, ChecksAsType t) :
    ChecksAsType (.productType ts) := by
  intro known fitted u s'
  unfold check
  rw [denote]
  constructor
  · intro h
    obtain ⟨us, s₁, hus, h₁⟩ := bind_eq_ok h
    obtain ⟨hds, rfl⟩ := (checkAll_eq_ok_iff hts _ known fitted us s₁).1 hus
    cases h₁
    exact ⟨by rw [hds]; rfl, rfl⟩
  · rintro ⟨h, rfl⟩
    obtain ⟨us, hds, rfl⟩ := Option.map_eq_some_iff.1 h
    rw [bind_of_ok ((checkAll_eq_ok_iff hts _ known fitted us _).2 ⟨hds, rfl⟩)]
    rfl

theorem checksAsType_sumType (ts : List (Tree String)) : ChecksAsType (.sumType ts) := by
  intro known fitted u s'
  have hd : denote (.sumType ts) = none := rfl
  unfold check
  rw [hd]
  constructor
  · intro h
    cases h
  · rintro ⟨h, -⟩
    cases h

theorem checksAsType_of_isTypeAtom {t : Tree String} (h : t.IsTypeAtom) : ChecksAsType t := by
  cases h with
  | name => exact checksAsType_typeName _
  | array => exact checksAsType_arrayType (checksAsType_typeName _) _

theorem checksAsType_of_isTypeLink {t : Tree String} (h : t.IsTypeLink) : ChecksAsType t := by
  cases h with
  | atom h => exact checksAsType_of_isTypeAtom h
  | product _ h => exact checksAsType_productType fun t ht => checksAsType_of_isTypeAtom (h t ht)

theorem checksAsType_of_isTypeExpression {t : Tree String} (h : t.IsTypeExpression) :
    ChecksAsType t := by
  cases h with
  | sum => exact checksAsType_sumType _
  | option h =>
    induction h with
    | link h => exact checksAsType_of_isTypeLink h
    | function h _ ih => exact checksAsType_functionType (checksAsType_of_isTypeLink h) ih

end LetLang.Typing
