import LetLang.Proofs.Lowering.Nesting
import LetLang.Proofs.Typing.Rules

/-!
# Files that are derived apply no lambda on the spot

The rules have no case for an applied lambda, so that lambdas never nest in what they derive.
-/

namespace LetLang.Typing

mutual

theorem nesting_of_denote : (t : Tree String) → ∀ {u : Ty}, denote t = some u → t.nesting = 0
  | .typeName _, _, _ => rfl
  | .arrayType element _, _, h => by
    obtain ⟨e, he, -⟩ := Option.map_eq_some_iff.1 h
    exact nesting_of_denote element he
  | .productType ts, _, h => by
    obtain ⟨us, hus, -⟩ := Option.map_eq_some_iff.1 h
    exact nestingAll_of_denoteAll ts hus
  | .functionType source target, _, h => by
    obtain ⟨a, ha, h₁⟩ := Option.bind_eq_some_iff.1 h
    obtain ⟨b, hb, -⟩ := Option.bind_eq_some_iff.1 h₁
    rw [Tree.nesting, nesting_of_denote source ha, nesting_of_denote target hb, Nat.max_self]

theorem nestingAll_of_denoteAll :
    (ts : List (Tree String)) → ∀ {us : List Ty}, denoteAll ts = some us → Tree.nestingAll ts = 0
  | [], _, _ => rfl
  | t :: ts, _, h => by
    obtain ⟨u, hu, h₁⟩ := Option.bind_eq_some_iff.1 h
    obtain ⟨us, hus, -⟩ := Option.bind_eq_some_iff.1 h₁
    rw [Tree.nestingAll, nesting_of_denote t hu, nestingAll_of_denoteAll ts hus, Nat.max_self]

end

theorem nestingAll_parameters {ps : List (Tree String)} (h : ∀ p ∈ ps, p.IsParameter) :
    Tree.nestingAll ps = 0 := by
  have hle : Tree.nestingAll ps ≤ 0 := by
    rw [Tree.nestingAll_le_iff]
    intro p hp
    obtain ⟨n, rfl, -⟩ := h p hp
    exact Nat.le_refl 0
  omega

/-- Where the rules derive something for the tree, it applies no lambda on the spot. -/
def DerivedFlat (t : Tree String) : Prop :=
  ∀ ⦃Q : Site → Prop⦄ ⦃s s' : Names⦄ ⦃d : Demand⦄ ⦃o : Option Ty⦄, Derives Q s t d o s' →
    t.nesting = 0

section
variable {Q : Site → Prop} {s s' : Names} {d : Demand}

theorem nestingAll_of_derivesBlock {ts : List (Tree String)} (hts : ∀ t ∈ ts, DerivedFlat t)
    {o : Option Ty} (h : DerivesBlock Q s ts d o s') : Tree.nestingAll ts = 0 := by
  induction ts generalizing s with
  | nil => rfl
  | cons t ts ih =>
    obtain ⟨ht, hrest⟩ := List.forall_mem_cons.1 hts
    rw [Tree.nestingAll]
    cases h with
    | last hlast =>
      rw [ht hlast]
      rfl
    | cons hfirst hothers => rw [ht hfirst, ih hrest hothers, Nat.max_self]

theorem nestingAll_of_derivesAll {ts : List (Tree String)} (hts : ∀ t ∈ ts, DerivedFlat t)
    {us : List Ty} (h : DerivesAll Q s d ts us s') : Tree.nestingAll ts = 0 := by
  induction ts generalizing s us with
  | nil => rfl
  | cons t ts ih =>
    obtain ⟨ht, hrest⟩ := List.forall_mem_cons.1 hts
    cases h with
    | cons hfirst hothers => rw [Tree.nestingAll, ht hfirst, ih hrest hothers, Nat.max_self]

end

theorem derivedFlat_function {i type body : Tree String} {ps : List (Tree String)}
    (hps : ∀ p ∈ ps, p.IsParameter) (hbody : DerivedFlat body) :
    DerivedFlat (.bind i type (.lambda ps body)) := by
  intro Q s s' d o h
  cases h with
  | localFunction _ _ _ hb => rw [Tree.nesting, nestingAll_parameters hps, hbody hb, Nat.max_self]
  | bind hne => exact absurd rfl (hne ps body)

theorem derivedFlat_bind {i type value : Tree String} (hne : ∀ ps b, value ≠ .lambda ps b)
    (hvalue : DerivedFlat value) : DerivedFlat (.bind i type value) := by
  intro Q s s' d o h
  cases h with
  | localFunction => exact absurd rfl (hne _ _)
  | bind _ htype hv =>
    rw [Tree.nesting]
    · rw [nesting_of_denote _ htype, hvalue hv, Nat.max_self]
    · exact fun _ ps b _ => hne ps b

theorem derivedFlat_binary {left right : Tree String} (op : Operator) (hl : DerivedFlat left)
    (hr : DerivedFlat right) : DerivedFlat (.binary left right op) := by
  intro Q s s' d o h
  cases h with
  | index hleft hright | binary _ hleft hright =>
    rw [Tree.nesting, hl hleft, hr hright, Nat.max_self]

theorem derivedFlat_apply {f argument : Tree String} (ha : DerivedFlat argument) :
    DerivedFlat (.apply f argument) := by
  intro Q s s' d o h
  cases h with
  | apply _ _ hargument =>
    have hflat := ha hargument
    exact hflat

theorem derivedFlat_block {ts : List (Tree String)} (hts : ∀ t ∈ ts, DerivedFlat t) :
    DerivedFlat (.block ts) := by
  intro Q s s' d o h
  cases h with
  | block hs => exact nestingAll_of_derivesBlock hts hs

theorem derivedFlat_tuple {ts : List (Tree String)} (hts : ∀ t ∈ ts, DerivedFlat t) :
    DerivedFlat (.tuple ts) := by
  intro Q s s' d o h
  cases h with
  | tuple hs => exact nestingAll_of_derivesAll hts hs

theorem derivedFlat_array {ts : List (Tree String)} (hts : ∀ t ∈ ts, DerivedFlat t) :
    DerivedFlat (.array ts) := by
  intro Q s s' d o h
  cases h with
  | emptyArray => rfl
  | array _ hs | arrayAs _ hs => exact nestingAll_of_derivesAll hts hs

theorem derivedFlat_of_isParsed {t : Tree String} (hp : t.IsParsed) : DerivedFlat t := by
  induction hp using Tree.IsParsed.inductionOnBodies with
  | identifier | text | number | boolean => exact fun _ _ _ _ _ _ => rfl
  | array _ ih => exact derivedFlat_array ih
  | tuple _ _ ih => exact derivedFlat_tuple ih
  | block _ _ ih => exact derivedFlat_block ih
  | lambda =>
    intro Q s s' d o h
    cases h
  | apply _ _ _ ih => exact derivedFlat_apply ih
  | binary op _ _ ihl ihr => exact derivedFlat_binary op ihl ihr
  | function _ _ hps _ ih => exact derivedFlat_function hps ih
  | bind _ _ _ hne ih => exact derivedFlat_bind hne ih

/-- Files that pass the check apply no lambda on the spot. -/
theorem nesting_of_derivesFile {Q : Site → Prop} {base : String → Table String Ty}
    {k k' : Table String Ty} {ts : List (Tree String)} (h : DerivesFile Q base k ts k')
    (hp : ∀ t ∈ ts, t.IsParsed) : ∀ t ∈ ts, t.nesting = 0 := by
  induction h with
  | nil => simp
  | cons _ _ hbody _ ih =>
    obtain ⟨hpt, hps⟩ := List.forall_mem_cons.1 hp
    refine List.forall_mem_cons.2 ⟨?_, ih hps⟩
    cases hpt with
    | bind _ _ hlambda =>
    cases hlambda with
    | lambda hparameters hpbody =>
      have hflat := derivedFlat_of_isParsed hpbody hbody
      rw [Tree.nesting, nestingAll_parameters hparameters, hflat, Nat.max_self]

end LetLang.Typing
