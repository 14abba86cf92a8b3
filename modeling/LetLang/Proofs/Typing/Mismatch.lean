import LetLang.Proofs.Session
import LetLang.Proofs.Grammar.Shape
import LetLang.Proofs.Typing.Algorithm
import LetLang.Proofs.Typing.Display
import LetLang.Proofs.Typing.Overlay

/-!
# The two types of a mismatch

A check that finds a type where another one has to be shows both. In a parsed file both are ordinary
types, since functions that are written take no functions and the natives take texts and numbers.
So the shown types are told apart by their texts, unless they differ in nothing but empty products
and unit types.
-/

namespace LetLang

open Ty (Ordinary)

/-- Two types that a message shows, with the words before each of them. -/
structure Comparison where
  before : String
  left : Ty
  between : String
  right : Ty

namespace TypeError

/-- The types that are compared, if the failure is that they are different. -/
def comparison? : TypeError → Option Comparison
  | .bindingMismatch declared actual =>
    some ⟨"Let type ", declared, " does not match expression type ", actual⟩
  | .operandMismatch left right => some ⟨"BinOp types must be equal, got ", left, " and ", right⟩
  | .bodyMismatch actual declared =>
    some ⟨"Lambda body type ", actual, " does not match return type ", declared⟩
  | .argumentMismatch parameter argument =>
    some ⟨"Param type ", parameter, " does not match argument type ", argument⟩
  | _ => none

theorem message_of_comparison {e : TypeError} {c : Comparison} (h : e.comparison? = some c) :
    e.message = c.before ++ c.left.display ++ c.between ++ c.right.display := by
  cases e <;> cases h <;> rfl

/-- If the failure is that two types are different, they are, and both are ordinary. -/
def ComparesOrdinary (e : TypeError) : Prop :=
  ∀ c, e.comparison? = some c → c.left ≠ c.right ∧ c.left.Ordinary ∧ c.right.Ordinary

theorem comparesOrdinary_of_none {e : TypeError} (h : e.comparison? = none) :
    e.ComparesOrdinary := by
  intro c hc
  rw [h] at hc
  cases hc

end TypeError

namespace Typing

/-- The variables of the context have ordinary types, and so have the type names, which stand for
no functions. -/
structure State.Ordinary (s : State) : Prop where
  bound : ∀ x, ∀ u ∈ s.context.typeOf? x, u.Ordinary
  named : ∀ x, ∀ u ∈ s.context.typeNamed? x, u.isFunction = false ∧ u.Ordinary

variable {α β : Type} {R : α → Prop} {S : β → Prop} {x : Step α}

/-- A result with the property, or a failure among ordinary types. -/
inductive ResultOrdinary (R : α → Prop) : EStateM.Result TypeError State α → Prop
  | ok {a : α} {s : State} : R a → s.Ordinary → ResultOrdinary R (.ok a s)
  | error {e : TypeError} {s : State} : e.ComparesOrdinary → ResultOrdinary R (.error e s)

/-- Where all types are ordinary they stay so, and the step gives a result with the property. -/
def KeepsOrdinary (R : α → Prop) (x : Step α) : Prop :=
  ∀ s : State, s.Ordinary → ResultOrdinary R (x s)

namespace KeepsOrdinary

theorem pure {a : α} (h : R a) : KeepsOrdinary R (pure a) := fun _ hs => .ok h hs

theorem mismatch {e : TypeError} (h : e.ComparesOrdinary) : KeepsOrdinary R (throw e) :=
  fun _ _ => .error h

/-- Other failures show no types that were compared. -/
theorem throw {e : TypeError} (h : e.comparison? = none) : KeepsOrdinary R (throw e) :=
  .mismatch (TypeError.comparesOrdinary_of_none h)

theorem bind {f : α → Step β} (h : KeepsOrdinary R x) (hf : ∀ a, R a → KeepsOrdinary S (f a)) :
    KeepsOrdinary S (x >>= f) := by
  intro s hs
  have hx := h s hs
  change ResultOrdinary S (EStateM.bind x f s)
  unfold EStateM.bind
  generalize x s = r at hx
  cases hx with
  | ok ha hs₁ => exact hf _ ha _ hs₁
  | error he => exact .error he

theorem mono {R' : α → Prop} (h : KeepsOrdinary R x) (hR : ∀ a, R a → R' a) :
    KeepsOrdinary R' x := by
  intro s hs
  have hx := h s hs
  generalize x s = r at hx
  cases hx with
  | ok ha hs₁ => exact .ok (hR _ ha) hs₁
  | error he => exact .error he

theorem get {f : State → Step α} (hf : ∀ s, s.Ordinary → KeepsOrdinary R (f s)) :
    KeepsOrdinary R (MonadState.get >>= f) := fun s hs => hf s hs s hs

theorem yielded {P : Ty → Prop} (place : TypedPlace) {o : Option Ty} (ho : ∀ u ∈ o, P u) :
    KeepsOrdinary P (yielded place o) := by
  cases o with
  | none => exact .throw rfl
  | some u => exact .pure (ho u rfl)

theorem addVariable (name : String) {u : Ty} (hu : u.Ordinary) :
    KeepsOrdinary (fun _ => True) (addVariable name u) := by
  intro s hs
  refine .ok trivial ⟨fun y v hv => ?_, hs.named⟩
  rw [Context.typeOf?_addVariable] at hv
  split at hv
  · cases hv
    exact hu
  · exact hs.bound y v hv

end KeepsOrdinary

theorem keepsOrdinary_addParameter (p : Tree String) {u : Ty} (hu : u.Ordinary) :
    KeepsOrdinary (fun _ => True) (addParameter p u) := by
  unfold addParameter
  split
  · exact .addVariable _ hu
  · exact .throw rfl

theorem keepsOrdinary_addParameters (ps : List (Tree String)) {us : List Ty}
    (hus : ∀ u ∈ us, u.Ordinary) : KeepsOrdinary (fun _ => True) (addParameters ps us) := by
  induction ps generalizing us with
  | nil => exact .pure trivial
  | cons p ps ih =>
    cases us with
    | nil => exact .pure trivial
    | cons u us =>
      obtain ⟨hu, hus⟩ := List.forall_mem_cons.1 hus
      exact (keepsOrdinary_addParameter p hu).bind fun _ _ => ih hus

theorem keepsOrdinary_addLambdaParameters (ps : List (Tree String)) {source : Ty}
    (hsource : source.Ordinary) :
    KeepsOrdinary (fun _ => True) (addLambdaParameters ps source) := by
  unfold addLambdaParameters
  split
  · split
    · cases hsource with
      | product hus => exact keepsOrdinary_addParameters ps hus
    · exact .throw rfl
  · exact .pure trivial
  · split
    · exact keepsOrdinary_addParameter _ hsource
    · exact .throw rfl

theorem keepsOrdinary_numberType (demanded : Option Ty) :
    KeepsOrdinary Ty.Ordinary (numberType demanded) := by
  unfold numberType
  split
  · exact .pure (.atom _)
  · split
    · exact .pure (.atom _)
    · exact .throw rfl
  · exact .throw rfl

theorem keepsOrdinary_elementDemand {demanded : Option Ty} (h : ∀ u ∈ demanded, u.Ordinary) :
    KeepsOrdinary (fun d => ∀ u ∈ d.type?, u.Ordinary) (elementDemand demanded) := by
  unfold elementDemand
  split
  · exact .pure (by simp [Demand.type?])
  · next element _ =>
    refine .pure fun u hu => ?_
    cases hu
    cases h _ rfl with
    | array helement => exact helement
  · exact .throw rfl

section
variable {P : Ty → Prop} {ts : List (Tree String)} {d : Demand}

theorem keepsOrdinary_checkAll (place : TypedPlace)
    (hts : ∀ t ∈ ts, KeepsOrdinary (fun o => ∀ u ∈ o, P u) (check t d)) :
    KeepsOrdinary (fun us => ∀ u ∈ us, P u) (checkAll place d ts) := by
  induction ts with
  | nil =>
    unfold checkAll
    exact .pure (by simp)
  | cons t ts ih =>
    obtain ⟨ht, hts⟩ := List.forall_mem_cons.1 hts
    unfold checkAll
    refine ht.bind fun o ho => (KeepsOrdinary.yielded place ho).bind fun u hu => ?_
    exact (ih hts).bind fun us hus => .pure (List.forall_mem_cons.2 ⟨hu, hus⟩)

theorem keepsOrdinary_checkEqual (first : Ty)
    (hts : ∀ t ∈ ts, KeepsOrdinary (fun o => ∀ u ∈ o, P u) (check t d)) :
    KeepsOrdinary (fun _ => True) (checkEqual first d ts) := by
  induction ts with
  | nil =>
    unfold checkEqual
    exact .pure trivial
  | cons t ts ih =>
    obtain ⟨ht, hts⟩ := List.forall_mem_cons.1 hts
    unfold checkEqual
    refine ht.bind fun o ho => (KeepsOrdinary.yielded _ ho).bind fun u _ => ?_
    split
    · exact ih hts
    · exact .throw rfl

end

/-- The check of the tree yields nothing or an ordinary type with the property. -/
def YieldsType (P : Ty → Prop) (t : Tree String) : Prop :=
  KeepsOrdinary (fun o => ∀ u ∈ o, P u ∧ u.Ordinary) (check t .nothing)

theorem yieldsType_of_isTypeAtom {t : Tree String} (h : t.IsTypeAtom) :
    YieldsType (fun u => u.isFunction = false) t := by
  have hname : ∀ n, YieldsType (fun u => u.isFunction = false) (.typeName n) := by
    intro n
    unfold YieldsType check
    refine .get fun s hs => ?_
    split
    · next u hu =>
      refine .pure fun v hv => ?_
      cases hv
      exact hs.named n u hu
    · exact .throw rfl
  cases h with
  | name => exact hname _
  | array =>
    unfold YieldsType check
    refine (hname _).bind fun o ho => (KeepsOrdinary.yielded _ ho).bind fun u hu => .pure ?_
    rintro _ ⟨⟩
    exact ⟨rfl, .array hu.2⟩

theorem yieldsType_of_isTypeLink {t : Tree String} (h : t.IsTypeLink) :
    YieldsType (fun u => u.isFunction = false) t := by
  cases h with
  | atom h => exact yieldsType_of_isTypeAtom h
  | product _ hts =>
    unfold YieldsType check
    have hall := keepsOrdinary_checkAll .productElement
      fun t ht => yieldsType_of_isTypeAtom (hts t ht)
    refine hall.bind fun us hus => .pure ?_
    rintro _ ⟨⟩
    exact ⟨rfl, .product fun u hu => (hus u hu).2⟩

theorem yieldsType_of_isTypeOption {t : Tree String} (h : t.IsTypeOption) :
    YieldsType (fun _ => True) t := by
  induction h with
  | link h =>
    exact (yieldsType_of_isTypeLink h).mono fun o ho u hu => ⟨trivial, (ho u hu).2⟩
  | function hs _ ih =>
    unfold YieldsType check
    refine (yieldsType_of_isTypeLink hs).bind fun o ho => ?_
    refine (KeepsOrdinary.yielded _ ho).bind fun a ha => ?_
    refine ih.bind fun o ho => (KeepsOrdinary.yielded _ ho).bind fun b hb => .pure ?_
    rintro _ ⟨⟩
    exact ⟨trivial, .function ha.1 ha.2 hb.2⟩

theorem yieldsType_of_isTypeExpression {t : Tree String} (h : t.IsTypeExpression) :
    YieldsType (fun _ => True) t := by
  cases h with
  | option h => exact yieldsType_of_isTypeOption h
  | sum =>
    unfold YieldsType check
    exact .pure (by simp)

/-- Under a demand for an ordinary type the check of the tree yields nothing or one. -/
def YieldsOrdinary (t : Tree String) : Prop :=
  ∀ d : Demand, (∀ u ∈ d.type?, u.Ordinary) →
    KeepsOrdinary (fun o => ∀ u ∈ o, u.Ordinary) (check t d)

namespace YieldsOrdinary

variable {t : Tree String} {ts : List (Tree String)}

theorem free (h : YieldsOrdinary t) :
    KeepsOrdinary (fun o => ∀ u ∈ o, u.Ordinary) (check t .nothing) :=
  h .nothing (by simp [Demand.type?])

theorem exactly (h : YieldsOrdinary t) {u : Ty} (hu : u.Ordinary) :
    KeepsOrdinary (fun o => ∀ u ∈ o, u.Ordinary) (check t (.exactly u)) := by
  refine h (.exactly u) fun v hv => ?_
  cases hv
  exact hu

theorem identifier (x : String) : YieldsOrdinary (.identifier x) := by
  intro d _
  unfold check
  refine .get fun s hs => ?_
  split
  · next u hu =>
    refine .pure fun v hv => ?_
    cases hv
    exact hs.bound x u hu
  · exact .throw rfl

theorem array (hts : ∀ t ∈ ts, YieldsOrdinary t) : YieldsOrdinary (.array ts) := by
  intro d hd
  cases ts with
  | nil =>
    unfold check
    split
    · next u hu =>
      refine .pure fun v hv => ?_
      cases hv
      exact hd u hu
    · exact .throw rfl
  | cons t ts =>
    obtain ⟨ht, hts⟩ := List.forall_mem_cons.1 hts
    unfold check
    refine (keepsOrdinary_elementDemand hd).bind fun e he => ?_
    refine (ht e he).bind fun o ho => (KeepsOrdinary.yielded _ ho).bind fun u hu => ?_
    refine (keepsOrdinary_checkEqual u fun t ht => hts t ht e he).bind fun _ _ => .pure ?_
    rintro _ ⟨⟩
    exact .array hu

theorem tuple (hts : ∀ t ∈ ts, YieldsOrdinary t) : YieldsOrdinary (.tuple ts) := by
  intro d _
  unfold check
  have hall := keepsOrdinary_checkAll .tupleElement
    fun t ht => hts t ht .open (by simp [Demand.type?])
  refine hall.bind fun us hus => .pure ?_
  rintro _ ⟨⟩
  exact .product hus

theorem block (hts : ∀ t ∈ ts, YieldsOrdinary t) : YieldsOrdinary (.block ts) := by
  intro d hd
  unfold check
  induction ts with
  | nil =>
    unfold checkBlock
    exact .throw rfl
  | cons t ts ih =>
    obtain ⟨ht, hrest⟩ := List.forall_mem_cons.1 hts
    cases ts with
    | nil =>
      unfold checkBlock
      exact ht d hd
    | cons u us =>
      unfold checkBlock
      exact ht.free.bind fun _ _ => ih hrest

/-- The types of a body and of a result are compared where both are ordinary. -/
theorem lambda {body : Tree String} (hbody : YieldsOrdinary body) (ps : List (Tree String)) :
    YieldsOrdinary (.lambda ps body) := by
  intro d hd
  unfold check
  split
  · exact .throw rfl
  · exact .throw rfl
  · next source target =>
    cases hd _ rfl with
    | function hlink hsource htarget =>
      refine (keepsOrdinary_addLambdaParameters ps hsource).bind fun _ _ => ?_
      refine (hbody.exactly htarget).bind fun o ho => ?_
      refine (KeepsOrdinary.yielded _ ho).bind fun u hu => ?_
      split
      · refine .pure ?_
        rintro _ ⟨⟩
        exact .function hlink hsource htarget
      · next hne =>
        refine .mismatch ?_
        rintro _ ⟨⟩
        exact ⟨hne, hu, htarget⟩
  · exact .throw rfl

theorem apply {callee argument : Tree String} (hcallee : YieldsOrdinary callee)
    (hargument : YieldsOrdinary argument) : YieldsOrdinary (.apply callee argument) := by
  intro d _
  unfold check
  refine hcallee.free.bind fun o ho => ?_
  split
  · next source target =>
    cases ho _ rfl with
    | function hlink hsource htarget =>
      refine hargument.free.bind fun o ho => ?_
      split
      · exact .throw rfl
      · next u =>
        split
        · refine .pure ?_
          rintro _ ⟨⟩
          exact htarget
        · next hne =>
          refine .mismatch ?_
          rintro _ ⟨⟩
          exact ⟨fun h => hne h.symm, hsource, ho u rfl⟩
  · exact .throw rfl

theorem binary {left right : Tree String} (op : Operator) (hleft : YieldsOrdinary left)
    (hright : YieldsOrdinary right) : YieldsOrdinary (.binary left right op) := by
  intro d hd
  cases op with
  | index =>
    unfold check
    refine hleft.free.bind fun o ho => (KeepsOrdinary.yielded _ ho).bind fun u hu => ?_
    cases hu with
    | array helement =>
      refine (hright.exactly (.atom .ui64)).bind fun _ _ => .pure ?_
      rintro _ ⟨⟩
      exact helement
    | _ => exact .throw rfl
  | times | plus =>
    unfold check
    refine (hleft d hd).bind fun o ho => (KeepsOrdinary.yielded _ ho).bind fun u hu => ?_
    refine (hright d hd).bind fun o ho => (KeepsOrdinary.yielded _ ho).bind fun v hv => ?_
    split
    · refine .pure ?_
      rintro _ ⟨⟩
      exact hu
    · next hne =>
      refine .mismatch ?_
      rintro _ ⟨⟩
      exact ⟨hne, hu, hv⟩

theorem bind {id type value : Tree String} (htype : type.IsTypeExpression)
    (hvalue : YieldsOrdinary value) : YieldsOrdinary (.bind id type value) := by
  intro d _
  unfold check
  refine (yieldsType_of_isTypeExpression htype).bind fun o ho => ?_
  cases o with
  | none => exact .throw rfl
  | some declared =>
    obtain ⟨-, hdeclared⟩ := ho declared rfl
    dsimp only
    cases id.name? with
    | none => exact .throw rfl
    | some name =>
      refine (KeepsOrdinary.addVariable name hdeclared).bind fun _ _ => ?_
      refine (hvalue.exactly hdeclared).bind fun o ho => ?_
      cases o with
      | none => exact .throw rfl
      | some actual =>
        dsimp only
        split
        · have hfits : KeepsOrdinary (fun _ => True)
              (modify fun s => { s with fitted := (name, declared) :: s.fitted } : Step Unit) :=
            fun _ hs => .ok trivial ⟨hs.bound, hs.named⟩
          exact hfits.bind fun _ _ => .pure (by simp)
        · next hne =>
          refine .mismatch ?_
          rintro _ ⟨⟩
          exact ⟨fun h => hne h.symm, hdeclared, ho actual rfl⟩

end YieldsOrdinary

/-- The types that the check of a parsed tree comes across are ordinary. -/
theorem yieldsOrdinary_of_isParsed {t : Tree String} (h : t.IsParsed) : YieldsOrdinary t := by
  induction h with
  | identifier => exact .identifier _
  | number =>
    intro d _
    unfold check
    refine (keepsOrdinary_numberType d.type?).bind fun u hu => .pure ?_
    rintro _ ⟨⟩
    exact hu
  | boolean | text =>
    intro d _
    unfold check
    refine .pure ?_
    rintro _ ⟨⟩
    exact .atom _
  | array _ ih => exact .array ih
  | tuple _ _ ih => exact .tuple ih
  | block _ _ ih => exact .block ih
  | lambda _ _ ih => exact ih.lambda _
  | apply _ _ ihf iha => exact ihf.apply iha
  | binary op _ _ ihl ihr => exact ihl.binary op ihr
  | bind _ htype _ ih => exact .bind htype ih

theorem keepsOrdinary_checkStatements {ts : List (Tree String)} (hts : ∀ t ∈ ts, t.IsParsed) :
    KeepsOrdinary (fun _ => True) (checkStatements ts) := by
  induction ts with
  | nil =>
    unfold checkStatements
    exact .pure trivial
  | cons t ts ih =>
    obtain ⟨ht, hrest⟩ := List.forall_mem_cons.1 hts
    unfold checkStatements
    exact (yieldsOrdinary_of_isParsed ht).free.bind fun _ _ => ih hrest

theorem ordinary_of_mem_standard {n : Native} (h : n ∈ Native.standard) : n.type.Ordinary := by
  have htypes : ∀ n ∈ Native.standard, n.type = .function (.atom .text) .unit ∨
      n.type = .function (.atom .text) (.atom .text) ∨
      n.type = .function (.atom .ui8) (.atom .text) := by decide
  rcases htypes n h with heq | heq | heq <;> rw [heq]
  · exact .function rfl (.atom _) .unit
  · exact .function rfl (.atom _) (.atom _)
  · exact .function rfl (.atom _) (.atom _)

/-- The natives and the type names that every program has are of ordinary types. -/
theorem ordinary_prelude : State.Ordinary ⟨contextOf preludeTypes, []⟩ := by
  refine ⟨fun x u hu => ?_, fun x u hu => ?_⟩
  · rw [Context.typeOf?_of_single _ _ rfl] at hu
    have hmem : (x, u) ∈ nativeTypes := by
      refine Table.mem_of_last?_eq_some ?_
      rw [← Table.get?_ofList]
      exact hu
    obtain ⟨n, hn, heq⟩ := List.mem_map.1 hmem
    cases heq
    exact ordinary_of_mem_standard hn
  · rw [Context.typeNamed?_of_single _ _ rfl] at hu
    have hmem : (x, u) ∈ [("ui8", Ty.atom .ui8), ("string", .atom .text)] := by
      refine Table.mem_of_last?_eq_some ?_
      rw [← Table.get?_ofList]
      exact hu
    simp only [List.mem_cons, Prod.mk.injEq, List.not_mem_nil, or_false] at hmem
    rcases hmem with ⟨-, rfl⟩ | ⟨-, rfl⟩ <;> exact ⟨rfl, .atom _⟩

/-- A check with the standard prelude that fails because two types are different shows the two, and
their texts are different unless the types differ in nothing but empty products and unit types. -/
theorem mismatch_texts_differ_iff {source : String} {ts : List (Tree String)} {t t' : Transcript}
    {e : TypeError} {c : Comparison} (hp : parseSource source = .ok ts)
    (hc : Session.check ts [] t = .error (.check e) t') (he : e.comparison? = some c) :
    e.message = c.before ++ c.left.display ++ c.between ++ c.right.display ∧
      c.left ≠ c.right ∧
      (c.left.display ≠ c.right.display ↔ c.left.unitless ≠ c.right.unitless) := by
  obtain ⟨s, hs⟩ := Session.check_eq_error ofPrelude_nil hc
  have hfile : KeepsOrdinary (fun _ => True) (check (.file ts) .nothing) := by
    unfold check
    exact (keepsOrdinary_checkStatements (isParsed_of_parseSource hp)).bind fun _ _ => .pure trivial
  have hresult := hfile _ ordinary_prelude
  have hscope : contextOf preludeTypes = ⟨(contextOf preludeTypes).own, []⟩ := rfl
  rw [hscope, hs] at hresult
  cases hresult with
  | error hcompares =>
    obtain ⟨hne, hleft, hright⟩ := hcompares c he
    exact ⟨TypeError.message_of_comparison he, hne, not_congr (hleft.display_eq_iff hright)⟩

/-- What a native gives back is of the unit type, and empty brackets declare the empty product: the
two are different and are shown alike. -/
theorem unit_mismatch_shows_one_text : ∃ ts t e c,
    parseSource "let x : () = std.print \"a\";" = .ok ts ∧
    Session.check ts [] ⟨"", []⟩ = .error (.check e) t ∧ e.comparison? = some c ∧
    e.message = "Let type () does not match expression type ()" ∧
    c.left ≠ c.right ∧ c.left.display = c.right.display := by
  let declaration : Tree String := .bind (.identifier "x") (.productType [])
    (.apply (.identifier "std.print") (.text "a"))
  have hparse : parseSource "let x : () = std.print \"a\";" = .ok [declaration] := by cbv
  obtain ⟨t, hcheck⟩ : ∃ t, Session.check [declaration] [] ⟨"", []⟩ =
      .error (.check (.bindingMismatch (.product []) .unit)) t := ⟨_, by cbv⟩
  obtain ⟨hmessage, hne, hiff⟩ := mismatch_texts_differ_iff hparse hcheck rfl
  have hsame : (Ty.product []).display = Ty.unit.display := by
    by_contra hdiffer
    exact hiff.1 hdiffer rfl
  exact ⟨_, t, _, _, hparse, hcheck, rfl, by rw [hmessage]; decide, hne, hsame⟩

end Typing

end LetLang
