import LetLang.Proofs.Step
import LetLang.Typing.Check

/-!
# Contexts inside contexts

A check sees its context only through the types of names, and changes it only by binding variables.
So it goes in a context inside others as in one flat scope, in which the scopes lie over each other
and the nearest one counts. Of the context, only the bindings of the nearest scope are written, and
no variable is lost.
-/

namespace LetLang

namespace Table

variable {κ α : Type} [DecidableEq κ]

/-- The table in which the entries of the first table lie over those of the others. -/
def overlay : List (Table κ α) → Table κ α
  | [] => ∅
  | t :: ts => t.entries.foldr (fun e u => u.insert e.1 e.2) (overlay ts)

theorem get?_foldr_insert (t u : Table κ α) (key : κ) :
    (t.entries.foldr (fun e u => u.insert e.1 e.2) u).get? key =
      (t.get? key).or (u.get? key) := by
  obtain ⟨entries⟩ := t
  unfold get?
  induction entries with
  | nil => rfl
  | cons e entries ih =>
    rw [List.foldr_cons, insert, lookup_enter, ih, lookup]
    split <;> rfl

theorem get?_overlay (ts : List (Table κ α)) (key : κ) :
    (overlay ts).get? key = ts.findSome? fun t => t.get? key := by
  induction ts with
  | nil => rfl
  | cons t ts ih =>
    rw [overlay, get?_foldr_insert, ih, List.findSome?_cons]
    cases t.get? key <;> rfl

end Table

namespace Context

variable (c : Context) (x : String)

/-- The context of one scope in which the scopes of `c` lie over each other, the nearest on top. -/
def flat : Context :=
  ⟨⟨.overlay (c.scopes.map Scope.bindings), .overlay (c.scopes.map Scope.types)⟩, []⟩

theorem typeOf?_eq_or : c.typeOf? x =
    (c.own.bindings.get? x).or (c.outer.findSome? fun s => s.bindings.get? x) := by
  unfold typeOf? scopes
  rw [List.findSome?_cons]
  cases c.own.bindings.get? x <;> rfl

theorem typeOf?_flat : c.flat.own.bindings.get? x = c.typeOf? x := by
  rw [flat, Table.get?_overlay, List.findSome?_map]
  rfl

theorem typeNamed?_flat : c.flat.own.types.get? x = c.typeNamed? x := by
  rw [flat, Table.get?_overlay, List.findSome?_map]
  rfl

theorem typeOf?_of_single (h : c.outer = []) : c.typeOf? x = c.own.bindings.get? x := by
  rw [typeOf?_eq_or, h, List.findSome?_nil, Option.or_none]

theorem typeNamed?_of_single (h : c.outer = []) : c.typeNamed? x = c.own.types.get? x := by
  unfold typeNamed? scopes
  rw [h, List.findSome?_cons]
  cases c.own.types.get? x <;> rfl

/-- A variable that is bound in the nearest scope has this type, and the others keep theirs. -/
theorem typeOf?_addVariable (u : Ty) (y : String) :
    (c.addVariable x u).typeOf? y = if x = y then some u else c.typeOf? y := by
  rw [typeOf?_eq_or, typeOf?_eq_or]
  change ((c.own.bindings.insert x u).get? y).or _ = _
  rw [Table.get?_insert]
  split <;> rfl

end Context

namespace Typing

/-- What makes checks from two related states go alike: names have the same types, and the states
stay related when a variable is bound and when a binding is found to fit. -/
structure Simulation (R : State → State → Prop) : Prop where
  typeOf? : ∀ {s s'}, R s s' → ∀ x, s.context.typeOf? x = s'.context.typeOf? x
  typeNamed? : ∀ {s s'}, R s s' → ∀ x, s.context.typeNamed? x = s'.context.typeNamed? x
  addVariable : ∀ {s s'}, R s s' → ∀ x u, R { s with context := s.context.addVariable x u }
    { s' with context := s'.context.addVariable x u }
  fits : ∀ {s s'}, R s s' → ∀ b, R { s with fitted := b :: s.fitted }
    { s' with fitted := b :: s'.fitted }

variable {R : State → State → Prop} {α β : Type}

inductive SameResult (R : State → State → Prop) :
    EStateM.Result TypeError State α → EStateM.Result TypeError State α → Prop
  | ok (a : α) {s s' : State} : R s s' → SameResult R (.ok a s) (.ok a s')
  | error (e : TypeError) {s s' : State} : R s s' → SameResult R (.error e s) (.error e s')

def Respects (R : State → State → Prop) (x : Step α) : Prop :=
  ∀ s s', R s s' → SameResult R (x s) (x s')

namespace Respects

theorem pure (a : α) : Respects R (pure a) := fun _ _ h => .ok a h

theorem throw (e : TypeError) : Respects R (throw e : Step α) := fun _ _ h => .error e h

theorem bind {x : Step α} {f : α → Step β} (h : Respects R x) (hf : ∀ a, Respects R (f a)) :
    Respects R (x >>= f) := by
  intro s s' hs
  have hx := h s s' hs
  change SameResult R (EStateM.bind x f s) (EStateM.bind x f s')
  unfold EStateM.bind
  generalize x s = r, x s' = r' at hx
  cases hx with
  | ok a h₁ => exact hf a _ _ h₁
  | error e h₁ => exact .error e h₁

/-- A step may look at the state, as long as it does the same in related ones. -/
theorem get {f : State → Step α} (hsame : ∀ s s', R s s' → f s = f s')
    (hf : ∀ s, Respects R (f s)) : Respects R (MonadState.get >>= f) := by
  intro s s' hs
  change SameResult R (f s s) (f s' s')
  rw [← hsame s s' hs]
  exact hf s s s' hs

end Respects

theorem respects_yielded (place : TypedPlace) (o : Option Ty) : Respects R (yielded place o) := by
  cases o with
  | none => exact .throw _
  | some t => exact .pure t

theorem respects_numberType (o : Option Ty) : Respects R (numberType o) := by
  unfold numberType
  split
  · exact .pure _
  · split
    · exact .pure _
    · exact .throw _
  · exact .throw _

theorem respects_elementDemand (o : Option Ty) : Respects R (elementDemand o) := by
  unfold elementDemand
  split
  · exact .pure _
  · exact .pure _
  · exact .throw _

namespace Simulation

section
variable (hR : Simulation R)
include hR

theorem respects_addVariable (x : String) (u : Ty) : Respects R (Typing.addVariable x u) :=
  fun _ _ h => .ok () (hR.addVariable h x u)

theorem respects_addParameter (p : Tree String) (u : Ty) : Respects R (addParameter p u) := by
  unfold addParameter
  split
  · exact hR.respects_addVariable _ u
  · exact .throw _

theorem respects_addParameters (ps : List (Tree String)) (us : List Ty) :
    Respects R (addParameters ps us) := by
  induction ps generalizing us with
  | nil => exact .pure ()
  | cons p ps ih =>
    cases us with
    | nil => exact .pure ()
    | cons u us => exact (hR.respects_addParameter p u).bind fun _ => ih us

theorem respects_addLambdaParameters (ps : List (Tree String)) (source : Ty) :
    Respects R (addLambdaParameters ps source) := by
  unfold addLambdaParameters
  split
  · split
    · exact hR.respects_addParameters ps _
    · exact .throw _
  · exact .pure ()
  · split
    · exact hR.respects_addParameter _ _
    · exact .throw _

variable {type value body : Tree String}

theorem respects_bind (id : Tree String) (htype : Respects R (check type .nothing))
    (hvalue : ∀ d, Respects R (check value d)) (d : Demand) :
    Respects R (check (.bind id type value) d) := by
  unfold check
  refine htype.bind fun o => ?_
  cases o with
  | none => exact .throw _
  | some declared =>
    dsimp only
    cases id.name? with
    | none => exact .throw _
    | some x =>
      refine (hR.respects_addVariable x declared).bind fun _ => (hvalue _).bind fun o => ?_
      cases o with
      | none => exact .throw _
      | some actual =>
        dsimp only
        split
        · have hfits : Respects R
              (modify fun s => { s with fitted := (x, declared) :: s.fitted } : Step Unit) :=
            fun _ _ h => .ok () (hR.fits h (x, declared))
          exact hfits.bind fun _ => .pure none
        · exact .throw _

theorem respects_identifier (x : String) (d : Demand) : Respects R (check (.identifier x) d) := by
  unfold check
  refine .get (fun s s' h => by rw [hR.typeOf? h x]) fun s => ?_
  split
  · exact .pure _
  · exact .throw _

theorem respects_typeName (x : String) (d : Demand) : Respects R (check (.typeName x) d) := by
  unfold check
  refine .get (fun s s' h => by rw [hR.typeNamed? h x]) fun s => ?_
  split
  · exact .pure _
  · exact .throw _

theorem respects_lambda (ps : List (Tree String)) (hbody : ∀ d, Respects R (check body d))
    (d : Demand) : Respects R (check (.lambda ps body) d) := by
  unfold check
  split
  · exact .throw _
  · exact .throw _
  · refine (hR.respects_addLambdaParameters ps _).bind fun _ => ?_
    refine (hbody _).bind fun o => (respects_yielded _ o).bind fun actual => ?_
    split
    · exact .pure _
    · exact .throw _
  · exact .throw _

end

section
variable {left right callee argument : Tree String}

theorem respects_binary (op : Operator) (hleft : ∀ d, Respects R (check left d))
    (hright : ∀ d, Respects R (check right d)) (d : Demand) :
    Respects R (check (.binary left right op) d) := by
  cases op with
  | index =>
    unfold check
    refine (hleft .nothing).bind fun o => (respects_yielded _ o).bind fun t => ?_
    cases t with
    | array element length => exact (hright _).bind fun _ => .pure _
    | _ => exact .throw _
  | times | plus =>
    unfold check
    refine (hleft d).bind fun o => (respects_yielded _ o).bind fun t => ?_
    refine (hright d).bind fun o => (respects_yielded _ o).bind fun u => ?_
    split
    · exact .pure _
    · exact .throw _

theorem respects_apply (hcallee : ∀ d, Respects R (check callee d))
    (hargument : ∀ d, Respects R (check argument d)) (d : Demand) :
    Respects R (check (.apply callee argument) d) := by
  unfold check
  refine (hcallee .nothing).bind fun o => ?_
  split
  · refine (hargument .nothing).bind fun o => ?_
    split
    · exact .throw _
    · split
      · exact .pure _
      · exact .throw _
  · exact .throw _

end

mutual

theorem respects_check (hR : Simulation R) : (t : Tree String) → (d : Demand) →
    Respects R (check t d)
  | .file ts, d => by
    unfold check
    exact (respects_checkStatements hR ts).bind fun _ => .pure none
  | .bind id type value, d =>
    hR.respects_bind id (respects_check hR type .nothing) (respects_check hR value) d
  | .block ts, d => by
    unfold check
    exact respects_checkBlock hR ts d
  | .identifier x, d => hR.respects_identifier x d
  | .binary left right op, d =>
    respects_binary op (respects_check hR left) (respects_check hR right) d
  | .lambda ps body, d => hR.respects_lambda ps (respects_check hR body) d
  | .apply callee argument, d =>
    respects_apply (respects_check hR callee) (respects_check hR argument) d
  | .number n, d => by
    unfold check
    exact (respects_numberType d.type?).bind fun u => .pure (some u)
  | .boolean b, d => by
    unfold check
    exact .pure _
  | .text s, d => by
    unfold check
    exact .pure _
  | .tuple ts, d => by
    unfold check
    exact (respects_checkAll hR .tupleElement .open ts).bind fun us => .pure _
  | .array [], d => by
    unfold check
    split
    · exact .pure _
    · exact .throw _
  | .array (t :: ts), d => by
    unfold check
    refine (respects_elementDemand d.type?).bind fun d' => ?_
    refine (respects_check hR t d').bind fun o => (respects_yielded _ o).bind fun u => ?_
    exact (respects_checkEqual hR u d' ts).bind fun _ => .pure _
  | .sumType ts, d => by
    unfold check
    exact .pure _
  | .productType ts, d => by
    unfold check
    exact (respects_checkAll hR .productElement .nothing ts).bind fun us => .pure _
  | .typeName x, d => hR.respects_typeName x d
  | .functionType source target, d => by
    unfold check
    refine (respects_check hR source .nothing).bind fun o => (respects_yielded _ o).bind fun u => ?_
    refine (respects_check hR target .nothing).bind fun o => (respects_yielded _ o).bind fun v => ?_
    exact .pure _
  | .arrayType element length, d => by
    unfold check
    refine (respects_check hR element .nothing).bind fun o => ?_
    exact (respects_yielded _ o).bind fun u => .pure _
  | .unitType, d => by
    unfold check
    exact .pure _

theorem respects_checkStatements (hR : Simulation R) : (ts : List (Tree String)) →
    Respects R (checkStatements ts)
  | [] => .pure ()
  | t :: ts => by
    unfold checkStatements
    exact (respects_check hR t .nothing).bind fun _ => respects_checkStatements hR ts

theorem respects_checkBlock (hR : Simulation R) : (ts : List (Tree String)) → (d : Demand) →
    Respects R (checkBlock ts d)
  | [], d => by
    unfold checkBlock
    exact .throw _
  | [t], d => by
    unfold checkBlock
    exact respects_check hR t d
  | t :: u :: ts, d => by
    unfold checkBlock
    exact (respects_check hR t .nothing).bind fun _ => respects_checkBlock hR (u :: ts) d

theorem respects_checkAll (hR : Simulation R) (place : TypedPlace) (d : Demand) :
    (ts : List (Tree String)) → Respects R (checkAll place d ts)
  | [] => .pure []
  | t :: ts => by
    unfold checkAll
    refine (respects_check hR t d).bind fun o => (respects_yielded place o).bind fun u => ?_
    exact (respects_checkAll hR place d ts).bind fun us => .pure _

theorem respects_checkEqual (hR : Simulation R) (u : Ty) (d : Demand) :
    (ts : List (Tree String)) → Respects R (checkEqual u d ts)
  | [] => .pure ()
  | t :: ts => by
    unfold checkEqual
    refine (respects_check hR t d).bind fun o => (respects_yielded _ o).bind fun v => ?_
    split
    · exact respects_checkEqual hR u d ts
    · exact .throw _

end

end Simulation

/-- A check that began in `c` has reached `s`, and in the flat scope of `c` it has reached `s'`. -/
structure Overlays (c : Context) (s s' : State) : Prop where
  typeOf? : ∀ x, s.context.typeOf? x = s'.context.typeOf? x
  typeNamed? : ∀ x, s.context.typeNamed? x = s'.context.typeNamed? x
  fitted : s.fitted = s'.fitted
  outer : s.context.outer = c.outer
  types : s.context.own.types = c.own.types
  bound : ∀ x, (c.own.bindings.get? x).isSome → (s.context.own.bindings.get? x).isSome
  single : s'.context.outer = []

theorem Overlays.start (c : Context) : Overlays c ⟨c, []⟩ ⟨c.flat, []⟩ where
  typeOf? x := by rw [c.flat.typeOf?_of_single x rfl, c.typeOf?_flat]
  typeNamed? x := by rw [c.flat.typeNamed?_of_single x rfl, c.typeNamed?_flat]
  fitted := rfl
  outer := rfl
  types := rfl
  bound _ h := h
  single := rfl

theorem simulation_overlays (c : Context) : Simulation (Overlays c) where
  typeOf? h := h.typeOf?
  typeNamed? h := h.typeNamed?
  addVariable h x u :=
    { typeOf? := fun y => by rw [Context.typeOf?_addVariable, Context.typeOf?_addVariable, h.typeOf?]
      typeNamed? := h.typeNamed?
      fitted := h.fitted
      outer := h.outer
      types := h.types
      bound := fun y hy => by
        change ((Table.insert _ x u).get? y).isSome
        rw [Table.get?_insert]
        split
        · rfl
        · exact h.bound y hy
      single := h.single }
  fits h b := { h with fitted := congrArg (b :: ·) h.fitted }

/-- In a context inside others a check has the type or the failure that it has in the flat scope of
the context. Whether it fails or not, it reaches the same variables: the scopes, laid over each
other again, bind what the flat scope binds. The scopes around the context and its type names are
as they were, and no variable is lost. -/
theorem run_eq_run_flat (t : Tree String) (d : Demand) (c : Context) :
    (run t d c).1 = (run t d c.flat).1 ∧
      (∀ x, (run t d c).2.context.flat.own.bindings.get? x =
        (run t d c.flat).2.context.own.bindings.get? x) ∧
      (run t d c.flat).2.context.outer = [] ∧
      (run t d c).2.context.outer = c.outer ∧
      (run t d c).2.context.own.types = c.own.types ∧
      (∀ x, (c.own.bindings.get? x).isSome → ((run t d c).2.context.own.bindings.get? x).isSome) ∧
      ∀ x, (c.typeOf? x).isSome → ((run t d c).2.context.typeOf? x).isSome := by
  have hreached : (run t d c).1 = (run t d c.flat).1 ∧
      Overlays c (run t d c).2 (run t d c.flat).2 := by
    have hsame := (simulation_overlays c).respects_check t d _ _ (.start c)
    unfold run
    generalize check t d ⟨c, []⟩ = r, check t d ⟨c.flat, []⟩ = r' at hsame
    cases hsame with
    | ok o h => exact ⟨rfl, h⟩
    | error e h => exact ⟨rfl, h⟩
  obtain ⟨hresult, h⟩ := hreached
  refine ⟨hresult, fun x => ?_, h.single, h.outer, h.types, h.bound, fun x hx => ?_⟩
  · rw [Context.typeOf?_flat, h.typeOf?, Context.typeOf?_of_single _ _ h.single]
  · rw [Context.typeOf?_eq_or, Option.isSome_or, Bool.or_eq_true] at hx ⊢
    rw [h.outer]
    exact hx.imp_left (h.bound x)

/-- A binding whose value does not fit stays, and hides a variable of the scope around it. -/
example :
    let c : Context := ⟨.empty, [⟨.ofList [("y", .atom .text)], Scope.standardTypes⟩]⟩
    run (.bind (.identifier "y") (.typeName "ui8") (.text "a")) .nothing c =
      (.error (.bindingMismatch (.atom .ui8) (.atom .text)),
        ⟨c.addVariable "y" (.atom .ui8), []⟩) := by
  cbv

end Typing

end LetLang
