import LetLang.Grammar
import Mathlib.Data.List.Perm.Subperm

/-!
# Progress

The rules of the grammar call one another and themselves. Here each rule is written once more as a
program that steps over the tokens one by one, with the calls left open. A run makes the calls,
writes down the rule and the tokens of each, and gives up where calls are nested deeper than it
allows. The main statement is that a run that allows nine nested calls for each token, and nine
more, gives what the rule reads; that it makes no more calls than that in all; and that it only goes
forward in the tokens from one call to the next.

What carries this is one number for each call, nine times the tokens that are left and then the rank
of the rule: it gets smaller from each call to the next. After a success fewer tokens are left, and
before it the rank is lower.
-/

namespace LetLang

variable {τ α β : Type}

namespace Reading

variable {ts : List (Token τ)}

theorem outcome_map (f : α → β) (r : Reading α ts) :
    (r.map f).outcome = (r.outcome.1.map f, r.outcome.2) := by
  cases r <;> rfl

theorem outcome_widen {us : List (Token τ)} (h : us.length ≤ ts.length) (r : Reading α us) :
    (r.widen h).outcome = r.outcome := by
  cases r <;> rfl

theorem length_outcome {r : Reading α ts} {a : α} (h : r.outcome.1 = .ok a) :
    r.outcome.2.length < ts.length := by
  cases r with
  | ok a rest hlt => exact hlt
  | error => cases h

end Reading

namespace Grammar

/-- The rules that other rules call, or that call themselves. The first three call none. -/
inductive Call where
  | expect (m : Mark) | name | arrayLength
  | arrayType | typeAtom | moreTypeAtoms | productType | functionType | typeOptions | type
  | names | parameters
  | expression | application | lambda | value
  | listing (l : Listing) | items (l : Listing) | moreItems (l : Listing) | item (l : Listing)
  | statement | binding
  deriving Repr, DecidableEq

namespace Call

@[reducible] def Result (τ : Type) : Call → Type
  | .expect _ => Unit
  | .name => τ
  | .arrayLength => Int
  | .names => List τ
  | .moreTypeAtoms | .typeOptions | .parameters | .items _ | .moreItems _ => List (Tree τ)
  | _ => Tree τ

def read : (c : Call) → (ts : List (Token τ)) → Reading (c.Result τ) ts
  | .expect m, ts => Grammar.expect m ts
  | .name, ts => Grammar.name ts
  | .arrayLength, ts => Grammar.arrayLength ts
  | .arrayType, ts => Grammar.arrayType ts
  | .typeAtom, ts => Grammar.typeAtom ts
  | .moreTypeAtoms, ts => Grammar.moreTypeAtoms ts
  | .productType, ts => Grammar.productType ts
  | .functionType, ts => Grammar.functionType ts
  | .typeOptions, ts => Grammar.typeOptions ts
  | .type, ts => Grammar.type ts
  | .names, ts => Grammar.names ts
  | .parameters, ts => Grammar.parameters ts
  | .expression, ts => Grammar.expression ts
  | .application, ts => Grammar.application ts
  | .lambda, ts => Grammar.lambda ts
  | .value, ts => Grammar.value ts
  | .listing l, ts => Grammar.listing l ts
  | .items l, ts => Grammar.items l ts
  | .moreItems l, ts => Grammar.moreItems l ts
  | .item l, ts => Grammar.item l ts
  | .statement, ts => Grammar.statement ts
  | .binding, ts => Grammar.binding ts

/-- A rule calls rules of a lower rank only, until it has read a token. -/
def rank : Call → Nat
  | .items _ => 8
  | .item _ => 7
  | .statement | .type => 6
  | .expression | .typeOptions => 5
  | .application | .functionType => 4
  | .lambda | .productType => 3
  | .value | .typeAtom => 2
  | .expect _ | .name | .arrayLength => 0
  | _ => 1

theorem rank_lt (c : Call) : c.rank < 9 := by
  cases c <;> simp [rank]

end Call

/-- A call that has been made: the rule, and the tokens that were left. -/
structure Visit (τ : Type) where
  rule : Call
  tokens : List (Token τ)
  deriving Repr, DecidableEq

namespace Visit

/-- This goes down from call to call: the tokens that are left count first, then the rank. -/
def size (v : Visit τ) : Nat :=
  9 * v.tokens.length + v.rule.rank

/-- The second call begins no earlier in the tokens than the first, and is smaller. -/
def Before (v w : Visit τ) : Prop :=
  w.tokens <:+ v.tokens ∧ w.size < v.size

theorem size_lt (v : Visit τ) : v.size < 9 * v.tokens.length + 9 :=
  Nat.add_lt_add_left v.rule.rank_lt _

end Visit

/-- Programs that keep the tokens that are left, also when they fail, write down calls, and may give
up. -/
abbrev Run (τ : Type) : Type → Type :=
  ExceptT (ParseError τ) (StateT (List (Token τ)) (StateT (List (Visit τ)) Option))

def Run.advance : Run τ (Option (Token τ)) := do
  match ← get with
  | [] => return none
  | t :: us =>
    set us
    return some t

def Run.giveUp : Run τ α :=
  fun _ _ => none

/-- What each rule does, with the calls of other rules and of itself left open. -/
def Call.body (call : (c : Call) → Run τ (c.Result τ)) : (c : Call) → Run τ (c.Result τ)
  | .expect m => do
    match ← .advance with
    | none => throw (.expectedMark m none)
    | some t => if t.is m then return () else throw (.expectedMark m (some t))
  | .name => do
    match ← .advance with
    | none => throw (.expectedName none)
    | some (.identifier n) => return n
    | some t => throw (.expectedName (some t))
  | .arrayLength => do
    match ← .advance with
    | none => throw .expectedLength
    | some (.number n) => return n
    | some _ => throw .expectedLength
  | .arrayType => do
    call (.expect .leftSquare)
    let element ← call .name
    call (.expect .semicolon)
    let length ← call .arrayLength
    call (.expect .rightSquare)
    return .arrayType (.typeName element) length
  | .typeAtom => do
    if nextIs .leftSquare (← get) then call .arrayType else .typeName <$> call .name
  | .moreTypeAtoms => do
    if nextIs .rightRound (← get) then
      call (.expect .rightRound)
      return []
    else
      call (.expect .comma)
      let t ← call .typeAtom
      (t :: ·) <$> call .moreTypeAtoms
  | .productType => do
    if nextIs .leftRound (← get) then
      call (.expect .leftRound)
      if nextIs .rightRound (← get) then
        call (.expect .rightRound)
        return .productType []
      else
        let t ← call .typeAtom
        (fun rest => productOf (t :: rest)) <$> call .moreTypeAtoms
    else call .typeAtom
  | .functionType => do
    let source ← call .productType
    if nextIs .rightArrow (← get) then
      call (.expect .rightArrow)
      .functionType source <$> call .functionType
    else return source
  | .typeOptions => do
    let first ← (fun t => [t]) <$> call .functionType
    if nextIs .pipe (← get) then
      call (.expect .pipe)
      (first ++ ·) <$> call .typeOptions
    else return first
  | .type => do
    if nextIs .leftSquare (← get) then call .arrayType else sumOf <$> call .typeOptions
  | .names => do
    let first ← (fun n => [n]) <$> call .name
    if nextIs .comma (← get) then
      call (.expect .comma)
      (first ++ ·) <$> call .names
    else return first
  | .parameters => do
    if nextIs .leftRound (← get) then
      call (.expect .leftRound)
      if nextIs .rightRound (← get) then
        call (.expect .rightRound)
        return []
      else
        let ns ← call .names
        call (.expect .rightRound)
        return ns.map .identifier
    else (fun n => [.identifier n]) <$> call .name
  | .expression => do
    let left ← call .application
    match (← get).head? with
    | none => return left
    | some t =>
      match operator? t with
      | some op =>
        let _ ← .advance
        (fun right => .binary left right op) <$> call .expression
      | none => return left
  | .application => do
    let f ← call .lambda
    match (← get).head? with
    | some t => if startsArgument t then .apply f <$> call .lambda else return f
    | none => return f
  | .lambda => do
    if nextIs .backslash (← get) then
      call (.expect .backslash)
      let ps ← call .parameters
      call (.expect .fatRightArrow)
      .lambda ps <$> call .expression
    else call .value
  | .value => do
    match ← get with
    | [] => throw (.expectedValue none)
    | .identifier n :: _ => let _ ← .advance; return .identifier n
    | .quoted s :: _ => let _ ← .advance; return .text s
    | .number n :: _ => let _ ← .advance; return .number n
    | .error s :: _ => throw (.expectedValue (some (.error s)))
    | .mark m note :: _ =>
      if m = .trueWord then let _ ← .advance; return .boolean true
      else if m = .falseWord then let _ ← .advance; return .boolean false
      else if m = .leftSquare then call (.listing .array)
      else if m = .leftRound then call (.listing .tuple)
      else if m = .leftCurly then call (.listing .block)
      else throw (.expectedValue (some (.mark m note)))
  | .listing l => do
    call (.expect l.opening)
    l.build <$> call (.items l)
  | .items l => do
    if nextIs l.closing (← get) then
      call (.expect l.closing)
      return []
    else
      let t ← call (.item l)
      (t :: ·) <$> call (.moreItems l)
  | .moreItems l => do
    if nextIs l.closing (← get) then
      call (.expect l.closing)
      return []
    else
      call (.expect l.separator)
      let t ← call (.item l)
      (t :: ·) <$> call (.moreItems l)
  | .item l =>
    match l with
    | .block => call .statement
    | .array | .tuple => call .expression
  | .statement => do
    if (← get).isEmpty then throw .expectedStatement
    else if nextIs .letWord (← get) then call .binding
    else call .expression
  | .binding => do
    call (.expect .letWord)
    let n ← call .name
    call (.expect .colon)
    let t ← call .type
    call (.expect .equals)
    .bind (.identifier n) t <$> call .expression

/-- Runs a rule with so many nested calls at most. -/
def Call.run : Nat → (c : Call) → Run τ (c.Result τ)
  | 0, _ => .giveUp
  | depth + 1, c => do
    modifyThe (List (Visit τ)) (· ++ [⟨c, ← get⟩])
    Call.body (Call.run depth) c

/-- Runs a rule that reads a statement and the semicolon behind it. -/
def runClosedStatement (depth : Nat) : Run τ (Tree τ) := do
  let t ← Call.run depth .statement
  Call.run depth (.expect .semicolon)
  return t

/-- Runs a rule that reads closed statements up to the end of the tokens. -/
def runStatements : Nat → Run τ (List (Tree τ))
  | 0 => .giveUp
  | depth + 1 => do
    if (← get).isEmpty then return []
    else
      let t ← runClosedStatement depth
      (t :: ·) <$> runStatements depth

def Rule.run (depth : Nat) : Rule → Run τ (Tree τ)
  | .file => .file <$> runStatements depth
  | .type => Call.run depth .type
  | .expression => Call.run depth .expression
  | .statement => Call.run depth .statement
  | .value => Call.run depth .value
  | .lambda => Call.run depth .lambda
  | .application => Call.run depth .application
  | .arrayType => Call.run depth .arrayType
  | .productType => Call.run depth .productType
  | .functionType => Call.run depth .functionType
  | .binding => Call.run depth .binding
  | .block => Call.run depth (.listing .block)
  | .tuple => Call.run depth (.listing .tuple)
  | .array => Call.run depth (.listing .array)

/-- From the tokens `ts` the run gives `o`, and adds the calls to those written down before. -/
def Gives (x : Run τ α) (ts : List (Token τ)) (o : Except (ParseError τ) α × List (Token τ))
    (calls : List (Visit τ)) : Prop :=
  ∀ before, x ts before = some (o, before ++ calls)

namespace Gives

variable {x : Run τ α} {f : α → Run τ β} {ts us : List (Token τ)} {a : α}
  {calls more : List (Visit τ)}

theorem pure (a : α) (ts : List (Token τ)) : Gives (pure a) ts (.ok a, ts) [] := by
  intro before
  rw [List.append_nil]
  rfl

theorem throw (e : ParseError τ) (ts : List (Token τ)) :
    Gives (throw e : Run τ α) ts (.error e, ts) [] := by
  intro before
  rw [List.append_nil]
  rfl

theorem bind_ok {o : Except (ParseError τ) β × List (Token τ)} (hx : Gives x ts (.ok a, us) calls)
    (hf : Gives (f a) us o more) : Gives (x >>= f) ts o (calls ++ more) := by
  intro before
  have hf := hf (before ++ calls)
  rw [List.append_assoc] at hf
  simp only [Bind.bind, ExceptT.bind, ExceptT.mk, StateT.bind, hx before, Option.bind_some]
  exact hf

theorem bind_error {e : ParseError τ} (hx : Gives x ts (.error e, us) calls) :
    Gives (x >>= f) ts (.error e, us) calls := by
  intro before
  simp only [Bind.bind, ExceptT.bind, ExceptT.mk, StateT.bind, hx before, Option.bind_some]
  rfl

theorem advance {f : Option (Token τ) → Run τ β} {t : Token τ}
    {o : Except (ParseError τ) β × List (Token τ)} (h : Gives (f (some t)) us o calls) :
    Gives (.advance >>= f) (t :: us) o calls := h

theorem map {o : Except (ParseError τ) α × List (Token τ)} (f : α → β) (hx : Gives x ts o calls) :
    Gives (f <$> x) ts (o.1.map f, o.2) calls := by
  intro before
  have hx := hx before
  obtain ⟨o, us⟩ := o
  simp only [Functor.map, ExceptT.map, ExceptT.mk, Bind.bind, StateT.bind, hx, Option.bind_some]
  cases o <;> rfl

end Gives

/-- The calls of a run that begins at `ts` and ends with `o`: one after the other they get smaller,
and no call begins before an earlier one or after the end. After a success fewer tokens are left
than at any of the calls. -/
structure Forward (ts : List (Token τ)) (bound : Nat)
    (o : Except (ParseError τ) α × List (Token τ)) (calls : List (Visit τ)) : Prop where
  moved : o.2 <:+ ts
  descending : calls.Pairwise Visit.Before
  started : ∀ v ∈ calls, v.tokens <:+ ts ∧ v.size < bound
  passed : ∀ v ∈ calls, o.2 <:+ v.tokens
  used : ∀ a, o.1 = .ok a → ∀ v ∈ calls, o.2.length < v.tokens.length

namespace Forward

variable {ts us : List (Token τ)} {bound bound' : Nat} {a : α}
  {o : Except (ParseError τ) α × List (Token τ)} {o' : Except (ParseError τ) β × List (Token τ)}
  {calls more : List (Visit τ)}

theorem nil (h : o.2 <:+ ts) : Forward ts bound o [] :=
  ⟨h, .nil, by simp, by simp, by simp⟩

theorem mono (h : Forward ts bound o calls) (hle : bound ≤ bound') : Forward ts bound' o calls :=
  { h with started := fun v hv => ⟨(h.started v hv).1, Nat.lt_of_lt_of_le (h.started v hv).2 hle⟩ }

theorem map (f : α → β) (h : Forward ts bound o calls) :
    Forward ts bound (o.1.map f, o.2) calls where
  moved := h.moved
  descending := h.descending
  started := h.started
  passed := h.passed
  used b hb := by
    cases ho : o.1 with
    | ok a => exact h.used a ho
    | error e => simp [ho, Except.map] at hb

/-- A failure stays one, whatever was to be read after it. -/
theorem error {e : ParseError τ} (h : Forward ts bound (.error e, us) calls (α := α)) :
    Forward ts bound (.error e, us) calls (α := β) :=
  { h with used := nofun }

/-- What is called after a success is smaller than what was called before it, whatever its rank. -/
theorem append (h : Forward ts bound (.ok a, us) calls) (hlt : us.length < ts.length)
    (hbound : 9 * ts.length ≤ bound) (hmore : Forward us (9 * us.length + 9) o' more) :
    Forward ts bound o' (calls ++ more) := by
  refine ⟨hmore.moved.trans h.moved, ?descending, ?started, ?passed, ?used⟩
  case descending =>
    refine List.pairwise_append.2 ⟨h.descending, hmore.descending, fun v hv w hw => ?_⟩
    obtain ⟨hw, hsize⟩ := hmore.started w hw
    have hused : us.length < v.tokens.length := h.used a rfl v hv
    refine ⟨hw.trans (h.passed v hv), ?_⟩
    calc w.size < 9 * us.length + 9 := hsize
      _ ≤ 9 * v.tokens.length := by omega
      _ ≤ v.size := Nat.le_add_right _ _
  case started =>
    intro v hv
    rcases List.mem_append.1 hv with hv | hv
    · exact h.started v hv
    · obtain ⟨hv, hsize⟩ := hmore.started v hv
      exact ⟨hv.trans h.moved, by omega⟩
  case passed =>
    intro v hv
    rcases List.mem_append.1 hv with hv | hv
    · exact hmore.moved.trans (h.passed v hv)
    · exact hmore.passed v hv
  case used =>
    intro b hb v hv
    rcases List.mem_append.1 hv with hv | hv
    · exact Nat.lt_of_le_of_lt hmore.moved.length_le (h.used a rfl v hv)
    · exact hmore.used b hb v hv

/-- A run, and the call that began it. -/
theorem cons {c : Call} (h : Forward ts (Visit.mk c ts).size o calls)
    (hlt : ∀ a, o.1 = .ok a → o.2.length < ts.length) :
    Forward ts ((Visit.mk c ts).size + 1) o (⟨c, ts⟩ :: calls) := by
  refine ⟨h.moved, List.pairwise_cons.2 ⟨fun v hv => h.started v hv, h.descending⟩, ?_, ?_, ?_⟩
  · rintro v (_ | ⟨_, hv⟩)
    · exact ⟨List.suffix_refl ts, Nat.lt_succ_self _⟩
    · exact ⟨(h.started v hv).1, Nat.lt_succ_of_lt (h.started v hv).2⟩
  · rintro v (_ | ⟨_, hv⟩)
    · exact h.moved
    · exact h.passed v hv
  · rintro a ha v (_ | ⟨_, hv⟩)
    · exact hlt a ha
    · exact h.used a ha v hv

theorem length_le (h : Forward ts bound o calls) : calls.length ≤ bound := by
  have hdistinct : (calls.map Visit.size).Nodup :=
    List.Pairwise.map _ (fun _ _ hbefore => Nat.ne_of_gt hbefore.2) h.descending
  have hbelow : calls.map Visit.size ⊆ List.range bound := by
    intro k hk
    obtain ⟨v, hv, rfl⟩ := List.mem_map.1 hk
    exact List.mem_range.2 (h.started v hv).2
  simpa using (List.subperm_of_subset hdistinct hbelow).length_le

end Forward

/-- From `ts` the run gives the reading, and its calls go forward. Those at the first token have a
rank below `rank`. -/
def Runs {ts : List (Token τ)} (rank : Nat) (x : Run τ α) (r : Reading α ts) : Prop :=
  ∃ calls, Gives x ts r.outcome calls ∧ Forward ts (9 * ts.length + rank) r.outcome calls

/-- The run after a success at `us`: it reads on, or it keeps the value and stays there. -/
def ReadsOn {us : List (Token τ)} (x : Run τ α) (a : α) : Option (Reading α us) → Prop
  | some r => Runs 9 x r
  | none => Gives x us (.ok a, us) []

namespace Runs

variable {ts us : List (Token τ)} {rank rank' : Nat} {x : Run τ α} {r : Reading α ts}

theorem mono (h : Runs rank x r) (hle : rank ≤ rank') : Runs rank' x r := by
  obtain ⟨calls, hx, hcalls⟩ := h
  exact ⟨calls, hx, hcalls.mono (Nat.add_le_add_left hle _)⟩

theorem refuse {t : Token τ} {f : Option (Token τ) → Run τ α} {e : ParseError τ}
    {h : us.length ≤ (t :: us).length} (hf : f (some t) = throw e) :
    Runs rank (.advance >>= f) (.error e us h : Reading α (t :: us)) :=
  ⟨[], .advance (hf ▸ Gives.throw e us), .nil (List.suffix_cons t us)⟩

theorem throw {e : ParseError τ} {h : ts.length ≤ ts.length} :
    Runs rank (throw e) (.error e ts h : Reading α ts) :=
  ⟨[], .throw e ts, .nil (List.suffix_refl ts)⟩

theorem take {t : Token τ} {f : Option (Token τ) → Run τ α} {a : α}
    {h : us.length < (t :: us).length} (hf : f (some t) = pure a) :
    Runs rank (.advance >>= f) (.ok a us h : Reading α (t :: us)) :=
  ⟨[], .advance (hf ▸ Gives.pure a us), .nil (List.suffix_cons t us)⟩

theorem skip {t : Token τ} {f : Option (Token τ) → Run τ α} {r : Reading α us}
    (h : Runs 9 (f (some t)) r) (hle : us.length ≤ (t :: us).length) :
    Runs rank (.advance >>= f) (r.widen hle) := by
  obtain ⟨calls, hx, hcalls⟩ := h
  have hstart : Forward (t :: us) (9 * (t :: us).length + rank)
      ((.ok (), us) : Except (ParseError τ) Unit × List (Token τ)) ([] : List (Visit τ)) :=
    .nil (List.suffix_cons t us)
  rw [Runs, Reading.outcome_widen]
  exact ⟨calls, .advance hx, hstart.append (Nat.lt_succ_self _) (Nat.le_add_right _ _) hcalls⟩

theorem map (h : Runs rank x r) (f : α → β) : Runs rank (f <$> x) (r.map f) := by
  obtain ⟨calls, hx, hcalls⟩ := h
  rw [Runs, Reading.outcome_map]
  exact ⟨calls, hx.map f, hcalls.map f⟩

theorem thenReturn (h : Runs rank x r) (f : α → β) :
    Runs rank (do return f (← x)) (r.map f) := by
  obtain ⟨calls, hx, hcalls⟩ := h
  rw [Runs, Reading.outcome_map]
  refine ⟨calls, ?_, hcalls.map f⟩
  cases r with
  | ok a us hlt =>
    have hall : Gives (do return f (← x)) ts (.ok (f a), us) (calls ++ []) :=
      hx.bind_ok (.pure (f a) us)
    rwa [List.append_nil] at hall
  | error => exact hx.bind_error

/-- What comes next is chosen by the tokens that are left. -/
theorem get {f : List (Token τ) → Run τ α} (h : Runs rank (f ts) r) :
    Runs rank (get >>= f) r := h

theorem ite {p : Prop} [Decidable p] {y : Run τ α} {s : Reading α ts} (hpos : Runs rank x r)
    (hneg : Runs rank y s) : Runs rank (if p then x else y) (if p then r else s) := by
  split
  · exact hpos
  · exact hneg

theorem andThen {f : α → Run τ β}
    {next : α → (us : List (Token τ)) → us.length < ts.length → Reading β us}
    (h : Runs rank x r) (hnext : ∀ a us hlt, Runs 9 (f a) (next a us hlt)) :
    Runs rank (x >>= f) (r.andThen next) := by
  obtain ⟨calls, hx, hcalls⟩ := h
  cases r with
  | ok a us hlt =>
    obtain ⟨more, hy, hmore⟩ := hnext a us hlt
    rw [Runs, Reading.andThen, Reading.outcome_widen]
    exact ⟨calls ++ more, hx.bind_ok hy, hcalls.append hlt (Nat.le_add_right _ _) hmore⟩
  | error e us hle => exact ⟨calls, hx.bind_error, hcalls.error⟩

theorem extend {f : α → Run τ α}
    {next : α → (us : List (Token τ)) → us.length < ts.length → Option (Reading α us)}
    (h : Runs rank x r) (hnext : ∀ a us hlt, ReadsOn (f a) a (next a us hlt)) :
    Runs rank (x >>= f) (r.extend next) := by
  obtain ⟨calls, hx, hcalls⟩ := h
  cases r with
  | ok a us hlt =>
    have hnext := hnext a us hlt
    cases hn : next a us hlt with
    | none =>
      have hstays : (Reading.ok a us hlt).extend next = .ok a us hlt := by
        simp only [Reading.extend, hn]
      rw [hn] at hnext
      have hall := hx.bind_ok hnext
      rw [List.append_nil] at hall
      rw [hstays]
      exact ⟨calls, hall, hcalls⟩
    | some r =>
      have hreads : (Reading.ok a us hlt).extend next = r.widen (Nat.le_of_lt hlt) := by
        simp only [Reading.extend, hn]
      rw [hn] at hnext
      obtain ⟨more, hy, hmore⟩ := hnext
      rw [hreads, Runs, Reading.outcome_widen]
      exact ⟨calls ++ more, hx.bind_ok hy, hcalls.append hlt (Nat.le_add_right _ _) hmore⟩
  | error e us hle => exact ⟨calls, hx.bind_error, hcalls⟩

end Runs

theorem readsOn_get {us : List (Token τ)} {f : List (Token τ) → Run τ α} {a : α}
    {o : Option (Reading α us)} (h : ReadsOn (f us) a o) : ReadsOn (get >>= f) a o := by
  cases o <;> exact h

theorem readsOn_ite {us : List (Token τ)} {p : Prop} [Decidable p] {x : Run τ α} {a : α}
    {r : Reading α us} (h : Runs 9 x r) :
    ReadsOn (if p then x else return a) a (if p then some r else none) := by
  split
  · exact h
  · exact .pure a us

section

variable {call : (c : Call) → Run τ (c.Result τ)} {c : Call} {ts us : List (Token τ)}

/-- The calls that are smaller than that of `c` at `ts` give what their rules read. -/
def Follows (call : (c : Call) → Run τ (c.Result τ)) (c : Call) (ts : List (Token τ)) : Prop :=
  ∀ d us, (Visit.mk d us).size < (Visit.mk c ts).size → Runs (d.rank + 1) (call d) (d.read us)

/-- Any rule may be called after a token. -/
theorem Follows.later (h : Follows call c ts) (d : Call) (hlt : us.length < ts.length) :
    Runs 9 (call d) (d.read us) := by
  have hsize : (Visit.mk d us).size < 9 * us.length + 9 := Visit.size_lt _
  have hle : 9 * ts.length ≤ (Visit.mk c ts).size := Nat.le_add_right _ _
  exact (h d us (by omega)).mono d.rank_lt

/-- Before it, the rank is lower. -/
theorem Follows.lower (h : Follows call c ts) (d : Call) (hlt : d.rank < c.rank) :
    Runs c.rank (call d) (d.read ts) :=
  (h d ts (Nat.add_lt_add_left hlt _)).mono hlt

theorem runs_expect {m : Mark} : Runs 0 (Call.body call (.expect m)) (expect m ts) := by
  cases ts with
  | nil => exact .throw
  | cons t us =>
    unfold expect
    dsimp only
    split
    case isTrue ht => exact .take (if_pos ht)
    case isFalse ht => exact .refuse (if_neg ht)

theorem runs_name : Runs 0 (Call.body call .name) (name ts) :=
  match ts with
  | [] => .throw
  | .identifier _ :: _ => .take rfl
  | .mark .. :: _ | .quoted _ :: _ | .number _ :: _ | .error _ :: _ => .refuse rfl

theorem runs_arrayLength : Runs 0 (Call.body call .arrayLength) (arrayLength ts) :=
  match ts with
  | [] => .throw
  | .number _ :: _ => .take rfl
  | .mark .. :: _ | .quoted _ :: _ | .identifier _ :: _ | .error _ :: _ => .refuse rfl

theorem runs_arrayType (h : Follows call .arrayType ts) :
    Runs 1 (Call.body call .arrayType) (arrayType ts) := by
  refine (h.lower (.expect .leftSquare) (by decide)).andThen fun _ us hus => ?_
  refine (h.later .name hus).andThen fun element vs hvs => ?_
  refine (h.later (.expect .semicolon) (by omega)).andThen fun _ ws hws => ?_
  refine (h.later .arrayLength (by omega)).andThen fun length xs hxs => ?_
  exact (h.later (.expect .rightSquare) (by omega)).thenReturn _

theorem runs_typeAtom (h : Follows call .typeAtom ts) :
    Runs 2 (Call.body call .typeAtom) (typeAtom ts) :=
  .get (.ite (h.lower .arrayType (by decide)) ((h.lower .name (by decide)).map _))

theorem runs_moreTypeAtoms (h : Follows call .moreTypeAtoms ts) :
    Runs 1 (Call.body call .moreTypeAtoms) (moreTypeAtoms ts) := by
  unfold moreTypeAtoms
  refine .get (.ite ((h.lower (.expect .rightRound) (by decide)).thenReturn _) ?_)
  refine (h.lower (.expect .comma) (by decide)).andThen fun _ us hus => ?_
  refine (h.later .typeAtom hus).andThen fun t vs hvs => ?_
  exact (h.later .moreTypeAtoms (Nat.lt_trans hvs hus)).map _

theorem runs_productType (h : Follows call .productType ts) :
    Runs 3 (Call.body call .productType) (productType ts) := by
  refine .get (.ite ?_ (h.lower .typeAtom (by decide)))
  refine (h.lower (.expect .leftRound) (by decide)).andThen fun _ us hus => ?_
  refine .get (.ite ((h.later (.expect .rightRound) hus).thenReturn _) ?_)
  refine (h.later .typeAtom hus).andThen fun t vs hvs => ?_
  exact (h.later .moreTypeAtoms (Nat.lt_trans hvs hus)).map _

theorem runs_functionType (h : Follows call .functionType ts) :
    Runs 4 (Call.body call .functionType) (functionType ts) := by
  unfold functionType
  refine (h.lower .productType (by decide)).extend fun source us hus => readsOn_get (readsOn_ite ?_)
  refine (h.later (.expect .rightArrow) hus).andThen fun _ vs hvs => ?_
  exact (h.later .functionType (Nat.lt_trans hvs hus)).map _

theorem runs_typeOptions (h : Follows call .typeOptions ts) :
    Runs 5 (Call.body call .typeOptions) (typeOptions ts) := by
  unfold typeOptions
  refine ((h.lower .functionType (by decide)).map _).extend fun first us hus =>
    readsOn_get (readsOn_ite ?_)
  refine (h.later (.expect .pipe) hus).andThen fun _ vs hvs => ?_
  exact (h.later .typeOptions (Nat.lt_trans hvs hus)).map _

theorem runs_type (h : Follows call .type ts) : Runs 6 (Call.body call .type) (type ts) :=
  .get (.ite (h.lower .arrayType (by decide)) ((h.lower .typeOptions (by decide)).map _))

theorem runs_names (h : Follows call .names ts) :
    Runs 1 (Call.body call .names) (names ts) := by
  unfold names
  refine ((h.lower .name (by decide)).map _).extend fun first us hus =>
    readsOn_get (readsOn_ite ?_)
  refine (h.later (.expect .comma) hus).andThen fun _ vs hvs => ?_
  exact (h.later .names (Nat.lt_trans hvs hus)).map _

theorem runs_parameters (h : Follows call .parameters ts) :
    Runs 1 (Call.body call .parameters) (parameters ts) := by
  refine .get (.ite ?_ ((h.lower .name (by decide)).map _))
  refine (h.lower (.expect .leftRound) (by decide)).andThen fun _ us hus => ?_
  refine .get (.ite ((h.later (.expect .rightRound) hus).thenReturn _) ?_)
  refine (h.later .names hus).andThen fun ns vs hvs => ?_
  exact (h.later (.expect .rightRound) (Nat.lt_trans hvs hus)).thenReturn _

theorem runs_expression (h : Follows call .expression ts) :
    Runs 5 (Call.body call .expression) (expression ts) := by
  unfold expression
  refine (h.lower .application (by decide)).extend fun left us hus => readsOn_get ?_
  cases us with
  | nil => exact .pure left []
  | cons t vs =>
    have hvs : vs.length < ts.length := Nat.lt_trans (by simp) hus
    dsimp only [List.head?_cons]
    cases operator? t with
    | none => exact .pure left (t :: vs)
    | some op => exact ((h.later .expression hvs).map _).skip _

theorem runs_application (h : Follows call .application ts) :
    Runs 4 (Call.body call .application) (application ts) := by
  unfold application
  refine (h.lower .lambda (by decide)).extend fun f us hus => readsOn_get ?_
  cases us.head? with
  | none => exact .pure f us
  | some t => exact readsOn_ite ((h.later .lambda hus).map _)

theorem runs_lambda (h : Follows call .lambda ts) :
    Runs 3 (Call.body call .lambda) (lambda ts) := by
  unfold lambda
  refine .get (.ite ?_ (h.lower .value (by decide)))
  refine (h.lower (.expect .backslash) (by decide)).andThen fun _ us hus => ?_
  refine (h.later .parameters hus).andThen fun ps vs hvs => ?_
  refine (h.later (.expect .fatRightArrow) (by omega)).andThen fun _ ws hws => ?_
  exact (h.later .expression (by omega)).map _

theorem runs_value (h : Follows call .value ts) :
    Runs 2 (Call.body call .value) (value ts) := by
  unfold value
  refine .get ?_
  match ts with
  | [] => exact .throw
  | .identifier n :: us => exact .take rfl
  | .quoted s :: us => exact .take rfl
  | .number n :: us => exact .take rfl
  | .error s :: us => exact .throw
  | .mark m note :: us =>
    refine .ite (.take rfl) (.ite (.take rfl) ?_)
    refine .ite (h.lower (.listing .array) (by decide)) ?_
    refine .ite (h.lower (.listing .tuple) (by decide)) ?_
    exact .ite (h.lower (.listing .block) (by decide)) .throw

theorem runs_listing {l : Listing} (h : Follows call (.listing l) ts) :
    Runs 1 (Call.body call (.listing l)) (listing l ts) := by
  unfold listing
  refine (h.lower (.expect l.opening) Nat.zero_lt_one).andThen fun _ us hus => ?_
  exact (h.later (.items l) hus).map _

theorem runs_items {l : Listing} (h : Follows call (.items l) ts) :
    Runs 8 (Call.body call (.items l)) (items l ts) := by
  unfold items
  refine .get (.ite ((h.lower (.expect l.closing) (Nat.zero_lt_succ 7)).thenReturn _) ?_)
  refine (h.lower (.item l) (Nat.lt_succ_self 7)).andThen fun t us hus => ?_
  exact (h.later (.moreItems l) hus).map _

theorem runs_moreItems {l : Listing} (h : Follows call (.moreItems l) ts) :
    Runs 1 (Call.body call (.moreItems l)) (moreItems l ts) := by
  unfold moreItems
  refine .get (.ite ((h.lower (.expect l.closing) Nat.zero_lt_one).thenReturn _) ?_)
  refine (h.lower (.expect l.separator) Nat.zero_lt_one).andThen fun _ us hus => ?_
  refine (h.later (.item l) hus).andThen fun t vs hvs => ?_
  exact (h.later (.moreItems l) (Nat.lt_trans hvs hus)).map _

theorem runs_item {l : Listing} (h : Follows call (.item l) ts) :
    Runs 7 (Call.body call (.item l)) (item l ts) := by
  unfold item
  cases l with
  | block => exact h.lower .statement (by decide)
  | array | tuple => exact h.lower .expression (by decide)

theorem runs_statement (h : Follows call .statement ts) :
    Runs 6 (Call.body call .statement) (statement ts) := by
  unfold statement
  refine .get (.ite .throw ?_)
  exact .get (.ite (h.lower .binding (by decide)) (h.lower .expression (by decide)))

theorem runs_binding (h : Follows call .binding ts) :
    Runs 1 (Call.body call .binding) (binding ts) := by
  unfold binding
  refine (h.lower (.expect .letWord) (by decide)).andThen fun _ us hus => ?_
  refine (h.later .name hus).andThen fun n vs hvs => ?_
  refine (h.later (.expect .colon) (by omega)).andThen fun _ ws hws => ?_
  refine (h.later .type (by omega)).andThen fun t xs hxs => ?_
  refine (h.later (.expect .equals) (by omega)).andThen fun _ ys hys => ?_
  exact (h.later .expression (by omega)).map _

/-- A rule gives what it reads, if the calls that it makes do. -/
theorem runs_body (h : Follows call c ts) : Runs c.rank (Call.body call c) (c.read ts) := by
  cases c with
  | expect m => exact runs_expect
  | name => exact runs_name
  | arrayLength => exact runs_arrayLength
  | arrayType => exact runs_arrayType h
  | typeAtom => exact runs_typeAtom h
  | moreTypeAtoms => exact runs_moreTypeAtoms h
  | productType => exact runs_productType h
  | functionType => exact runs_functionType h
  | typeOptions => exact runs_typeOptions h
  | type => exact runs_type h
  | names => exact runs_names h
  | parameters => exact runs_parameters h
  | expression => exact runs_expression h
  | application => exact runs_application h
  | lambda => exact runs_lambda h
  | value => exact runs_value h
  | listing l => exact runs_listing h
  | items l => exact runs_items h
  | moreItems l => exact runs_moreItems h
  | item l => exact runs_item h
  | statement => exact runs_statement h
  | binding => exact runs_binding h

end

theorem runs_run {depth : Nat} {c : Call} {ts : List (Token τ)}
    (h : (Visit.mk c ts).size < depth) : Runs (c.rank + 1) (Call.run depth c) (c.read ts) := by
  induction depth generalizing c ts with
  | zero => cases h
  | succ depth ih =>
    have hfollows : Follows (Call.run depth) c ts :=
      fun d us hlt => ih (Nat.lt_of_lt_of_le hlt (Nat.le_of_lt_succ h))
    obtain ⟨calls, hx, hcalls⟩ := runs_body hfollows
    refine ⟨⟨c, ts⟩ :: calls, fun before => ?_, hcalls.cons fun a => Reading.length_outcome⟩
    rw [List.append_cons]
    exact hx _

/-- What a list of statements, or a failure to read it, leaves. -/
def outcomeOf :
    Except (ParseError τ × List (Token τ)) (List (Tree τ)) →
      Except (ParseError τ) (List (Tree τ)) × List (Token τ)
  | .ok trees => (.ok trees, [])
  | .error (e, rest) => (.error e, rest)

theorem outcomeOf_map (f : List (Tree τ) → List (Tree τ))
    (x : Except (ParseError τ × List (Token τ)) (List (Tree τ))) :
    outcomeOf (x.map f) = ((outcomeOf x).1.map f, (outcomeOf x).2) := by
  cases x <;> rfl

theorem statements_eq (ts : List (Token τ)) :
    statements ts =
      if ts.isEmpty then .ok []
      else
        match (statement ts).andThen fun t us _ => (expect .semicolon us).map fun _ => t with
        | .error e us _ => .error (e, us)
        | .ok t us _ => (statements us).map (t :: ·) := by
  rw [statements]
  split
  · rfl
  cases (statement ts).andThen fun t us _ => (expect .semicolon us).map fun _ => t with
  | error => rfl
  | ok t us hlt =>
    dsimp only
    cases statements us <;> rfl

theorem runs_closedStatement {depth : Nat} {ts : List (Token τ)} (h : 9 * ts.length + 6 < depth) :
    Runs 7 (runClosedStatement depth)
      ((statement ts).andThen fun t us _ => (expect .semicolon us).map fun _ => t) := by
  refine (runs_run (c := .statement) h).andThen fun t us hus => ?_
  have hsize : (Visit.mk (.expect .semicolon) us).size < 9 * us.length + 9 := Visit.size_lt _
  exact ((runs_run (by omega)).mono (Call.rank_lt _)).thenReturn _

theorem gives_statements {depth : Nat} {ts : List (Token τ)}
    {o : Except (ParseError τ) (List (Tree τ)) × List (Token τ)} {calls : List (Visit τ)}
    (hempty : ¬ ts.isEmpty = true)
    (h : Gives (do
      let t ← runClosedStatement depth
      (t :: ·) <$> runStatements depth) ts o calls) :
    Gives (runStatements (depth + 1)) ts o calls := by
  have hbranch : Gives (if ts.isEmpty then pure [] else do
      let t ← runClosedStatement depth
      (t :: ·) <$> runStatements depth) ts o calls := by
    rwa [if_neg hempty]
  exact hbranch

theorem runs_statements {depth : Nat} {ts : List (Token τ)} (h : 9 * ts.length + 7 < depth) :
    ∃ calls, Gives (runStatements depth) ts (outcomeOf (statements ts)) calls ∧
      Forward ts (9 * ts.length + 7) (outcomeOf (statements ts)) calls := by
  induction depth generalizing ts with
  | zero => cases h
  | succ depth ih =>
    rw [statements_eq]
    by_cases hempty : ts.isEmpty = true
    · obtain rfl := List.isEmpty_iff.1 hempty
      exact ⟨[], .pure [] [], .nil (List.suffix_refl [])⟩
    have hone := runs_closedStatement (Nat.lt_of_succ_lt_succ h)
    rw [if_neg hempty]
    generalize ((statement ts).andThen fun t us _ => (expect .semicolon us).map fun _ => t) = r
      at hone
    obtain ⟨calls, hx, hcalls⟩ := hone
    cases r with
    | error e us hle => exact ⟨calls, gives_statements hempty hx.bind_error, hcalls.error⟩
    | ok t us hlt =>
      have hdepth : 9 * us.length + 7 < depth := by omega
      obtain ⟨more, hy, hmore⟩ := ih hdepth
      have hall := (hmore.map (t :: ·)).mono (Nat.add_le_add_left (by decide : 7 ≤ 9) _)
      dsimp only
      rw [outcomeOf_map]
      exact ⟨calls ++ more, gives_statements hempty (hx.bind_ok (hy.map _)),
        hcalls.append hlt (Nat.le_add_right _ _) hall⟩

/-- The run of a rule comes to an end, and its calls go forward. -/
def Ends (depth : Nat) (rule : Rule) (ts : List (Token τ)) : Prop :=
  ∃ calls, Gives (rule.run depth) ts (rule.read ts) calls ∧
    Forward ts (9 * (ts.length + 1)) (rule.read ts) calls

theorem outcomeOf_statements (ts : List (Token τ)) :
    ((outcomeOf (statements ts)).1.map Tree.file, (outcomeOf (statements ts)).2) =
      Rule.read .file ts := by
  rw [Rule.read]
  cases statements ts <;> rfl

theorem ends_file {ts : List (Token τ)} {depth : Nat} (h : 9 * ts.length + 7 < depth) :
    Ends depth .file ts := by
  obtain ⟨calls, hx, hcalls⟩ := runs_statements h
  rw [Ends, ← outcomeOf_statements]
  exact ⟨calls, hx.map Tree.file, (hcalls.map _).mono (Nat.add_le_add_left (by decide : 7 ≤ 9) _)⟩

theorem ends_run (rule : Rule) {ts : List (Token τ)} {depth : Nat}
    (h : 9 * (ts.length + 1) ≤ depth) : Ends depth rule ts := by
  have hruns (c : Call) : Runs 9 (Call.run depth c) (c.read ts) :=
    (runs_run (Nat.lt_of_lt_of_le (Visit.size_lt _) h)).mono c.rank_lt
  cases rule with
  | file => exact ends_file (by omega)
  | type => exact hruns .type
  | expression => exact hruns .expression
  | statement => exact hruns .statement
  | value => exact hruns .value
  | lambda => exact hruns .lambda
  | application => exact hruns .application
  | arrayType => exact hruns .arrayType
  | productType => exact hruns .productType
  | functionType => exact hruns .functionType
  | binding => exact hruns .binding
  | block => exact hruns (.listing .block)
  | tuple => exact hruns (.listing .tuple)
  | array => exact hruns (.listing .array)

/-- A file is read to the end, and another rule uses up a token. -/
theorem rest_of_read {rule : Rule} {ts : List (Token τ)} {tree : Tree τ}
    (h : (rule.read ts).1 = .ok tree) :
    if rule = .file then (rule.read ts).2 = [] else (rule.read ts).2.length < ts.length := by
  cases rule with
  | file =>
    simp only [Rule.read] at h ⊢
    split at h
    · simp
    · cases h
  | _ => exact Reading.length_outcome h

end Grammar

/-- Each rule comes to an end, with a tree or a failure, on each list of tokens, and the number of
calls on the way is linear in their number. No call begins at a token before an earlier one, or
after the place where the reading stops, which is in the list or at its end. A file is read to the
end, and another rule that succeeds uses up a token. -/
theorem read_goes_forward (rule : Grammar.Rule) (ts : List (Token τ)) (spare : Nat) :
    ∃ calls : List (Grammar.Visit τ),
      rule.run (9 * (ts.length + 1) + spare) ts [] = some (rule.read ts, calls) ∧
      calls.length ≤ 9 * (ts.length + 1) ∧
      calls.Pairwise (fun v w => w.tokens <:+ v.tokens) ∧
      (∀ v ∈ calls, v.tokens <:+ ts ∧ (rule.read ts).2 <:+ v.tokens) ∧
      (rule.read ts).2 <:+ ts ∧
      ∀ tree, (rule.read ts).1 = .ok tree →
        if rule = .file then (rule.read ts).2 = [] else (rule.read ts).2.length < ts.length := by
  have hdepth : 9 * (ts.length + 1) ≤ 9 * (ts.length + 1) + spare := Nat.le_add_right _ spare
  obtain ⟨calls, hrun, hcalls⟩ := Grammar.ends_run rule hdepth
  refine ⟨calls, hrun [], hcalls.length_le, ?_, ?_, hcalls.moved, ?_⟩
  · exact hcalls.descending.imp fun hbefore => hbefore.1
  · exact fun v hv => ⟨(hcalls.started v hv).1, hcalls.passed v hv⟩
  · exact fun tree htree => Grammar.rest_of_read htree

end LetLang
