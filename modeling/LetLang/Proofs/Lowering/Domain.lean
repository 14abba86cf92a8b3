import LetLang.Proofs.Lowering.Hanging
import LetLang.Session

/-!
# What can be lowered

Which trees can be lowered is said of the tree alone, without the arena. Lowering never refuses
another tree, and it refuses only for reasons that lie in the tree: it never asks for a number that
was not given out, and it leaves no placeholder over.
-/

namespace LetLang

/-- Lambdas stand under a name or are applied, only names and lambdas are applied, names are bound,
and no file stands inside another tree. The type of a lambda under a name does not matter. -/
inductive Tree.Liftable : Tree String → Prop
  | function {x : String} {type body : Tree String} {ps : List (Tree String)} :
      (∀ p ∈ ps, Liftable p) → Liftable body →
      Liftable (.bind (.identifier x) type (.lambda ps body))
  | bind {x : String} {type value : Tree String} : Liftable type → Liftable value →
      Liftable (.bind (.identifier x) type value)
  | applyLambda {ps : List (Tree String)} {body argument : Tree String} :
      (∀ p ∈ ps, Liftable p) → Liftable body → Liftable argument →
      Liftable (.apply (.lambda ps body) argument)
  | apply {x : String} {argument : Tree String} : Liftable argument →
      Liftable (.apply (.identifier x) argument)
  | identifier (x : String) : Liftable (.identifier x)
  | binary {left right : Tree String} (op : Operator) : Liftable left → Liftable right →
      Liftable (.binary left right op)
  | number (n : Int) : Liftable (.number n)
  | boolean (b : Bool) : Liftable (.boolean b)
  | text (s : String) : Liftable (.text s)
  | tuple {ts : List (Tree String)} : (∀ t ∈ ts, Liftable t) → Liftable (.tuple ts)
  | array {ts : List (Tree String)} : (∀ t ∈ ts, Liftable t) → Liftable (.array ts)
  | block {ts : List (Tree String)} : (∀ t ∈ ts, Liftable t) → Liftable (.block ts)
  | sumType {ts : List (Tree String)} : (∀ t ∈ ts, Liftable t) → Liftable (.sumType ts)
  | productType {ts : List (Tree String)} : (∀ t ∈ ts, Liftable t) → Liftable (.productType ts)
  | typeName (x : String) : Liftable (.typeName x)
  | functionType {source target : Tree String} : Liftable source → Liftable target →
      Liftable (.functionType source target)
  | arrayType {element : Tree String} (length : Int) : Liftable element →
      Liftable (.arrayType element length)
  | unitType : Liftable .unitType

def Tree.IsLiftableFile (t : Tree String) : Prop :=
  ∃ ts, t = .file ts ∧ ∀ u ∈ ts, u.IsDefinition ∧ u.Liftable

namespace Lowering

variable {t : Tree String} {draft : Node} {parts : List (Tree String)}

theorem liftable_parts (hlift : t.Liftable) (h : layout t = .node draft parts) :
    ∀ u ∈ parts, u.Liftable := by
  unfold layout at h
  split at h <;> cases h
  case h_1 =>
    cases hlift with
    | function hps hb => exact List.forall_mem_append.2 ⟨hps, List.forall_mem_singleton.2 hb⟩
    | bind _ hvalue => cases hvalue
  case h_2 hvalue =>
    cases hlift with
    | function => exact absurd rfl (hvalue _ _)
    | bind htype hv => simpa using ⟨.identifier _, htype, hv⟩
  case h_9 =>
    cases hlift with
    | apply ha => simpa using ⟨.identifier _, ha⟩
  case h_6 =>
    cases hlift with
    | binary _ hl hr => simpa using ⟨hl, hr⟩
  case h_20 =>
    cases hlift with
    | functionType hs ht => simpa using ⟨hs, ht⟩
  case h_21 =>
    cases hlift with
    | arrayType _ he => simpa using he
  case h_5 | h_11 | h_12 | h_13 | h_19 | h_22 => simp
  all_goals
    cases hlift
    assumption

theorem liftable_of_layout (h : layout t = .node draft parts) (hparts : ∀ u ∈ parts, u.Liftable) :
    t.Liftable := by
  unfold layout at h
  split at h <;> cases h
  case h_1 =>
    obtain ⟨hps, hb⟩ := List.forall_mem_append.1 hparts
    exact .function hps (hb _ List.mem_cons_self)
  case h_2 => exact .bind (hparts _ (by simp)) (hparts _ (by simp))
  case h_4 => exact .block hparts
  case h_5 => exact .identifier _
  case h_6 => exact .binary _ (hparts _ (by simp)) (hparts _ (by simp))
  case h_9 => exact .apply (hparts _ (by simp))
  case h_11 => exact .number _
  case h_12 => exact .boolean _
  case h_13 => exact .text _
  case h_14 => exact .tuple hparts
  case h_15 => exact .array hparts
  case h_17 => exact .sumType hparts
  case h_18 => exact .productType hparts
  case h_19 => exact .typeName _
  case h_20 => exact .functionType (hparts _ (by simp)) (hparts _ (by simp))
  case h_21 => exact .arrayType _ (hparts _ (by simp))
  case h_22 => exact .unitType

theorem liftable_apply_lambda_iff {ps : List (Tree String)} {body argument : Tree String}
    (name : String) : Tree.Liftable (.apply (.lambda ps body) argument) ↔
      Tree.Liftable (.bind (.identifier name) .unitType (.lambda ps body)) ∧
        Tree.Liftable (.apply (.identifier name) argument) := by
  constructor
  · intro h
    cases h with
    | applyLambda hps hb ha => exact ⟨.function hps hb, .apply ha⟩
  · rintro ⟨hf, ha⟩
    cases ha with
    | apply ha =>
      cases hf with
      | function hps hb => exact .applyLambda hps hb ha
      | bind _ hv => cases hv

theorem not_liftable_of_layout {e : LoweringError} (h : layout t = .refused e) : ¬t.Liftable := by
  unfold layout at h
  split at h <;> cases h <;> intro hlift <;> cases hlift <;> simp_all

theorem stage_of_layout {e : LoweringError} (h : layout t = .refused e) : e.stage = .lower := by
  unfold layout at h
  split at h <;> cases h <;> rfl

section
variable {α β : Type} {p : Int} {s : Lowered}

theorem Issued.exists_slot (h : Issued p s) : ∃ t, s.arena.slot p = .ok t := by
  cases hs : s.arena.slot p with
  | ok t => exact ⟨t, rfl⟩
  | error e =>
    have hout := (Arena.slot_eq_error_iff.1 hs).2
    unfold Issued at h
    omega

theorem add_of_issued (h : Issued p s) (node : Node) :
    ∃ s', add node p s = .ok s.arena.size s' ∧ s'.arena.size = s.arena.size + 1 := by
  have hget : (get : Step Lowered) s = .ok s s := rfl
  obtain ⟨t, ht⟩ := h.exists_slot
  have hadd : ∃ a, s.arena.add node p = .ok a := ⟨_, by rw [Arena.add, ht]; rfl⟩
  obtain ⟨a, ha⟩ := hadd
  refine ⟨{ s with arena := a }, ?_, Arena.size_add ha⟩
  rw [add, bind_of_ok hget]
  simp only [ha]
  rfl

theorem write_of_issued (h : Issued p s) (node : Node) :
    ∃ s', write p node s = .ok () s' ∧ s'.arena.size = s.arena.size := by
  obtain ⟨t, ht⟩ := h.exists_slot
  have hset : ∃ a, s.arena.setValue p node = .ok a := ⟨_, by rw [Arena.setValue, ht]; rfl⟩
  obtain ⟨a, ha⟩ := hset
  exact ⟨_, write_of_ok ha, Arena.size_setValue ha⟩

/-- Below a number that was given out, the step succeeds if and only if `good` holds, and it fails
only by refusing a tree. No number is taken back. -/
def Settles (good : Prop) (p : Int) (x : Step α) : Prop :=
  ∀ s, Issued p s →
    match x s with
    | .ok _ s' => good ∧ s.arena.size ≤ s'.arena.size
    | .error e _ => ¬good ∧ e.stage = .lower

namespace Settles

variable {good good' : Prop} {x : Step α} {f : α → Step β}

theorem pure (a : α) (p : Int) : Settles True p (pure a) :=
  fun _ _ => ⟨trivial, Nat.le_refl _⟩

theorem bind (hx : Settles good p x) (hf : ∀ a, Settles good' p (f a)) :
    Settles (good ∧ good') p (x >>= f) := by
  intro s hp
  have hfirst := hx s hp
  cases h : x s with
  | error e s₁ =>
    rw [h] at hfirst
    rw [bind_of_error h]
    exact ⟨fun hgood => hfirst.1 hgood.1, hfirst.2⟩
  | ok a s₁ =>
    rw [h] at hfirst
    rw [bind_of_ok h]
    have hsecond := hf a s₁ (hp.mono hfirst.2)
    cases h' : f a s₁ with
    | error e s₂ =>
      rw [h'] at hsecond
      exact ⟨fun hgood => hsecond.1 hgood.2, hsecond.2⟩
    | ok b s₂ =>
      rw [h'] at hsecond
      exact ⟨⟨hfirst.1, hsecond.1⟩, Nat.le_trans hfirst.2 hsecond.2⟩

theorem congr (h : Settles good p x) (hiff : good' ↔ good) : Settles good' p x := by
  rw [Settles, hiff]
  exact h

theorem get {f : Lowered → Step α} (h : ∀ s, Settles good p (f s)) : Settles good p (get >>= f) :=
  fun s hp => h s s hp

theorem ofRoot (h : Settles good rootId x) : Settles good p x := fun s hp => h s hp.root

theorem mapM {γ : Type} {ts : List γ} {f : γ → Step α} {good : γ → Prop}
    (h : ∀ t ∈ ts, Settles (good t) p (f t)) : Settles (∀ t ∈ ts, good t) p (ts.mapM f) := by
  induction ts with
  | nil => exact (pure [] p).congr (by simp)
  | cons t ts ih =>
    obtain ⟨ht, hts⟩ := List.forall_mem_cons.1 h
    rw [List.mapM_cons]
    have hrest := fun a => (ih hts).bind fun as => pure (a :: as) p
    exact (ht.bind hrest).congr (by simp)

theorem addFilled {fill : Int → Step α} (h : ∀ id, Settles good id (fill id)) (draft : Node)
    (p : Int) (finish : α → Node) : Settles good p (addFilled draft p fill finish) := by
  intro s hp
  obtain ⟨s₁, hadd, hsize⟩ := add_of_issued hp draft
  have hid := issued_of_add hadd
  have hfill := h _ s₁ hid
  unfold Lowering.addFilled
  rw [bind_of_ok hadd]
  -- The number of the new node was given out, so that it can be written whatever the parts did.
  cases hx : fill s.arena.size s₁ with
  | error e s₂ =>
    rw [hx] at hfill
    rw [bind_of_error hx]
    exact hfill
  | ok parts s₂ =>
    rw [hx] at hfill
    obtain ⟨hgood, hle⟩ := hfill
    obtain ⟨s₃, hwrite, hsize₃⟩ := write_of_issued (hid.mono hle) (finish parts)
    rw [bind_of_ok hx, bind_of_ok hwrite]
    exact ⟨hgood, by omega⟩

end Settles

end

theorem settles_lower (t : Tree String) : ∀ p, Settles t.Liftable p (lower t p) := by
  induction t using inductionOnLayout with
  | node t draft parts hlayout ih =>
    intro p
    have hiff : t.Liftable ↔ ∀ u ∈ parts, u.Liftable :=
      ⟨fun h => liftable_parts h hlayout, liftable_of_layout hlayout⟩
    rw [lower_of_layout hlayout, hiff]
    refine Settles.addFilled (fun id => ?_) draft p _
    rw [lowerAll_eq_mapM]
    exact .mapM fun u hu => ih u hu id
  | lifted ps body argument hfunction happly =>
    intro p
    rw [lower_lifted]
    refine .get fun s => ?_
    have hnote : ∀ f, Settles True p (modify fun s => { s with lifted := s.lifted ++ [f] }) :=
      fun f _ _ => ⟨trivial, Nat.le_refl _⟩
    have hfirst := (hfunction (liftedName s.lifted.length) rootId).ofRoot (p := p)
    refine (hfirst.bind fun f => (hnote f).bind fun _ => happly _ p).congr ?_
    rw [true_and]
    exact liftable_apply_lambda_iff _
  | refused t e hlayout =>
    intro p s _
    rw [lower_refused hlayout]
    exact ⟨not_liftable_of_layout hlayout, stage_of_layout hlayout⟩

/-- A statement is lowered to a function if and only if it is the binding of a lambda. -/
theorem exists_node_of_lower {p id : Int} {s s' : Lowered} (h : lower t p s = .ok id s') :
    ∃ node, s'.arena.node? id = some node ∧
      (t.IsDefinition ↔ ∃ x is b, node = .function x is b) := by
  obtain ⟨-, fs, -, -, hbuilt⟩ := builds_lower t _ p s id s' rfl h
  have hrep := (hbuilt s'.arena.node? (fun _ _ => True) (Arena.covers_node? _ _)
    fun _ _ _ _ _ _ => trivial).2
  obtain ⟨node, hnode⟩ := hrep.exists_node
  refine ⟨node, hnode, ?_, ?_⟩
  · rintro ⟨x, type, ps, body, rfl⟩
    cases hrep with
    | function hid =>
      rw [hnode] at hid
      exact ⟨_, _, _, Option.some.inj hid⟩
    | bind hne => exact absurd rfl (hne ps body)
  · rintro ⟨x, is, b, rfl⟩
    obtain ⟨type, ps, body, rfl, -⟩ := hrep.eq_bind_lambda hnode
    exact ⟨x, type, ps, body, rfl⟩

theorem settles_lowerTopLevel (t : Tree String) :
    Settles (t.IsDefinition ∧ t.Liftable) rootId (lowerTopLevel t) := by
  intro s hroot
  have hlower := settles_lower t rootId s hroot
  unfold lowerTopLevel
  cases h : lower t rootId s with
  | error e s₁ =>
    rw [h] at hlower
    rw [bind_of_error h]
    exact ⟨fun hgood => hlower.1 hgood.2, hlower.2⟩
  | ok id s₁ =>
    rw [h] at hlower
    obtain ⟨node, hnode, hiff⟩ := exists_node_of_lower h
    have hread : read id s₁ = .ok (some node) s₁ := by
      have hget : (get : Step Lowered) s₁ = .ok s₁ s₁ := rfl
      rw [read, bind_of_ok hget, Arena.value?_eq_some_iff.2 hnode]
      rfl
    rw [bind_of_ok h, bind_of_ok hread, hiff]
    cases node with
    | function x is b => exact ⟨⟨⟨x, is, b, rfl⟩, hlower.1⟩, hlower.2⟩
    | _ => exact ⟨by simp, rfl⟩

theorem assertNoPlaceholders_of_isTree {a : Arena Node} (h : a.IsTree) :
    assertNoPlaceholders a = .ok () := by
  have hnone : placeholderLeft? a = none := by
    refine List.find?_eq_none.2 fun n hn => ?_
    obtain ⟨k, s, hs, -, rfl⟩ := Arena.mem_live_iff.1 hn
    simpa using h.placeholderId_not_mem hs
  rw [assertNoPlaceholders, hnone]

/-- When the statements are lowered, nothing can go wrong any more. -/
theorem exists_lowered {ts : List (Tree String)} {is : List Int} {s : Lowered}
    (h : ts.mapM lowerTopLevel .initial = .ok is s) (hroot : Issued rootId s) :
    ∃ l, LetLang.lower (.file ts) = .ok l := by
  obtain ⟨s₁, hwrite, -⟩ := write_of_issued hroot (.file (is ++ s.lifted))
  have hget : ∀ s, (get : Step Lowered) s = .ok s s := fun _ => rfl
  have htree : s₁.arena.IsTree := isTree_of_statements h (write_eq_ok hwrite).2
  have hfile : lowerFile ts .initial = .ok () s₁ := by
    rw [lowerFile, bind_of_ok h, bind_of_ok (hget s), bind_of_ok hwrite, bind_of_ok (hget s₁)]
    simp only [assertNoPlaceholders_of_isTree htree]
    rfl
  exact ⟨s₁, by simp only [LetLang.lower, hfile]⟩

theorem error_of_statements {ts : List (Tree String)} {e : LoweringError} {s : Lowered}
    (h : ts.mapM lowerTopLevel .initial = .error e s) :
    LetLang.lower (.file ts) = .error e := by
  have hfile : lowerFile ts .initial = .error e s := by
    rw [lowerFile, bind_of_error h]
  simp only [LetLang.lower, hfile]

/-- A tree is lowered if it is a file of liftable definitions, and refused for what it is if not. -/
theorem lower_or_refuse (t : Tree String) :
    (∃ l, LetLang.lower t = .ok l ∧ t.IsLiftableFile) ∨
      ∃ e, LetLang.lower t = .error e ∧ ¬t.IsLiftableFile ∧ e.stage = .lower := by
  by_cases hfile : ∃ ts, t = .file ts
  · obtain ⟨ts, rfl⟩ := hfile
    have hsettled := Settles.mapM (fun u (_ : u ∈ ts) => settles_lowerTopLevel u) _
      issued_root_initial
    cases h : ts.mapM lowerTopLevel .initial with
    | ok is s =>
      rw [h] at hsettled
      obtain ⟨l, hl⟩ := exists_lowered h (issued_root_initial.mono hsettled.2)
      exact .inl ⟨l, hl, ts, rfl, hsettled.1⟩
    | error e s =>
      rw [h] at hsettled
      refine .inr ⟨e, error_of_statements h, ?_, hsettled.2⟩
      rintro ⟨_, ⟨rfl⟩, hgood⟩
      exact hsettled.1 hgood
  · refine .inr ⟨.notAFile t.kind, ?_, fun ⟨ts, ht, _⟩ => hfile ⟨ts, ht⟩, rfl⟩
    unfold LetLang.lower
    split
    · next ts => exact absurd ⟨ts, rfl⟩ hfile
    · rfl

/-- Exactly the files of liftable definitions are lowered, and any other tree is refused for what it
is, never for a number that was not given out or a placeholder that was left over. -/
theorem lower_succeeds_iff (t : Tree String) :
    ((∃ l, LetLang.lower t = .ok l) ↔ t.IsLiftableFile) ∧
      ∀ e, LetLang.lower t = .error e → e.stage = .lower := by
  rcases lower_or_refuse t with ⟨l, hl, hgood⟩ | ⟨e, he, hbad, hstage⟩
  · refine ⟨⟨fun _ => hgood, fun _ => ⟨l, hl⟩⟩, fun e he => ?_⟩
    cases hl.symm.trans he
  · refine ⟨⟨fun ⟨l, hl⟩ => ?_, fun hgood => absurd hgood hbad⟩, fun e' he' => ?_⟩
    · cases hl.symm.trans he
    · cases he.symm.trans he'
      exact hstage

/-- A lambda in a tuple is refused, whereas the type of a lambda under a name may be anything. -/
theorem loose_lambda_refused :
    (∃ l, LetLang.lower (.file [.bind (.identifier "f") (.file [])
        (.lambda [.number 1] (.tuple []))]) = .ok l) ∧
      ∃ e, LetLang.lower (.file [.bind (.identifier "f") .unitType
        (.lambda [] (.tuple [.lambda [] (.number 1)]))]) = .error e ∧ e.stage = .lower := by
  constructor
  · refine (lower_succeeds_iff _).1.2 ⟨_, rfl, ?_⟩
    rw [List.forall_mem_singleton]
    exact ⟨⟨_, _, _, _, rfl⟩, .function (by simpa using .number 1) (.tuple (by simp))⟩
  · have he : LetLang.lower (.file [.bind (.identifier "f") .unitType
        (.lambda [] (.tuple [.lambda [] (.number 1)]))]) = .error .looseLambda := by cbv
    exact ⟨_, he, (lower_succeeds_iff _).2 _ he⟩

end Lowering

end LetLang
