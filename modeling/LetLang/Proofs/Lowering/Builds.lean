import LetLang.Proofs.Arena.Growth
import LetLang.Proofs.Lowering.Represents
import LetLang.Proofs.Step

/-!
# What a step of lowering builds

A step that succeeds only adds to the arena, and what it says about its result is said about the
nodes that it added. So it stays true of every later arena, and the steps can be put together one
after the other.
-/

namespace LetLang.Lowering

variable {α β : Type}

/-- What is said of a result when some nodes are known and names are read by `R`. -/
abbrev Claim (α : Type) := (Int → Option Node) → (String → Int → Prop) → α → Prop

/-- From `n` functions on, a step that succeeds lifts the lambdas `ls`, and its result satisfies `P`
for all nodes that cover the added ones, if the lifted functions can be found by their names. -/
def Builds (n : Nat) (ls : List Lifting) (P : Claim α) (x : Step α) : Prop :=
  ∀ s a s', s.lifted.length = n → x s = .ok a s' →
    s.arena.Extends s'.arena ∧ ∃ fs, s'.lifted = s.lifted ++ fs ∧ fs.length = ls.length ∧
      ∀ nodes R, Arena.Covers nodes (s'.arena.since s.arena.size) →
        (∀ f ∈ fs, ∀ name is b, nodes f = some (.function name is b) → R name f) →
        List.Forall₂ (IsLifted nodes R) ls fs ∧ P nodes R a

theorem add_eq_ok {node : Node} {parent id : Int} {s s' : Lowered}
    (h : add node parent s = .ok id s') :
    id = s.arena.size ∧ s'.lifted = s.lifted ∧ s.arena.add node parent = .ok s'.arena := by
  unfold add at h
  obtain ⟨_, _, hs, h⟩ := bind_eq_ok h
  cases hs
  cases ha : s.arena.add node parent with
  | ok a =>
    rw [ha] at h
    obtain ⟨_, _, hs, h⟩ := bind_eq_ok h
    cases hs
    cases h
    exact ⟨rfl, rfl, rfl⟩
  | error e =>
    rw [ha] at h
    cases h

theorem write_eq_ok {node : Node} {id : Int} {s s' : Lowered} {u : Unit}
    (h : write id node s = .ok u s') :
    s'.lifted = s.lifted ∧ s.arena.setValue id node = .ok s'.arena := by
  unfold write at h
  obtain ⟨_, _, hs, h⟩ := bind_eq_ok h
  cases hs
  cases ha : s.arena.setValue id node with
  | ok a =>
    rw [ha] at h
    cases h
    exact ⟨rfl, rfl⟩
  | error e =>
    rw [ha] at h
    cases h

theorem read_eq_ok {id : Int} {s s' : Lowered} {node : Option Node}
    (h : read id s = .ok node s') : s' = s ∧ s.arena.value? id = .ok node := by
  unfold read at h
  obtain ⟨_, _, hs, h⟩ := bind_eq_ok h
  cases hs
  cases hv : s.arena.value? id with
  | ok v =>
    rw [hv] at h
    cases h
    exact ⟨rfl, rfl⟩
  | error e =>
    rw [hv] at h
    cases h

namespace Builds

variable {n : Nat} {ls ls₁ ls₂ : List Lifting} {P : Claim α} {Q : Claim β} {x : Step α}

theorem mono {C : Claim α} (h : Builds n ls P x) (hC : ∀ nodes R a, P nodes R a → C nodes R a) :
    Builds n ls C x := by
  intro s a s' hn hx
  obtain ⟨he, fs, hfs, hlen, hb⟩ := h s a s' hn hx
  refine ⟨he, fs, hfs, hlen, fun nodes R hc hR => ?_⟩
  obtain ⟨hl, hP⟩ := hb nodes R hc hR
  exact ⟨hl, hC nodes R a hP⟩

theorem pure {a : α} (h : ∀ nodes R, P nodes R a) : Builds n [] P (pure a) := by
  intro s a' s' _ hx
  cases hx
  exact ⟨Arena.Extends.refl _, [], by simp, rfl, fun nodes R _ _ => ⟨.nil, h nodes R⟩⟩

theorem throw {e : LoweringError} : Builds n ls P (throw e) := by
  intro s a s' _ hx
  cases hx

/-- The part of the state that a step may look at is the number of functions. -/
theorem get {f : Lowered → Step α} (h : ∀ s, s.lifted.length = n → Builds n ls P (f s)) :
    Builds n ls P (get >>= f) := fun s a s' hn hx => h s hn s a s' hn hx

theorem bind {Q : α → Claim β} {f : α → Step β} (hx : Builds n ls₁ P x)
    (hf : ∀ a, Builds (n + ls₁.length) ls₂ (Q a) (f a)) :
    Builds n (ls₁ ++ ls₂) (fun nodes R b => ∃ a, P nodes R a ∧ Q a nodes R b) (x >>= f) := by
  intro s b s' hn h
  obtain ⟨a, s₁, h₁, h₂⟩ := bind_eq_ok h
  obtain ⟨he₁, fs₁, hfs₁, hlen₁, hb₁⟩ := hx s a s₁ hn h₁
  have hn₁ : s₁.lifted.length = n + ls₁.length := by
    rw [hfs₁, List.length_append, hn, hlen₁]
  obtain ⟨he₂, fs₂, hfs₂, hlen₂, hb₂⟩ := hf a s₁ b s' hn₁ h₂
  refine ⟨he₁.trans he₂, fs₁ ++ fs₂, by rw [hfs₂, hfs₁, List.append_assoc],
    by simp [hlen₁, hlen₂], ?_⟩
  intro nodes R hc hR
  -- Nodes of the first step are still there after the second, and the second starts later.
  have hc₁ := hc.trans (he₂.covers_since (Nat.le_refl _))
  have hc₂ := hc.trans ((Arena.Extends.refl _).covers_since he₁.size_le)
  obtain ⟨hl₁, hP⟩ := hb₁ nodes R hc₁ fun f hf => hR f (List.mem_append_left _ hf)
  obtain ⟨hl₂, hQ⟩ := hb₂ nodes R hc₂ fun f hf => hR f (List.mem_append_right _ hf)
  exact ⟨List.rel_append hl₁ hl₂, a, hP, hQ⟩

theorem map {f : α → β} (hx : Builds n ls P x) (hQ : ∀ nodes R a, P nodes R a → Q nodes R (f a)) :
    Builds n ls Q (x >>= fun a => Pure.pure (f a)) := by
  have hpure : ∀ a, Builds (n + ls.length) [] (fun nodes R b => P nodes R a → Q nodes R b)
      (Pure.pure (f a)) := fun a => pure fun nodes R => hQ nodes R a
  have h := hx.bind hpure
  rw [List.append_nil] at h
  exact h.mono fun _ _ _ ⟨_, hP, h⟩ => h hP

theorem add (node : Node) (parent : Int) :
    Builds n [] (fun nodes _ id => nodes id = some node) (add node parent) := by
  intro s id s' _ h
  obtain ⟨rfl, hl, ha⟩ := add_eq_ok h
  refine ⟨Arena.extends_of_add ha, [], by simp [hl], rfl, fun nodes R hc _ => ⟨.nil, hc _ _ ?_⟩⟩
  exact Arena.since_eq_some_iff.2 ⟨by omega, Arena.node?_of_add ha⟩

/-- Writing a node again does not touch the nodes that came after it. -/
theorem addFilled (draft : Node) (parent : Int) (finish : α → Node) {fill : Int → Step α}
    (h : ∀ id, Builds n ls P (fill id)) :
    Builds n ls (fun nodes R id => ∃ parts, nodes id = some (finish parts) ∧ P nodes R parts)
      (addFilled draft parent fill finish) := by
  intro s id s' hn hx
  obtain ⟨i, s₁, hadd, hx⟩ := bind_eq_ok hx
  obtain ⟨parts, s₂, hfill, hx⟩ := bind_eq_ok hx
  obtain ⟨u, s₃, hwrite, hx⟩ := bind_eq_ok hx
  cases hx
  obtain ⟨rfl, hl₁, ha⟩ := add_eq_ok hadd
  obtain ⟨he, fs, hfs, hlen, hb⟩ := h _ s₁ parts s₂ (by rw [hl₁, hn]) hfill
  obtain ⟨hl₃, hw⟩ := write_eq_ok hwrite
  have hsize := Arena.size_add ha
  have hadded := he.node? (Arena.node?_of_add ha)
  refine ⟨((Arena.extends_of_add ha).trans he).setValue (Nat.le_refl _) hw, fs,
    by rw [hl₃, hfs, hl₁], hlen, ?_⟩
  intro nodes R hc hR
  have hc₂ : Arena.Covers nodes (s₂.arena.since s₁.arena.size) :=
    hc.of_setValue hw (by omega) (by omega)
  obtain ⟨hlift, hP⟩ := hb nodes R hc₂ hR
  refine ⟨hlift, parts, hc _ _ (Arena.since_eq_some_iff.2 ⟨by omega, ?_⟩), hP⟩
  exact Arena.node?_of_setValue hw hadded

/-- A function made of an applied lambda is noted before the step goes on. -/
theorem lift {l : Lifting} {y : Step β} {x : Step Int}
    (hx : Builds n ls₁ (fun nodes R f => IsLifted nodes R l f) x)
    (hy : Builds (n + (ls₁ ++ [l]).length) ls₂ Q y) :
    Builds n (ls₁ ++ [l] ++ ls₂)
      (fun nodes R b => ∃ f, IsLifted nodes R l f ∧ R (liftedName l.number) f ∧ Q nodes R b)
      (do
        let f ← x
        modify fun s => { s with lifted := s.lifted ++ [f] }
        y) := by
  intro s b s' hn h
  obtain ⟨f, s₁, h₁, h⟩ := bind_eq_ok h
  obtain ⟨_, s₂, h₂, h₃⟩ := bind_eq_ok h
  cases h₂
  obtain ⟨he₁, fs₁, hfs₁, hlen₁, hb₁⟩ := hx s f s₁ hn h₁
  obtain ⟨he₂, fs₂, hfs₂, hlen₂, hb₂⟩ := hy ⟨s₁.arena, s₁.lifted ++ [f]⟩ b s'
    (by simp [hfs₁, hlen₁, hn]) h₃
  refine ⟨he₁.trans he₂, fs₁ ++ [f] ++ fs₂, ?_, by simp [hlen₁, hlen₂], ?_⟩
  · rw [hfs₂, hfs₁]
    simp
  intro nodes R hc hR
  have hc₁ := hc.trans (he₂.covers_since (Nat.le_refl _))
  have hc₂ := hc.trans ((Arena.Extends.refl _).covers_since he₁.size_le)
  obtain ⟨hl₁, hf⟩ := hb₁ nodes R hc₁ fun g hg => hR g (by simp [hg])
  obtain ⟨hl₂, hQ⟩ := hb₂ nodes R hc₂ fun g hg => hR g (by simp [hg])
  have hRf : R (liftedName l.number) f := by
    obtain ⟨hnode, -, -⟩ := hf
    exact hR f (by simp) _ _ _ hnode
  exact ⟨List.rel_append (List.rel_append hl₁ (.cons hf .nil)) hl₂, f, hf, hRf, hQ⟩

theorem pair {y : Step β} (hx : Builds n ls₁ P x) (hy : Builds (n + ls₁.length) ls₂ Q y) :
    Builds n (ls₁ ++ ls₂) (fun nodes R p => P nodes R p.1 ∧ Q nodes R p.2)
      (do return (← x, ← y)) := by
  have h := hx.bind fun a => hy.map (f := fun b => (a, b))
    (Q := fun nodes R p => p.1 = a ∧ Q nodes R p.2) fun _ _ _ hQ => ⟨rfl, hQ⟩
  exact h.mono fun _ _ _ ⟨_, hP, rfl, hQ⟩ => ⟨hP, hQ⟩

end Builds

section
variable {ts ps : List (Tree String)} {t body argument : Tree String}

/-- Lowering the tree builds its liftings and a node that represents it. -/
def BuildsTree (t : Tree String) : Prop :=
  ∀ n parent, Builds n (liftings t n) (fun nodes R => Represents nodes R t) (lower t parent)

/-- Lowering the trees in order builds their liftings and nodes that represent them. -/
def BuildsTrees (ts : List (Tree String)) : Prop :=
  ∀ n parent, Builds n (liftingsAll ts n)
    (fun nodes R => List.Forall₂ (Represents nodes R) ts) (lowerAll ts parent)

theorem builds_addFunction (hps : BuildsTrees ps) (hb : BuildsTree body) (name : String)
    (n : Nat) (parent : Int) :
    Builds n (inTurn (liftingsAll ps) (liftings body) n)
      (fun nodes R id => ∃ is b, nodes id = some (.function name is b) ∧
        List.Forall₂ (Represents nodes R) ps is ∧ Represents nodes R body b)
      (addFunction name (lowerAll ps) (lower body) parent) := by
  have h := Builds.addFilled (.function name [] placeholderId) parent
    (fun parts => .function name parts.1 parts.2)
    fun id => (hps n id).pair (hb (n + (liftingsAll ps n).length) id)
  exact h.mono fun _ _ _ ⟨parts, hid, hps, hb⟩ => ⟨parts.1, parts.2, hid, hps, hb⟩

theorem builds_addApplication (ha : BuildsTree argument) (name : String) (n : Nat)
    (parent : Int) :
    Builds n (liftings argument n)
      (fun nodes R id => ∃ i a, nodes id = some (.apply i a) ∧
        nodes i = some (.identifier name) ∧ Represents nodes R argument a)
      (addApplication name (lower argument) parent) := by
  have h := Builds.addFilled (.apply placeholderId placeholderId) parent
    (fun parts : Int × Int => .apply parts.1 parts.2)
    fun id => (Builds.add (.identifier name) id).pair (ha n id)
  exact h.mono fun _ _ _ ⟨parts, hid, hi, ha⟩ => ⟨parts.1, parts.2, hid, hi, ha⟩

/-- A node with two parts. -/
theorem builds_both {l r : Tree String} (hl : BuildsTree l) (hr : BuildsTree r) (n : Nat)
    (parent : Int) (draft : Node) (finish : Int → Int → Node) :
    Builds n (inTurn (liftings l) (liftings r) n)
      (fun nodes R id => ∃ i j, nodes id = some (finish i j) ∧ Represents nodes R l i ∧
        Represents nodes R r j)
      (addFilled draft parent (fun id => do return (← lower l id, ← lower r id))
        fun parts => finish parts.1 parts.2) := by
  have h := Builds.addFilled draft parent (fun parts : Int × Int => finish parts.1 parts.2)
    fun id => (hl n id).pair (hr (n + (liftings l n).length) id)
  exact h.mono fun _ _ _ ⟨parts, hid, hl, hr⟩ => ⟨parts.1, parts.2, hid, hl, hr⟩

/-- A node with any number of parts. -/
theorem builds_list (hts : BuildsTrees ts) (n : Nat) (parent : Int) (draft : Node)
    (finish : List Int → Node) :
    Builds n (liftingsAll ts n)
      (fun nodes R id => ∃ is, nodes id = some (finish is) ∧
        List.Forall₂ (Represents nodes R) ts is)
      (addFilled draft parent (lowerAll ts) finish) :=
  Builds.addFilled draft parent finish fun id => hts n id

theorem builds_bind {x : String} {type value : Tree String} (hv : ∀ ps b, value ≠ .lambda ps b)
    (htype : BuildsTree type) (hvalue : BuildsTree value) :
    BuildsTree (.bind (.identifier x) type value) := by
  intro n parent
  rw [liftings, lower]
  · have h := Builds.addFilled (.bind placeholderId placeholderId placeholderId) parent
      (fun parts : Int × Int × Int => .bind parts.1 parts.2.1 parts.2.2)
      fun id => (Builds.add (.identifier x) id).bind fun i => (htype n id).bind fun t =>
        (hvalue (n + (liftings type n).length) id).map (f := fun v => (i, t, v))
          (Q := fun nodes R p => p.1 = i ∧ p.2.1 = t ∧ Represents nodes R value p.2.2)
          fun _ _ _ h => ⟨rfl, rfl, h⟩
    have hmono := h.mono (C := fun nodes R => Represents nodes R (.bind (.identifier x) type value))
      fun nodes R id ⟨⟨i, t, v⟩, hid, _, hi, _, ht, hit, htt, hv'⟩ => by
        cases hit
        cases htt
        exact .bind hv hid hi ht hv'
    exact hmono
  · exact hv
  · exact fun _ ps b _ => hv ps b

theorem builds_applyLambda (hps : BuildsTrees ps) (hb : BuildsTree body)
    (ha : BuildsTree argument) : BuildsTree (.apply (.lambda ps body) argument) := by
  intro n parent
  rw [liftings, lower]
  refine Builds.get fun s hn => ?_
  subst hn
  have hf := (builds_addFunction hps hb (liftedName s.lifted.length) s.lifted.length rootId).mono
    (C := fun nodes R f => IsLifted nodes R ⟨s.lifted.length, ps, body⟩ f)
    fun _ _ _ ⟨_, _, hid, hps, hb⟩ => ⟨hid, hps, hb⟩
  refine (hf.lift (builds_addApplication ha (liftedName s.lifted.length) _ parent)).mono ?_
  rintro nodes R id ⟨f, ⟨hnode, hps, hb⟩, hR, i, a, hid, hi, ha⟩
  exact .applyLambda hid hi hR hnode hps hb ha

mutual

theorem builds_lower : (t : Tree String) → BuildsTree t
  | .bind id type value => by
    cases id with
    | identifier x =>
      cases value with
      | lambda ps body =>
        intro n parent
        rw [liftings, lower]
        exact (builds_addFunction (builds_lowerAll ps) (builds_lower body) x n parent).mono
          fun _ _ _ ⟨_, _, hid, hps, hb⟩ => .function hid hps hb
      | _ => exact builds_bind (by simp) (builds_lower type) (builds_lower _)
    | _ => exact fun _ _ => Builds.throw
  | .apply callee argument => by
    cases callee with
    | lambda ps body =>
      exact builds_applyLambda (builds_lowerAll ps) (builds_lower body) (builds_lower argument)
    | identifier x =>
      intro n parent
      exact (builds_addApplication (builds_lower argument) x n parent).mono
        fun _ _ _ ⟨_, _, hid, hi, ha⟩ => .apply hid hi ha
    | _ => exact fun _ _ => Builds.throw
  | .block ts => fun n parent =>
    (builds_list (builds_lowerAll ts) n parent _ .sequence).mono
      fun _ _ _ ⟨_, hid, h⟩ => .block hid h
  | .identifier x => fun n parent => (Builds.add (.identifier x) parent).mono
    fun _ _ _ => .identifier
  | .binary left right op => fun n parent =>
    (builds_both (builds_lower left) (builds_lower right) n parent _ (.binary op)).mono
      fun _ _ _ ⟨_, _, hid, hl, hr⟩ => .binary hid hl hr
  | .lambda .. => fun _ _ => Builds.throw
  | .number n => fun _ parent => (Builds.add (.number n) parent).mono fun _ _ _ => .number
  | .boolean b => fun _ parent => (Builds.add (.boolean b) parent).mono fun _ _ _ => .boolean
  | .text s => fun _ parent => (Builds.add (.text s) parent).mono fun _ _ _ => .text
  | .tuple ts => fun n parent =>
    (builds_list (builds_lowerAll ts) n parent _ .tuple).mono fun _ _ _ ⟨_, hid, h⟩ => .tuple hid h
  | .array ts => fun n parent =>
    (builds_list (builds_lowerAll ts) n parent _ .array).mono fun _ _ _ ⟨_, hid, h⟩ => .array hid h
  | .file _ => fun _ _ => Builds.throw
  | .sumType ts => fun n parent =>
    (builds_list (builds_lowerAll ts) n parent _ .sumType).mono
      fun _ _ _ ⟨_, hid, h⟩ => .sumType hid h
  | .productType ts => fun n parent =>
    (builds_list (builds_lowerAll ts) n parent _ .productType).mono
      fun _ _ _ ⟨_, hid, h⟩ => .productType hid h
  | .typeName x => fun _ parent => (Builds.add (.typeName x) parent).mono fun _ _ _ => .typeName
  | .functionType source target => fun n parent =>
    (builds_both (builds_lower source) (builds_lower target) n parent _ .functionType).mono
      fun _ _ _ ⟨_, _, hid, hs, ht⟩ => .functionType hid hs ht
  | .arrayType element length => fun n parent =>
    (Builds.addFilled _ parent (.arrayType length) fun id => builds_lower element n id).mono
      fun _ _ _ ⟨_, hid, he⟩ => .arrayType hid he
  | .unitType => fun _ parent => (Builds.add .unitType parent).mono fun _ _ _ => .unitType

theorem builds_lowerAll : (ts : List (Tree String)) → BuildsTrees ts
  | [] => fun _ _ => Builds.pure fun _ _ => .nil
  | t :: ts => by
    intro n parent
    have h := (builds_lower t n parent).bind fun i =>
      (builds_lowerAll ts (n + (liftings t n).length) parent).map (f := fun is => i :: is)
        (Q := fun nodes R js => ∃ is, js = i :: is ∧ List.Forall₂ (Represents nodes R) ts is)
        fun _ _ _ h => ⟨_, rfl, h⟩
    refine h.mono ?_
    rintro nodes R _ ⟨i, hi, is, rfl, his⟩
    exact .cons hi his

end

end

/-- A statement of a file that lowers to a function is the binding of a lambda. -/
theorem builds_lowerTopLevel (t : Tree String) (n : Nat) :
    Builds n (liftings t n) (fun nodes R id => Represents nodes R t id ∧ t.IsDefinition)
      (lowerTopLevel t) := by
  intro s id s' hn h
  obtain ⟨id', s₁, hlower, h₁⟩ := bind_eq_ok h
  obtain ⟨node, _, hread, h₂⟩ := bind_eq_ok h₁
  obtain ⟨rfl, hnode⟩ := read_eq_ok hread
  obtain ⟨he, fs, hfs, hlen, hb⟩ := builds_lower t n rootId s id' _ hn hlower
  match node, hnode, h₂ with
  | some (.function x is b), hnode, h₂ =>
    cases h₂
    have hrep := (hb s'.arena.node? (fun _ _ => True) (Arena.covers_node? _ _)
      fun _ _ _ _ _ _ => trivial).2
    obtain ⟨type, ps, body, rfl, -⟩ := hrep.eq_bind_lambda (Arena.value?_eq_some_iff.1 hnode)
    refine ⟨he, fs, hfs, hlen, fun nodes R hc hR => ?_⟩
    obtain ⟨hl, hrep⟩ := hb nodes R hc hR
    exact ⟨hl, hrep, x, type, ps, body, rfl⟩

theorem builds_statements (ts : List (Tree String)) :
    ∀ n, Builds n (liftingsAll ts n)
      (fun nodes R is => List.Forall₂ (Represents nodes R) ts is ∧ ∀ t ∈ ts, t.IsDefinition)
      (ts.mapM lowerTopLevel) := by
  induction ts with
  | nil => exact fun n => Builds.pure fun _ _ => ⟨.nil, by simp⟩
  | cons t ts ih =>
    intro n
    rw [List.mapM_cons]
    have h := (builds_lowerTopLevel t n).bind fun i =>
      (ih (n + (liftings t n).length)).map (f := fun is => i :: is)
        (Q := fun nodes R js => ∃ is, js = i :: is ∧ List.Forall₂ (Represents nodes R) ts is ∧
          ∀ t ∈ ts, t.IsDefinition) fun _ _ _ h => ⟨_, rfl, h⟩
    refine h.mono ?_
    rintro nodes R _ ⟨i, ⟨hi, hd⟩, is, rfl, his, hds⟩
    exact ⟨.cons hi his, List.forall_mem_cons.2 ⟨hd, hds⟩⟩

theorem lowerFile_eq_ok {ts : List (Tree String)} {l : Lowered}
    (h : LetLang.lower (.file ts) = .ok l) :
    ∃ is s, ts.mapM lowerTopLevel .initial = .ok is s ∧ l.lifted = s.lifted ∧
      s.arena.setValue rootId (.file (is ++ s.lifted)) = .ok l.arena := by
  unfold LetLang.lower at h
  cases hfile : lowerFile ts .initial with
  | error e s => simp [hfile] at h
  | ok u s' =>
    simp only [hfile, Except.ok.injEq] at h
    subst h
    obtain ⟨is, s₁, hmap, h₁⟩ := bind_eq_ok hfile
    obtain ⟨_, _, hs, h₂⟩ := bind_eq_ok h₁
    cases hs
    obtain ⟨_, s₂, hwrite, h₃⟩ := bind_eq_ok h₂
    obtain ⟨_, _, hs, h₄⟩ := bind_eq_ok h₃
    cases hs
    obtain ⟨hl, hset⟩ := write_eq_ok hwrite
    -- The last check may fail, but it changes nothing.
    cases hleft : assertNoPlaceholders s₂.arena with
    | ok u =>
      rw [hleft] at h₄
      cases h₄
      exact ⟨is, s₁, hmap, hl, hset⟩
    | error e =>
      rw [hleft] at h₄
      cases h₄

/-- The root of a lowered file lists functions that represent the statements, and after them those
made of applied lambdas. -/
theorem represents_of_lower {ts : List (Tree String)} {l : Lowered}
    (h : LetLang.lower (.file ts) = .ok l) :
    ∃ is, l.arena.node? rootId = some (.file (is ++ l.lifted)) ∧ (∀ t ∈ ts, t.IsDefinition) ∧
      l.lifted.length = (liftingsAll ts 0).length ∧
      ∀ R, (∀ f ∈ l.lifted, ∀ name is b, l.arena.node? f = some (.function name is b) → R name f) →
        List.Forall₂ (Represents l.arena.node? R) ts is ∧
          List.Forall₂ (IsLifted l.arena.node? R) (liftingsAll ts 0) l.lifted := by
  obtain ⟨is, s, hmap, hl, hset⟩ := lowerFile_eq_ok h
  obtain ⟨he, fs, hfs, hlen, hb⟩ := builds_statements ts 0 .initial is s rfl hmap
  have hroot : s.arena.node? rootId = some (.file []) := he.node? rfl
  have hc : Arena.Covers l.arena.node? (s.arena.since Lowered.initial.arena.size) :=
    (Arena.covers_node? l.arena 0).of_setValue hset (Nat.zero_le _) Nat.zero_lt_one
  have hlifted : l.lifted = fs := by simpa [Lowered.initial] using hl.trans hfs
  obtain ⟨-, -, hdef⟩ := hb l.arena.node? (fun _ _ => True) hc fun _ _ _ _ _ _ => trivial
  refine ⟨is, ?_, hdef, by rw [hlifted, hlen], fun R hR => ?_⟩
  · rw [hl]
    exact Arena.node?_of_setValue hset hroot
  · rw [hlifted] at hR ⊢
    obtain ⟨hlift, hrep, -⟩ := hb l.arena.node? R hc hR
    exact ⟨hrep, hlift⟩

end LetLang.Lowering
