import LetLang.Proofs.Arena.History
import LetLang.Proofs.Evaluation.Reading
import LetLang.Proofs.Lowering.Consistent
import LetLang.Proofs.Lowering.Hanging

/-!
# Types are not read

In the arena of a lowered file a type holds types only, and of the other nodes only a binding holds
a type, which an evaluation does not follow. So the types can be deleted, in any order, and the
program runs as before.
-/

namespace LetLang

namespace Arena

def typeIds (a : Arena Node) : List Int :=
  (a.live.filter fun n => n.2.isType).map fun n => (n.1 : Int)

def TypeAt (a : Arena Node) (i : Int) : Prop := ∃ node, a.node? i = some node ∧ node.isType = true

/-- The node is live and does not belong to a type. -/
def TermAt (a : Arena Node) (i : Int) : Prop := ∃ node, a.node? i = some node ∧ node.isType = false

/-- Types hold types only, and what an evaluation follows from the other nodes is no type. -/
structure KeepsTypesApart (a : Arena Node) : Prop where
  types : ∀ i node, a.node? i = some node → node.isType = true → ∀ j ∈ node.references, a.TypeAt j
  terms : ∀ i node, a.node? i = some node → node.isType = false → ∀ j ∈ node.operands, a.TermAt j

variable {a : Arena Node} {i : Int} {k : Nat} {s : Slot Node}

theorem mem_typeIds_iff : i ∈ a.typeIds ↔ a.TypeAt i := by
  simp only [typeIds, List.mem_map, List.mem_filter, mem_live_iff]
  constructor
  · rintro ⟨_, ⟨⟨k, s, hs, hlive, rfl⟩, htype⟩, rfl⟩
    exact ⟨s.value, node?_of_slot hs hlive, htype⟩
  · rintro ⟨node, hnode, htype⟩
    obtain ⟨k, s, rfl, hs, hlive, rfl⟩ := exists_slot_of_node? hnode
    exact ⟨_, ⟨⟨k, s, hs, hlive, rfl⟩, htype⟩, rfl⟩

theorem typeAt_iff_of_slot (hs : a.slots[k]? = some s) (hlive : s.live = true) :
    a.TypeAt k ↔ s.value.isType = true := by
  have hnode := node?_of_slot hs hlive
  constructor
  · rintro ⟨node, hnode', htype⟩
    cases hnode.symm.trans hnode'
    exact htype
  · exact fun htype => ⟨_, hnode, htype⟩

theorem TermAt.not_typeAt (h : a.TermAt i) : ¬ a.TypeAt i := by
  rintro ⟨node, hnode, htype⟩
  obtain ⟨node', hnode', hterm⟩ := h
  cases hnode.symm.trans hnode'
  exact Bool.false_ne_true (hterm.symm.trans htype)

/-- A deletion that begins at a type stays in types. -/
theorem KeepsTypesApart.typeAt_of_hangsAlive (h : a.KeepsTypesApart) (ha : a.IsTree) {n : Nat}
    (hn : a.TypeAt n) (hk : a.HangsAlive n k) : a.TypeAt k := by
  induction hk with
  | self => exact hn
  | @child i j _ hchild ih =>
    obtain ⟨node, hnode, htype⟩ := ih
    obtain ⟨i', s, hi, hs, -, rfl⟩ := exists_slot_of_node? hnode
    obtain rfl := Int.ofNat.inj hi
    exact h.types i s.value hnode htype j ((ha.mem_references_iff hs).2 ⟨j, rfl, hchild⟩)

/-- Deleting the types of a tree, in any order, marks the types and nothing else. -/
theorem KeepsTypesApart.exists_deleteAll (h : a.KeepsTypesApart) (ha : a.IsTree) {ids : List Int}
    (hids : ∀ id, id ∈ ids ↔ id ∈ a.typeIds) :
    ∃ b, ids.foldlM Arena.delete a = .ok b ∧ a.Buries b fun k => a.TypeAt k := by
  have hmem : ∀ id, id ∈ ids ↔ a.TypeAt id := fun id => (hids id).trans mem_typeIds_iff
  have hissued : ∀ id ∈ ids, 0 ≤ id ∧ id < a.size := by
    intro id hid
    obtain ⟨node, hnode, -⟩ := (hmem id).1 hid
    obtain ⟨k, s, rfl, hs, -⟩ := exists_slot_of_node? hnode
    obtain ⟨hlt, -⟩ := Array.getElem?_eq_some_iff.1 hs
    unfold size
    omega
  obtain ⟨b, hb, hburies⟩ := Arena.exists_deleteAll hissued
  refine ⟨b, hb, hburies.congr fun k => ?_⟩
  constructor
  · rintro ⟨n, hn, hk⟩
    exact h.typeAt_of_hangsAlive ha ((hmem n).1 hn) hk
  · rintro ⟨node, hnode, htype⟩
    obtain ⟨k', s, hk, hs, hlive, -⟩ := exists_slot_of_node? hnode
    obtain rfl := Int.ofNat.inj hk
    exact ⟨k, (hmem k).2 ⟨node, hnode, htype⟩, .self hs hlive⟩

/-- Without the types, the other nodes are there as before. -/
theorem KeepsTypesApart.agreeOn (h : a.KeepsTypesApart) {b : Arena Node}
    (hb : a.Buries b fun k => a.TypeAt k) : a.AgreeOn a.TermAt b := by
  rintro i ⟨node, hnode, hterm⟩
  obtain ⟨k, s, rfl, hs, -⟩ := exists_slot_of_node? hnode
  have hsame : b.node? k = a.node? k := hb.node?_eq (TermAt.not_typeAt ⟨node, hnode, hterm⟩)
  exact ⟨node, hnode, hsame.trans hnode, h.terms k node hnode hterm⟩

end Arena

namespace Lowering

section
variable (nodes : Int → Option Node)

def TypeNode (i : Int) : Prop :=
  ∃ t, t.IsTypeExpression ∧ Represents nodes (fun _ _ => True) t i

/-- The node represents an expression or a statement, or it is the function of an applied lambda, or
the name that something is bound to or that is applied. -/
inductive TermNode (i : Int) : Prop
  | parsed {t : Tree String} : t.IsParsed → Represents nodes (fun _ _ => True) t i → TermNode i
  | lifted {m : Lifting} : m.IsParsed → IsLifted nodes (fun _ _ => True) m i → TermNode i
  | name {x : String} : nodes i = some (.identifier x) → TermNode i

/-- The node belongs to a type, and what it holds represents types. -/
def HoldsTypes (i : Int) : Prop :=
  ∃ node, nodes i = some node ∧ node.isType = true ∧ ∀ j ∈ node.references, TypeNode nodes j

/-- The node does not belong to a type, nor does what an evaluation follows from it. -/
def HoldsTerms (i : Int) : Prop :=
  ∃ node, nodes i = some node ∧ node.isType = false ∧ (∀ j ∈ node.operands, TermNode nodes j) ∧
    ∀ j ∈ node.references, TermNode nodes j ∨ TypeNode nodes j

end

variable {nodes : Int → Option Node} {t : Tree String} {ts : List (Tree String)} {i : Int}
  {is : List Int}

theorem typeNode_of_forall₂ (hts : ∀ t ∈ ts, t.IsTypeExpression)
    (h : List.Forall₂ (Represents nodes fun _ _ => True) ts is) : ∀ j ∈ is, TypeNode nodes j := by
  intro j hj
  obtain ⟨t, ht, hrep⟩ := exists_of_forall₂ h hj
  exact ⟨t, hts t ht, hrep⟩

theorem holdsTypes_of_isTypeAtom (ht : t.IsTypeAtom)
    (h : Represents nodes (fun _ _ => True) t i) : HoldsTypes nodes i := by
  cases ht with
  | name =>
    cases h with
    | typeName hid => exact ⟨_, hid, rfl, by simp [Node.references]⟩
  | array hn =>
    cases h with
    | arrayType hid he =>
      have helement : TypeNode nodes _ := ⟨_, .option (.link (.atom (.name hn))), he⟩
      exact ⟨_, hid, rfl, by simpa [Node.references] using helement⟩

theorem holdsTypes_of_isTypeLink (ht : t.IsTypeLink)
    (h : Represents nodes (fun _ _ => True) t i) : HoldsTypes nodes i := by
  cases ht with
  | atom ht => exact holdsTypes_of_isTypeAtom ht h
  | product _ hts =>
    cases h with
    | productType hid hparts =>
      have htypes : ∀ t ∈ _, Tree.IsTypeExpression t :=
        fun t ht => .option (.link (.atom (hts t ht)))
      exact ⟨_, hid, rfl, typeNode_of_forall₂ htypes hparts⟩

theorem holdsTypes_of_isTypeOption (ht : t.IsTypeOption)
    (h : Represents nodes (fun _ _ => True) t i) : HoldsTypes nodes i := by
  cases ht with
  | link ht => exact holdsTypes_of_isTypeLink ht h
  | function hs ht =>
    cases h with
    | functionType hid hsource htarget =>
      have hboth : TypeNode nodes _ ∧ TypeNode nodes _ :=
        ⟨⟨_, .option (.link hs), hsource⟩, ⟨_, .option ht, htarget⟩⟩
      exact ⟨_, hid, rfl, by simpa [Node.references] using hboth⟩

theorem TypeNode.holdsTypes (h : TypeNode nodes i) : HoldsTypes nodes i := by
  obtain ⟨t, ht, hrep⟩ := h
  cases ht with
  | option ht => exact holdsTypes_of_isTypeOption ht hrep
  | sum _ hts =>
    cases hrep with
    | sumType hid hparts =>
      exact ⟨_, hid, rfl, typeNode_of_forall₂ (fun t ht => .option (hts t ht)) hparts⟩

theorem termNode_of_forall₂ (hts : ∀ t ∈ ts, t.IsParsed)
    (h : List.Forall₂ (Represents nodes fun _ _ => True) ts is) : ∀ j ∈ is, TermNode nodes j := by
  intro j hj
  obtain ⟨t, ht, hrep⟩ := exists_of_forall₂ h hj
  exact .parsed (hts t ht) hrep

/-- Most nodes are evaluated by following all that they hold. -/
theorem holdsTerms_of_references {node : Node} (hid : nodes i = some node)
    (hterm : node.isType = false) (hoperands : node.operands = node.references)
    (h : ∀ j ∈ node.references, TermNode nodes j) : HoldsTerms nodes i := by
  refine ⟨node, hid, hterm, ?_, fun j hj => .inl (h j hj)⟩
  rw [hoperands]
  exact h

theorem holdsTerms_of_function {x : String} {ps : List (Tree String)} {body : Tree String} {b : Int}
    (hid : nodes i = some (.function x is b)) (hps : ∀ p ∈ ps, p.IsParameter)
    (hbody : body.IsParsed)
    (hparameters : List.Forall₂ (Represents nodes fun _ _ => True) ps is)
    (hb : Represents nodes (fun _ _ => True) body b) : HoldsTerms nodes i := by
  have hnames : ∀ p ∈ ps, p.IsParsed := by
    intro p hp
    obtain ⟨x, rfl, hx⟩ := hps p hp
    exact .identifier hx
  refine holdsTerms_of_references hid rfl rfl fun j hj => ?_
  rcases List.mem_append.1 hj with hj | hj
  · exact termNode_of_forall₂ hnames hparameters j hj
  · rw [List.mem_singleton.1 hj]
    exact .parsed hbody hb

theorem holdsTerms_of_apply {callee argument : Int} {x : String} {t : Tree String}
    (hid : nodes i = some (.apply callee argument)) (hcallee : nodes callee = some (.identifier x))
    (ht : t.IsParsed) (ha : Represents nodes (fun _ _ => True) t argument) :
    HoldsTerms nodes i := by
  have hboth : TermNode nodes callee ∧ TermNode nodes argument := ⟨.name hcallee, .parsed ht ha⟩
  exact holdsTerms_of_references hid rfl rfl (by simpa [Node.references] using hboth)

theorem holdsTerms_of_isParsed (ht : t.IsParsed) (h : Represents nodes (fun _ _ => True) t i) :
    HoldsTerms nodes i := by
  cases h with
  | function hid hparameters hb =>
    cases ht with
    | bind _ _ hv =>
      cases hv with
      | lambda hps hbody => exact holdsTerms_of_function hid hps hbody hparameters hb
  | bind _ hid hi htype hvalue =>
    cases ht with
    | bind _ htt htv =>
      have hname : TermNode nodes _ := .name hi
      have hv : TermNode nodes _ := .parsed htv hvalue
      have ht : TypeNode nodes _ := ⟨_, htt, htype⟩
      refine ⟨_, hid, rfl, ?_, ?_⟩
      · simpa [Node.operands] using ⟨hname, hv⟩
      · simp [Node.references, hname, hv, ht]
  | block hid hparts =>
    cases ht with
    | block _ hts => exact holdsTerms_of_references hid rfl rfl (termNode_of_forall₂ hts hparts)
  | tuple hid hparts =>
    cases ht with
    | tuple _ hts => exact holdsTerms_of_references hid rfl rfl (termNode_of_forall₂ hts hparts)
  | array hid hparts =>
    cases ht with
    | array hts => exact holdsTerms_of_references hid rfl rfl (termNode_of_forall₂ hts hparts)
  | binary hid hl hr =>
    cases ht with
    | binary _ htl htr =>
      have hboth : TermNode nodes _ ∧ TermNode nodes _ := ⟨.parsed htl hl, .parsed htr hr⟩
      exact holdsTerms_of_references hid rfl rfl (by simpa [Node.references] using hboth)
  | applyLambda hid hi _ _ _ _ ha =>
    cases ht with
    | apply _ hta => exact holdsTerms_of_apply hid hi hta ha
  | apply hid hi ha =>
    cases ht with
    | apply _ hta => exact holdsTerms_of_apply hid hi hta ha
  | identifier hid | number hid | boolean hid | text hid =>
    exact holdsTerms_of_references hid rfl rfl (by simp [Node.references])
  | sumType | productType | typeName | functionType | arrayType | unitType => cases ht

theorem TermNode.holdsTerms (h : TermNode nodes i) : HoldsTerms nodes i := by
  cases h with
  | parsed ht hrep => exact holdsTerms_of_isParsed ht hrep
  | lifted hm hlift =>
    obtain ⟨hid, hparameters, hb⟩ := hlift
    cases hm with
    | lambda hps hbody => exact holdsTerms_of_function hid hps hbody hparameters hb
  | name hid => exact holdsTerms_of_references hid rfl rfl (by simp [Node.references])

/-- Where the other nodes stay, the program of an arena and its runs stay. -/
theorem interpret_congr {a b : Arena Node} {fs : List Int} (hb : a.AgreeOn a.TermAt b)
    (ha : a.KeepsTypesApart) (hroot : a.node? rootId = some (.file fs)) (natives : List Native)
    (files : Files) (fuel : Nat) :
    Session.interpret b natives files fuel = Session.interpret a natives files fuel := by
  have hlisted : ∀ gs, a.node? rootId = some (.file gs) → ∀ f ∈ gs, a.value? f = b.value? f :=
    fun gs hgs f hf => hb.value?_eq (ha.terms rootId _ hgs rfl f hf)
  have hbuild := Program.build_congr (hb.value?_eq ⟨_, hroot, rfl⟩) hlisted natives
  simp only [Session.interpret, ← hbuild]
  cases hp : Program.build a natives with
  | error e => rfl
  | ok p =>
    have hwithin : p.Within a.TermAt := by
      intro x name is body hget
      obtain ⟨id, hid⟩ := Program.exists_node_of_build hp hget
      have hparts := ha.terms id _ hid rfl
      simp only [Node.operands, Node.references, List.mem_append, List.mem_singleton] at hparts
      exact ⟨fun i hi => hparts i (.inl hi), hparts body (.inr rfl)⟩
    change (pure p >>= _) = (pure p >>= _)
    rw [pure_bind, pure_bind, Evaluation.run_congr hb hwithin files]

section
variable {l : Lowered} (hts : ∀ t ∈ ts, t.IsParsed) (hl : LetLang.lower (.file ts) = .ok l)
include hts hl

/-- What the root of a lowered file lists is no type. -/
theorem termNode_of_mem_root {node : Node} (hroot : l.arena.node? rootId = some node) :
    ∀ j ∈ node.references, TermNode l.arena.node? j := by
  obtain ⟨ids, tops, made, himage⟩ := exists_image hl
  obtain ⟨hids, hlifted⟩ := himage.represents (fun _ _ => True) fun _ _ _ _ => trivial
  cases himage.root.symm.trans hroot
  intro j hj
  rcases List.mem_append.1 hj with hj | hj
  · exact termNode_of_forall₂ hts hids j hj
  · obtain ⟨m, hm, hlift⟩ := exists_of_forall₂ hlifted hj
    have hparsed := allLift_liftingsAll (fun t ht => isParsed_of_mem_liftings (hts t ht)) 0 m hm
    exact .lifted hparsed hlift

/-- Every node but the root is held by its parent, which came before it. -/
theorem termNode_or_typeNode (k : Nat) {s : Slot Node} (hk : 0 < k)
    (hs : l.arena.slots[k]? = some s) : TermNode l.arena.node? k ∨ TypeNode l.arena.node? k := by
  have htree := isTree_of_lower hl
  induction k using Nat.strongRecOn generalizing s with
  | _ k ih =>
    have hlt := htree.parent_lt k s hk hs
    obtain ⟨u, hu⟩ := htree.ordered.exists_parent hs
    have hnode := Arena.node?_of_slot hu (htree.live _ u hu)
    have hchild : l.arena.isChild s.parent k = true :=
      Arena.isChild_eq_true_iff.2 ⟨s, hs, htree.live k s hs, rfl, by omega⟩
    have hheld : (k : Int) ∈ u.value.references := (htree.mem_references_iff hu).2 ⟨k, rfl, hchild⟩
    rcases Nat.eq_zero_or_pos s.parent with hroot | hpos
    · rw [hroot] at hnode
      exact .inl (termNode_of_mem_root hts hl hnode k hheld)
    · rcases ih s.parent hlt hpos hu with hterm | htype
      · obtain ⟨node, hnode', -, -, hheldBy⟩ := hterm.holdsTerms
        cases hnode.symm.trans hnode'
        exact hheldBy k hheld
      · obtain ⟨node, hnode', -, hheldBy⟩ := htype.holdsTypes
        cases hnode.symm.trans hnode'
        exact .inr (hheldBy k hheld)

theorem keepsTypesApart_of_lower : l.arena.KeepsTypesApart := by
  have htypeAt : ∀ {j : Int}, TypeNode l.arena.node? j → l.arena.TypeAt j := by
    intro j hj
    obtain ⟨node, hnode, htype, -⟩ := hj.holdsTypes
    exact ⟨node, hnode, htype⟩
  have htermAt : ∀ {j : Int}, TermNode l.arena.node? j → l.arena.TermAt j := by
    intro j hj
    obtain ⟨node, hnode, hterm, -⟩ := hj.holdsTerms
    exact ⟨node, hnode, hterm⟩
  obtain ⟨fs, hroot, -⟩ := (isTree_of_lower hl).root
  constructor
  · intro i node hnode htype j hj
    obtain ⟨k, s, rfl, hs, -, rfl⟩ := Arena.exists_slot_of_node? hnode
    rcases Nat.eq_zero_or_pos k with rfl | hk
    · cases hroot.symm.trans hs
      cases htype
    · rcases termNode_or_typeNode hts hl k hk hs with hterm | htypeNode
      · exact absurd ⟨_, hnode, htype⟩ (htermAt hterm).not_typeAt
      · obtain ⟨node, hnode', -, hholds⟩ := htypeNode.holdsTypes
        cases hnode.symm.trans hnode'
        exact htypeAt (hholds j hj)
  · intro i node hnode hterm j hj
    obtain ⟨k, s, rfl, hs, -, rfl⟩ := Arena.exists_slot_of_node? hnode
    rcases Nat.eq_zero_or_pos k with rfl | hk
    · cases hroot.symm.trans hs
      exact htermAt (termNode_of_mem_root hts hl hnode j hj)
    · rcases termNode_or_typeNode hts hl k hk hs with htermNode | htypeNode
      · obtain ⟨node, hnode', -, hholds, -⟩ := htermNode.holdsTerms
        cases hnode.symm.trans hnode'
        exact htermAt (hholds j hj)
      · exact absurd (htypeAt htypeNode) (Arena.TermAt.not_typeAt ⟨_, hnode, hterm⟩)

end

/-- The types of a parsed and lowered file can be deleted, in any order. Then exactly the types are
dead, and interpreting the arena does what it did before. -/
theorem interpret_without_types {source : String} {l : Lowered} {ids : List Int}
    (hp : parseSource source = .ok ts) (hl : LetLang.lower (.file ts) = .ok l)
    (hids : ∀ id, id ∈ ids ↔ id ∈ l.arena.typeIds) :
    ∃ b, ids.foldlM Arena.delete l.arena = .ok b ∧ b.size = l.arena.size ∧
      (∀ (k : Nat) (s : Slot Node), l.arena.slots[k]? = some s →
        b.slots[k]? = some { s with live := !s.value.isType }) ∧
      ∀ natives files fuel, Session.interpret b natives files fuel =
        Session.interpret l.arena natives files fuel := by
  have htree := isTree_of_lower hl
  have hapart := keepsTypesApart_of_lower (isParsed_of_parseSource hp) hl
  obtain ⟨b, hdelete, hb⟩ := hapart.exists_deleteAll htree hids
  refine ⟨b, hdelete, hb.size, fun k s hs => ?_, fun natives files fuel => ?_⟩
  · have hlive := htree.live k s hs
    obtain ⟨⟨value, live, parent⟩, ht, rfl, rfl, hmark⟩ := hb.slot k s hs
    rw [Arena.typeAt_iff_of_slot hs hlive] at hmark
    have heq : live = !s.value.isType := by
      rw [Bool.eq_iff_iff, hmark]
      simp [hlive]
    rw [ht, heq]
  · obtain ⟨fs, hslot, -⟩ := htree.root
    have hroot : l.arena.node? rootId = some (.file fs) := Arena.node?_of_slot hslot rfl
    exact interpret_congr (hapart.agreeOn hb) hapart hroot natives files fuel

/-- The type of a binding is deleted, one of its parts before it and the other one after it. -/
theorem type_of_binding_deleted :
    ∃ ts l b t, parseSource "let main : ui8 -> ui8 = \\x => \x7b let y : ui8 -> ui8 = x; y \x7d;" =
        .ok ts ∧ LetLang.lower (.file ts) = .ok l ∧ [7, 6, 8].foldlM Arena.delete l.arena = .ok b ∧
      b.slots[6]? = some ⟨.functionType 7 8, false, 4⟩ ∧
      Session.interpret b [] .empty 5 ⟨"", []⟩ = .ok (some (.number 3)) t := by
  let main : Tree String :=
    .bind (.identifier "main") (.functionType (.typeName "ui8") (.typeName "ui8"))
      (.lambda [.identifier "x"] (.block
        [.bind (.identifier "y") (.functionType (.typeName "ui8") (.typeName "ui8"))
          (.identifier "x"), .identifier "y"]))
  have hp : parseSource "let main : ui8 -> ui8 = \\x => \x7b let y : ui8 -> ui8 = x; y \x7d;" =
      .ok [main] := by cbv
  obtain ⟨l, t, hl, htypes, hslot, hrun⟩ : ∃ l t, LetLang.lower (.file [main]) = .ok l ∧
      l.arena.typeIds = [6, 7, 8] ∧ l.arena.slots[6]? = some ⟨.functionType 7 8, true, 4⟩ ∧
      Session.interpret l.arena [] .empty 5 ⟨"", []⟩ = .ok (some (.number 3)) t :=
    ⟨_, _, by cbv, by cbv, by cbv, by cbv⟩
  have hids : ∀ id, id ∈ [7, 6, 8] ↔ id ∈ l.arena.typeIds := by
    intro id
    rw [htypes]
    simp [or_left_comm]
  obtain ⟨b, hdelete, -, hmarks, hsame⟩ := interpret_without_types hp hl hids
  refine ⟨[main], l, b, t, hp, hl, hdelete, hmarks 6 _ hslot, ?_⟩
  rw [hsame]
  exact hrun

end Lowering

end LetLang
