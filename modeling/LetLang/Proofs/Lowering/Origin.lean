import LetLang.Proofs.Arena.History
import LetLang.Proofs.Grammar.Occurs
import LetLang.Proofs.Lowering.Consistent
import LetLang.Proofs.Lowering.Hanging

/-!
# Where the nodes of a lowered file come from

Below its root a lowered file holds nothing that was not written: every node represents a tree that
occurs in the file, or belongs to the function that was made of a lambda applied on the spot in it.
-/

namespace LetLang.Lowering

/-- The lambda is applied on the spot somewhere in the tree. -/
def Lifting.AppliedIn (l : Lifting) (t : Tree String) : Prop :=
  ∃ argument, (Tree.apply (.lambda l.parameters l.body) argument).Occurs t

theorem Lifting.AppliedIn.mono {l : Lifting} {u t : Tree String} (h : l.AppliedIn u)
    (hu : u.Occurs t) : l.AppliedIn t := by
  obtain ⟨argument, hoccurs⟩ := h
  exact ⟨argument, hoccurs.trans hu⟩

/-- What is lifted out of some trees is applied in a tree that they all occur in. -/
theorem appliedIn_of_mem_liftingsAll {ts : List (Tree String)} {t : Tree String}
    (h : ∀ u ∈ ts, AllLift (·.AppliedIn u) (liftings u)) (ht : ∀ u ∈ ts, u.Occurs t) :
    AllLift (·.AppliedIn t) (liftingsAll ts) :=
  allLift_liftingsAll fun u hu n l hl => (h u hu n l hl).mono (ht u hu)

theorem appliedIn_of_occurs {u t : Tree String} {made : Nat → List Lifting} (hu : u.Occurs t)
    (h : AllLift (·.AppliedIn u) made) : AllLift (·.AppliedIn t) made :=
  fun n l hl => (h n l hl).mono hu

/-- What is lifted out of the parameters and the body of a lambda is applied in it. -/
theorem appliedIn_lambda {ps : List (Tree String)} {b : Tree String}
    (hps : ∀ p ∈ ps, AllLift (·.AppliedIn p) (liftings p))
    (hb : AllLift (·.AppliedIn b) (liftings b)) :
    AllLift (·.AppliedIn (.lambda ps b)) (inTurn (liftingsAll ps) (liftings b)) :=
  AllLift.inTurn
    (appliedIn_of_mem_liftingsAll hps fun p hp => Tree.occurs_of_mem_parts (by simp [hp]))
    (appliedIn_of_occurs (Tree.occurs_of_mem_parts (by simp)) hb)

mutual

/-- Only what is applied on the spot is lifted. -/
theorem appliedIn_of_mem_liftings : (t : Tree String) → AllLift (·.AppliedIn t) (liftings t)
  | .bind id type value => by
    have hboth : AllLift (·.AppliedIn (.bind id type value)) (inTurn (liftings type)
        (liftings value)) :=
      AllLift.inTurn
        (appliedIn_of_occurs (Tree.occurs_of_mem_parts (by simp)) (appliedIn_of_mem_liftings type))
        (appliedIn_of_occurs (Tree.occurs_of_mem_parts (by simp)) (appliedIn_of_mem_liftings value))
    cases id with
    | identifier x =>
      cases value with
      | lambda ps b =>
        rw [liftings]
        exact appliedIn_of_occurs (Tree.occurs_of_mem_parts (by simp))
          (appliedIn_lambda (appliedIn_of_mem_liftingsEach ps) (appliedIn_of_mem_liftings b))
      | _ => rw [liftings] <;> first | exact hboth | simp
    | _ => rw [liftings] <;> first | exact hboth | simp
  | .apply callee argument => by
    have hargument : AllLift (·.AppliedIn (.apply callee argument)) (liftings argument) :=
      appliedIn_of_occurs (Tree.occurs_of_mem_parts (by simp)) (appliedIn_of_mem_liftings argument)
    cases callee with
    | lambda ps b =>
      have hlambda : AllLift (·.AppliedIn (.apply (.lambda ps b) argument))
          (inTurn (liftingsAll ps) (liftings b)) :=
        appliedIn_of_occurs (Tree.occurs_of_mem_parts (by simp))
          (appliedIn_lambda (appliedIn_of_mem_liftingsEach ps) (appliedIn_of_mem_liftings b))
      intro n
      have hself : AllLift (·.AppliedIn (.apply (.lambda ps b) argument))
          fun _ => [⟨n, ps, b⟩] := by
        intro _ l hl
        rw [List.mem_singleton.1 hl]
        exact ⟨argument, .self⟩
      rw [liftings]
      exact (hlambda.inTurn hself).inTurn hargument n
    | _ => rw [liftings] <;> first | exact hargument | simp
  | .block ts | .tuple ts | .array ts | .sumType ts | .productType ts =>
    appliedIn_of_mem_liftingsAll (appliedIn_of_mem_liftingsEach ts) fun _ hu =>
      Tree.occurs_of_mem_parts hu
  | .binary left right _ =>
    AllLift.inTurn
      (appliedIn_of_occurs (Tree.occurs_of_mem_parts (by simp)) (appliedIn_of_mem_liftings left))
      (appliedIn_of_occurs (Tree.occurs_of_mem_parts (by simp)) (appliedIn_of_mem_liftings right))
  | .functionType source target =>
    AllLift.inTurn
      (appliedIn_of_occurs (Tree.occurs_of_mem_parts (by simp)) (appliedIn_of_mem_liftings source))
      (appliedIn_of_occurs (Tree.occurs_of_mem_parts (by simp)) (appliedIn_of_mem_liftings target))
  | .arrayType element _ =>
    appliedIn_of_occurs (Tree.occurs_of_mem_parts (by simp)) (appliedIn_of_mem_liftings element)
  | .file _ | .identifier _ | .lambda .. | .number _ | .boolean _ | .text _ | .typeName _
  | .unitType => allLift_nil

theorem appliedIn_of_mem_liftingsEach :
    (ts : List (Tree String)) → ∀ t ∈ ts, AllLift (·.AppliedIn t) (liftings t)
  | [] => by simp
  | t :: ts =>
    List.forall_mem_cons.2 ⟨appliedIn_of_mem_liftings t, appliedIn_of_mem_liftingsEach ts⟩

end

inductive Origin (nodes : Int → Option Node) (file : Tree String) (id : Int) : Prop
  | tree {u : Tree String} : u.Occurs file → Represents nodes (fun _ _ => True) u id →
      Origin nodes file id
  | lifted {m : Lifting} : m.AppliedIn file → IsLifted nodes (fun _ _ => True) m id →
      Origin nodes file id
  | madeName {k : Nat} : nodes id = some (.identifier (liftedName k)) → Origin nodes file id

section
variable {nodes : Int → Option Node} {file t : Tree String} {ts : List (Tree String)} {id i : Int}
  {is : List Int} {node : Node}

theorem origin_of_forall₂ (hts : ∀ t ∈ ts, t.Occurs file)
    (h : List.Forall₂ (Represents nodes fun _ _ => True) ts is) :
    ∀ j ∈ is, Origin nodes file j := by
  intro j hj
  obtain ⟨t, ht, hrep⟩ := exists_of_forall₂ h hj
  exact .tree (hts t ht) hrep

/-- The parameters and the body of a lambda in the file come from it. -/
theorem origin_of_lambda {ps : List (Tree String)} {body : Tree String} {b : Int}
    (hlambda : (Tree.lambda ps body).Occurs file)
    (hps : List.Forall₂ (Represents nodes fun _ _ => True) ps is)
    (hb : Represents nodes (fun _ _ => True) body b) : ∀ j ∈ is ++ [b], Origin nodes file j := by
  refine List.forall_mem_append.2 ⟨origin_of_forall₂ (fun p hp => ?_) hps, ?_⟩
  · exact (Tree.occurs_of_mem_parts (by simp [hp])).trans hlambda
  · refine List.forall_mem_singleton.2 (.tree ?_ hb)
    exact (Tree.occurs_of_mem_parts (by simp)).trans hlambda

/-- What a node for a tree in the file holds comes from the file. -/
theorem Origin.reference_tree (ht : t.Occurs file)
    (h : Represents nodes (fun _ _ => True) t id) (hid : nodes id = some node) :
    ∀ i ∈ node.references, Origin nodes file i := by
  have hpart : ∀ p ∈ t.parts, p.Occurs file :=
    fun p hp => (Tree.occurs_of_mem_parts hp).trans ht
  cases h with
  | function hn hps hb =>
    cases hn.symm.trans hid
    exact origin_of_lambda (hpart _ (by simp)) hps hb
  | bind _ hn hi htype hvalue =>
    cases hn.symm.trans hid
    refine List.forall_mem_cons.2 ⟨.tree (hpart _ (by simp)) (.identifier hi), ?_⟩
    refine List.forall_mem_cons.2 ⟨.tree (hpart _ (by simp)) htype, ?_⟩
    exact List.forall_mem_singleton.2 (.tree (hpart _ (by simp)) hvalue)
  | applyLambda hn hi _ _ _ _ hargument =>
    cases hn.symm.trans hid
    refine List.forall_mem_cons.2 ⟨.madeName hi, ?_⟩
    exact List.forall_mem_singleton.2 (.tree (hpart _ (by simp)) hargument)
  | apply hn hi hargument =>
    cases hn.symm.trans hid
    refine List.forall_mem_cons.2 ⟨.tree (hpart _ (by simp)) (.identifier hi), ?_⟩
    exact List.forall_mem_singleton.2 (.tree (hpart _ (by simp)) hargument)
  | binary hn hl hr | functionType hn hl hr =>
    cases hn.symm.trans hid
    refine List.forall_mem_cons.2 ⟨.tree (hpart _ (by simp)) hl, ?_⟩
    exact List.forall_mem_singleton.2 (.tree (hpart _ (by simp)) hr)
  | arrayType hn he =>
    cases hn.symm.trans hid
    exact List.forall_mem_singleton.2 (.tree (hpart _ (by simp)) he)
  | block hn hts | tuple hn hts | array hn hts | sumType hn hts | productType hn hts =>
    cases hn.symm.trans hid
    exact origin_of_forall₂ hpart hts
  | identifier hn | number hn | boolean hn | text hn | typeName hn | unitType hn =>
    cases hn.symm.trans hid
    simp [Node.references]

theorem Origin.reference (h : Origin nodes file id) (hid : nodes id = some node) :
    ∀ i ∈ node.references, Origin nodes file i := by
  cases h with
  | tree ht hrep => exact Origin.reference_tree ht hrep hid
  | lifted hm hlift =>
    obtain ⟨argument, hoccurs⟩ := hm
    obtain ⟨hn, hps, hb⟩ := hlift
    cases hn.symm.trans hid
    exact origin_of_lambda ((Tree.occurs_of_mem_parts (by simp)).trans hoccurs) hps hb
  | madeName hn =>
    cases hn.symm.trans hid
    simp [Node.references]

end

section
variable {ts : List (Tree String)} {l : Lowered}

/-- What the root of a lowered file lists comes from the file. -/
theorem origin_of_mem_root (h : LetLang.lower (.file ts) = .ok l) {node : Node}
    (hroot : l.arena.node? rootId = some node) :
    ∀ i ∈ node.references, Origin l.arena.node? (.file ts) i := by
  obtain ⟨ids, tops, made, himage⟩ := exists_image h
  obtain ⟨hids, hlifted⟩ := himage.represents (fun _ _ => True) fun _ _ _ _ => trivial
  cases himage.root.symm.trans hroot
  refine List.forall_mem_append.2 ⟨?_, fun f hf => ?_⟩
  · exact origin_of_forall₂ (fun u hu => Tree.occurs_of_mem_parts (t := .file ts) hu) hids
  · obtain ⟨m, hm, hlift⟩ := exists_of_forall₂ hlifted hf
    have happlied : m.AppliedIn (.file ts) :=
      appliedIn_of_mem_liftingsAll (appliedIn_of_mem_liftingsEach ts)
        (fun u hu => Tree.occurs_of_mem_parts (t := .file ts) hu) 0 m hm
    exact .lifted happlied hlift

/-- Every node but the root comes from the file, as its parent does. -/
theorem origin_of_node (h : LetLang.lower (.file ts) = .ok l) (n : Nat) {node : Node}
    (hn : 0 < n) (hnode : l.arena.node? n = some node) : Origin l.arena.node? (.file ts) n := by
  have htree := isTree_of_lower h
  induction n using Nat.strongRecOn generalizing node with
  | _ n ih =>
    obtain ⟨k, s, hk, hs, -, -⟩ := Arena.exists_slot_of_node? hnode
    obtain rfl := Int.ofNat.inj hk
    obtain ⟨u, hu⟩ := htree.ordered.exists_parent hs
    have hlt := htree.parent_lt n s hn hs
    have hparent := Arena.node?_of_slot hu (htree.live _ u hu)
    have hchild : l.arena.isChild s.parent n = true :=
      Arena.isChild_eq_true_iff.2 ⟨s, hs, htree.live n s hs, rfl, by omega⟩
    have hheld : (n : Int) ∈ u.value.references := (htree.mem_references_iff hu).2 ⟨n, rfl, hchild⟩
    rcases Nat.eq_zero_or_pos s.parent with hzero | hpos
    · rw [hzero] at hparent
      exact origin_of_mem_root h hparent n hheld
    · exact (ih s.parent hlt hpos hparent).reference hparent n hheld

end

end LetLang.Lowering
