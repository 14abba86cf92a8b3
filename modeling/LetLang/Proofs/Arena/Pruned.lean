import LetLang.Proofs.Arena.History

/-!
# Trees from which branches were cut

Deletions take branches off a tree. What is left hangs together from the root, and every node still
refers to the slots that were put directly below it. Those that are dead by now were deleted
themselves, since the node above them stayed.
-/

namespace LetLang.Arena

section
variable {α : Type} {a b : Arena α} {v w x : Int} {value : α}

/-- A deletion marks what hangs alive from the number, if that was given out. -/
theorem buries_delete (a : Arena α) (id : Int) :
    a.Buries (a.apply (.delete id)) fun i => ∃ n : Nat, (n : Int) = id ∧ a.HangsAlive n i := by
  change a.Buries ((a.delete id).toOption.getD a) _
  cases hslot : a.slot id with
  | ok s =>
    obtain ⟨n, rfl, hs⟩ := slot_eq_ok_iff_slots.1 hslot
    obtain ⟨hlt, -⟩ := Array.getElem?_eq_some_iff.1 hs
    obtain ⟨b, hdelete, hb⟩ := exists_delete (a := a) (n := n) hlt
    rw [hdelete]
    exact hb.congr fun i => by simp only [Int.natCast_inj, exists_eq_left]
  | error e =>
    have hnone : ∀ (i n : Nat), (n : Int) = id → ¬ a.HangsAlive n i := by
      rintro i n rfl h
      obtain ⟨s, hs, -⟩ := h.live_top
      cases (slot_of_slots hs).symm.trans hslot
    have hrefused : (a.delete id).toOption.getD a = a := by
      rw [delete, hslot]
      rfl
    rw [hrefused]
    refine (Buries.refl a).congr fun i => iff_of_false not_false ?_
    rintro ⟨n, hn, h⟩
    exact hnone i n hn h

/-- Deletions in any order mark what hangs alive from one of the numbers. -/
theorem buries_deleteAll (a : Arena α) (ids : List Int) :
    a.Buries ((ids.map Edit.delete).foldl Arena.apply a)
      fun i => ∃ n : Nat, (n : Int) ∈ ids ∧ a.HangsAlive n i := by
  induction ids generalizing a with
  | nil => exact (Buries.refl a).congr (by simp)
  | cons id ids ih =>
    have hfirst := buries_delete a id
    refine (hfirst.trans (ih (a.apply (.delete id)))).congr fun i => ?_
    rw [exists_hangsAlive_or_iff hfirst]
    simp only [List.mem_cons]

/-- What is live after a deletion was live before. -/
theorem Buries.node?_of_node? {dead : Nat → Prop} (h : a.Buries b dead)
    (hv : b.node? v = some value) : a.node? v = some value := by
  obtain ⟨i, t, rfl, ht, hlive, rfl⟩ := exists_slot_of_node? hv
  obtain ⟨s, hs, hvalue, -, hmark⟩ := h.exists_slot ht
  rw [hvalue]
  exact node?_of_slot hs (hmark.1 hlive).1

theorem mem_live_iff_node? {i : Nat} : (i, value) ∈ a.live ↔ a.node? i = some value := by
  rw [mem_live_iff]
  constructor
  · rintro ⟨k, s, hs, hlive, ⟨⟩⟩
    exact node?_of_slot hs hlive
  · intro h
    obtain ⟨k, s, hk, hs, hlive, rfl⟩ := exists_slot_of_node? h
    obtain rfl := Int.ofNat.inj hk
    exact ⟨i, s, hs, hlive, rfl⟩

/-- The slot `x`, dead or alive, was put directly below the slot `v`. -/
def Under (a : Arena α) (v x : Int) : Prop :=
  ∃ (p i : Nat) (s : Slot α), v = p ∧ x = i ∧ a.slots[i]? = some s ∧ s.parent = p ∧ p < i

theorem Under.lt (h : a.Under v x) : v < x := by
  obtain ⟨p, i, -, rfl, rfl, -, -, hlt⟩ := h
  omega

theorem Under.unique (h : a.Under v x) (h' : a.Under w x) : v = w := by
  obtain ⟨p, i, s, rfl, rfl, hs, hp, -⟩ := h
  obtain ⟨q, j, t, rfl, hj, ht, hq, -⟩ := h'
  obtain rfl := Int.ofNat.inj hj
  cases hs.symm.trans ht
  rw [← hp, ← hq]

/-- Below a node that stays, what goes was deleted itself. -/
theorem node?_deleteAll_eq_none_iff {ids : List Int} {u : α} (ha : a.Ordered)
    (hx : a.node? x = some value) (hunder : a.Under v x)
    (hv : ((ids.map Edit.delete).foldl Arena.apply a).node? v = some u) :
    ((ids.map Edit.delete).foldl Arena.apply a).node? x = none ↔ x ∈ ids := by
  have hb := buries_deleteAll a ids
  obtain ⟨p, i, s, rfl, rfl, hs, hp, hlt⟩ := hunder
  obtain ⟨j, s', hj, hs', hlive, -⟩ := exists_slot_of_node? hx
  obtain rfl := Int.ofNat.inj hj
  cases hs.symm.trans hs'
  obtain ⟨q, t, hq, ht, htlive, -⟩ := exists_slot_of_node? hv
  obtain rfl := Int.ofNat.inj hq
  obtain ⟨r, hr, -, -, hmark⟩ := hb.exists_slot ht
  have hstays : ¬ ∃ n : Nat, (n : Int) ∈ ids ∧ a.HangsAlive n p := (hmark.1 htlive).2
  obtain ⟨t', ht', -, -, hmark'⟩ := hb.slot i s hs
  have hdead : (∃ n : Nat, (n : Int) ∈ ids ∧ a.HangsAlive n i) ↔ (i : Int) ∈ ids := by
    constructor
    · rintro ⟨n, hn, hi⟩
      rcases (hangsAlive_iff_of_live ha hs hlive).1 hi with rfl | ⟨-, hi⟩
      · exact hn
      · exact absurd ⟨n, hn, hp ▸ hi⟩ hstays
    · exact fun hi => ⟨i, hi, .self hs hlive⟩
  rw [← hdead, node?, slot?_natCast, ht']
  simp [hmark', hlive]

end

variable {a b : Arena Node} {i n p : Nat} {s : Slot Node} {node : Node}

/-- A tree from which branches were cut: what is live hangs from the root by live nodes, and the
root, dead or alive, is the only file. -/
structure Pruned (a : Arena Node) : Prop where
  ordered : a.Ordered
  hangs : ∀ (i : Nat) (s : Slot Node), a.slots[i]? = some s → s.live = true → a.HangsAlive 0 i
  file : ∀ s, a.slots[0]? = some s → ∃ fs, s.value = .file fs
  only_file : ∀ (i : Nat) (s : Slot Node) (fs : List Int), a.slots[i]? = some s →
    s.value = .file fs → i = 0

namespace Pruned

theorem deleteAll (h : a.Pruned) (ids : List Int) :
    ((ids.map Edit.delete).foldl Arena.apply a).Pruned := by
  have hb := buries_deleteAll a ids
  refine ⟨h.ordered.buries hb, fun i t ht hlive => ?_, fun t ht => ?_, fun i t fs ht hfile => ?_⟩
  · obtain ⟨s, hs, -, -, hmark⟩ := hb.exists_slot ht
    obtain ⟨hslive, hnot⟩ := hmark.1 hlive
    exact (h.hangs i s hs hslive).buries hb hnot
  · obtain ⟨s, hs, hvalue, -⟩ := hb.exists_slot ht
    rw [hvalue]
    exact h.file s hs
  · obtain ⟨s, hs, hvalue, -⟩ := hb.exists_slot ht
    exact h.only_file i s fs hs (hvalue.symm.trans hfile)

theorem mem_preorder_iff (h : a.Pruned) : (i, node) ∈ a.preorder ↔ a.node? i = some node := by
  rw [Arena.mem_preorder_iff]
  constructor
  · rintro ⟨j, s, hj, hs, ⟨⟩⟩
    obtain ⟨t, ht, hlive⟩ := hj.live
    cases hs.symm.trans ht
    exact node?_of_slot hs hlive
  · intro hnode
    obtain ⟨j, s, hj, hs, hlive, rfl⟩ := exists_slot_of_node? hnode
    obtain rfl := Int.ofNat.inj hj
    exact ⟨i, s, h.hangs i s hs hlive, hs, rfl⟩

theorem perm_live (h : a.Pruned) : a.preorder.Perm a.live := by
  have hnodup : a.live.Nodup := a.pairwise_live.imp fun hlt heq =>
    Nat.ne_of_lt hlt (congrArg Prod.fst heq)
  rw [List.perm_ext_iff_of_nodup a.nodup_preorder hnodup]
  rintro ⟨i, node⟩
  rw [h.mem_preorder_iff, mem_live_iff_node?]

/-- A live node that is not a file is not the root. -/
theorem pos_of_ne_file (h : a.Pruned) (hnode : a.node? i = some node)
    (hfile : ∀ fs, node ≠ .file fs) : 0 < i := by
  obtain ⟨k, s, hk, hs, -, rfl⟩ := exists_slot_of_node? hnode
  obtain rfl := Int.ofNat.inj hk
  refine Nat.pos_of_ne_zero fun hzero => ?_
  obtain ⟨fs, hfs⟩ := h.file s (hzero ▸ hs)
  exact hfile fs hfs

/-- A live node below the root stands directly below a live node that came before it. -/
theorem exists_parent (h : a.Pruned) (hpos : 0 < i) (hnode : a.node? i = some node) :
    ∃ p node', a.parent i = .ok p ∧ p < i ∧ a.isChild p i = true ∧ a.node? p = some node' := by
  obtain ⟨k, s, hk, hs, hlive, rfl⟩ := exists_slot_of_node? hnode
  obtain rfl := Int.ofNat.inj hk
  cases h.hangs i s hs hlive with
  | self => exact absurd hpos (Nat.lt_irrefl 0)
  | child hp hchild =>
    obtain ⟨t, ht, -, hparent, hlt⟩ := isChild_eq_true_iff.1 hchild
    cases hs.symm.trans ht
    obtain ⟨u, hu, hulive⟩ := hp.live
    obtain rfl := Int.ofNat.inj hparent
    refine ⟨s.parent, u.value, ?_, by omega, hchild, node?_of_slot hu hulive⟩
    rw [parent, slot_of_slots hs]
    rfl

end Pruned

/-- The live nodes refer to slots directly below them, and to none twice. -/
structure RefersBelow (a : Arena Node) : Prop where
  under : ∀ v node, a.node? v = some node → ∀ r ∈ node.references, a.Under v r
  nodup : ∀ v node, a.node? v = some node → node.references.Nodup

theorem RefersBelow.buries {dead : Nat → Prop} (h : a.RefersBelow) (hb : a.Buries b dead) :
    b.RefersBelow where
  under v node hnode r hr := by
    obtain ⟨p, i, s, hp, hi, hs, hparent, hlt⟩ := h.under v node (hb.node?_of_node? hnode) r hr
    obtain ⟨t, ht, -, hsame, -⟩ := hb.slot i s hs
    exact ⟨p, i, t, hp, hi, ht, hsame.trans hparent, hlt⟩
  nodup v node hnode := h.nodup v node (hb.node?_of_node? hnode)

theorem IsTree.refersBelow (h : a.IsTree) : a.RefersBelow where
  under v node hnode r hr := by
    obtain ⟨i, s, rfl, hs, -, rfl⟩ := exists_slot_of_node? hnode
    obtain ⟨k, rfl, hchild⟩ := (h.mem_references_iff hs).1 hr
    obtain ⟨t, ht, -, hparent, hlt⟩ := isChild_eq_true_iff.1 hchild
    exact ⟨i, k, t, rfl, rfl, ht, by omega, by omega⟩
  nodup v node hnode := by
    obtain ⟨i, s, rfl, hs, -, rfl⟩ := exists_slot_of_node? hnode
    rw [(h.perm_references hs).nodup_iff]
    exact (a.pairwise_childIds i).imp fun hlt => Int.ne_of_lt hlt

/-- Where nothing was cut off, all references are to live nodes. -/
theorem IsTree.exists_node_of_mem_references {r v : Int} (h : a.IsTree)
    (hnode : a.node? v = some node) (hr : r ∈ node.references) :
    ∃ node', a.node? r = some node' := by
  obtain ⟨i, s, rfl, hs, -, rfl⟩ := exists_slot_of_node? hnode
  obtain ⟨k, rfl, hchild⟩ := (h.mem_references_iff hs).1 hr
  obtain ⟨t, ht, hlive, -⟩ := isChild_eq_true_iff.1 hchild
  exact ⟨_, node?_of_slot ht hlive⟩

end LetLang.Arena
