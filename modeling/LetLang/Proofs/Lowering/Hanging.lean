import LetLang.Proofs.Arena.Tree
import LetLang.Proofs.Lowering.Functions
import LetLang.Proofs.Lowering.Layout
import Mathlib

/-!
# Lowered files are trees

A step of lowering completes every node that it adds, and hangs its results below its parent and the
functions of applied lambdas below the root. Nothing else gets a child, so a complete node stays
complete, and at the end only the root is left to be written.
-/

namespace LetLang.Lowering

/-- From `s` to `s'` the children of `p` grew by `ids` and those of the root by the lifted functions
`fs`, and all nodes that were added are complete. -/
structure Hangs (p : Int) (ids fs : List Int) (s s' : Lowered) : Prop where
  kept : s.arena.Extends s'.arena
  lifted : s'.lifted = s.lifted ++ fs
  complete : ∀ i, s.arena.size ≤ i → i < s'.arena.size → s'.arena.Complete i
  below : ∀ q : Nat, 0 < q → q < s.arena.size →
    s'.arena.childIds q = s.arena.childIds q ++ if (q : Int) = p then ids else []
  root : (s'.arena.childIds rootId).Perm
    (s.arena.childIds rootId ++ (if p = rootId then ids else []) ++ fs)

def Issued (p : Int) (s : Lowered) : Prop := 0 ≤ p ∧ p < s.arena.size

variable {p : Int} {is js fs gs : List Int} {s s₁ s₂ s₃ : Lowered}

theorem Issued.mono (h : Issued p s) (hsize : s.arena.size ≤ s₁.arena.size) : Issued p s₁ := by
  unfold Issued at *
  omega

/-- Where any number was given out, that of the root was. -/
theorem Issued.root (h : Issued p s) : Issued rootId s := by
  unfold Issued rootId at *
  omega

theorem issued_root_initial : Issued rootId .initial := ⟨Int.le_refl _, Int.zero_lt_one⟩

theorem issued_of_add {draft : Node} {id : Int} (h : add draft p s = .ok id s₁) : Issued id s₁ := by
  obtain ⟨rfl, -, ha⟩ := add_eq_ok h
  have hsize := Arena.size_add ha
  unfold Issued
  omega

namespace Hangs

theorem refl (p : Int) (s : Lowered) : Hangs p [] [] s s where
  kept := .refl _
  lifted := by simp
  complete i hle hlt := by omega
  below q _ _ := by simp
  root := by simp

/-- What the first step completed does not grow in the second. -/
theorem trans (hp : Issued p s) (h : Hangs p is fs s s₁) (h' : Hangs p js gs s₁ s₂) :
    Hangs p (is ++ js) (fs ++ gs) s s₂ where
  kept := h.kept.trans h'.kept
  lifted := by rw [h'.lifted, h.lifted, List.append_assoc]
  complete i hle hlt := by
    rcases Nat.lt_or_ge i s₁.arena.size with hlt₁ | hge
    · obtain ⟨t, ht, hlive, hparent, hrefs⟩ := h.complete i hle hlt₁
      -- The second step adds only to old nodes, and `i` is neither `p` nor the root.
      have hne : (i : Int) ≠ p := by
        unfold Issued at hp
        omega
      have hpos : 0 < i := by
        unfold Issued at hp
        omega
      refine ⟨t, h'.kept i t ht, hlive, hparent, ?_⟩
      rw [hrefs, h'.below i hpos hlt₁, if_neg hne, List.append_nil]
    · exact h'.complete i hge hlt
  below q hq hlt := by
    have hsize := h.kept.size_le
    rw [h'.below q hq (by omega), h.below q hq hlt, List.append_assoc]
    split <;> simp
  root := by
    -- The functions of the first step come before the nodes of the second, whence a permutation.
    refine h'.root.trans ((h.root.append_right _).append_right gs |>.trans ?_)
    by_cases hroot : p = rootId
    · simp only [hroot, if_true, List.append_assoc]
      exact .append_left _ (.append_left _ (List.perm_append_comm_assoc _ _ _))
    · simp only [hroot, if_false, List.append_nil, List.append_assoc]
      exact .refl _

/-- A node that is added with its parts. -/
theorem node {draft node : Node} {id : Int} (hp : Issued p s) (hadd : add draft p s = .ok id s₁)
    (h : Hangs id is fs s₁ s₂) (hrefs : node.references = is)
    (hwrite : write id node s₂ = .ok () s₃) : Hangs p [id] fs s s₃ := by
  obtain ⟨rfl, hl₁, ha⟩ := add_eq_ok hadd
  obtain ⟨hl₃, hw⟩ := write_eq_ok hwrite
  obtain ⟨-, -, hslots⟩ := Arena.slots_of_add ha
  have hsize₁ := Arena.size_add ha
  have hsize₂ := h.kept.size_le
  have hsize₃ := Arena.size_setValue hw
  unfold Issued at hp
  have hslot : s₂.arena.slots[s.arena.size]? = some ⟨draft, true, p.toNat⟩ := by
    refine h.kept _ _ ?_
    rw [hslots]
    exact Array.getElem?_push_size
  -- What hangs below an old node is fixed when the new one is added, not when it is written.
  have hold : ∀ q : Nat, 0 < q → q < s.arena.size + 1 → s₃.arena.childIds q =
      s.arena.childIds q ++ (if (q : Int) = p then [(s.arena.size : Int)] else []) ++
        if q = s.arena.size then is else [] := by
    intro q hq hlt
    rw [Arena.childIds_setValue hw, h.below q hq (by omega), Arena.childIds_add ha]
    simp only [Int.natCast_inj]
  refine ⟨((Arena.extends_of_add ha).trans h.kept).setValue (Nat.le_refl _) hw,
    by rw [hl₃, h.lifted, hl₁], fun i hle hlt => ?_, fun q hq hlt => ?_, ?_⟩
  · rcases Nat.eq_or_lt_of_le hle with rfl | hgt
    · have hparent : p.toNat < s.arena.size := by omega
      refine ⟨_, Arena.slots_of_setValue_self hw hslot rfl, rfl, hparent, ?_⟩
      have hne : ¬(s.arena.size : Int) = p := by omega
      rw [hold _ (by omega) (by omega), Arena.childIds_of_size_le (Nat.le_refl _), if_neg hne,
        if_pos rfl]
      exact hrefs
    · exact (h.complete i (by omega) (by omega)).setValue (by omega) hw
  · have hne : q ≠ s.arena.size := by omega
    rw [hold q hq (by omega), if_neg hne, List.append_nil]
  · have hroot := h.root
    have hne : (s.arena.size : Int) ≠ rootId := by
      unfold rootId
      omega
    rw [← Arena.childIds_setValue hw, Arena.childIds_add ha, if_neg hne, List.append_nil] at hroot
    simpa only [eq_comm] using hroot

/-- A function of the root that is noted as lifted. -/
theorem noted {f : Int} (p : Int) (h : Hangs rootId [f] fs s s₁) :
    Hangs p [] (fs ++ [f]) s { s₁ with lifted := s₁.lifted ++ [f] } where
  kept := h.kept
  lifted := by
    change s₁.lifted ++ [f] = _
    rw [h.lifted, List.append_assoc]
  complete := h.complete
  below q hq hlt := by
    have hne : ¬(q : Int) = rootId := by
      unfold rootId
      omega
    rw [h.below q hq hlt, if_neg hne, ite_self]
  root := by
    refine h.root.trans ?_
    rw [if_pos rfl, ite_self, List.append_nil, List.append_assoc]
    exact .append_left _ List.perm_append_comm

end Hangs

section
variable {t : Tree String} {ts : List (Tree String)}

def HangsTree (t : Tree String) : Prop :=
  ∀ p s id s', Issued p s → lower t p s = .ok id s' → ∃ fs, Hangs p [id] fs s s'

/-- Steps that hang one node each hang all their nodes in order. -/
theorem hangs_mapM {f : Tree String → Step Int} {s' : Lowered}
    (hf : ∀ t ∈ ts, ∀ s id s', Issued p s → f t s = .ok id s' → ∃ fs, Hangs p [id] fs s s')
    (hp : Issued p s) (h : ts.mapM f s = .ok is s') : ∃ fs, Hangs p is fs s s' := by
  induction ts generalizing s is with
  | nil =>
    cases h
    exact ⟨[], .refl p _⟩
  | cons t ts ih =>
    obtain ⟨ht, hts⟩ := List.forall_mem_cons.1 hf
    rw [List.mapM_cons] at h
    obtain ⟨i, s₁, hone, h⟩ := bind_eq_ok h
    obtain ⟨js, s₂, hrest, h⟩ := bind_eq_ok h
    cases h
    obtain ⟨fs, hfs⟩ := ht s i s₁ hp hone
    obtain ⟨gs, hgs⟩ := ih hts (hp.mono hfs.kept.size_le) hrest
    exact ⟨fs ++ gs, hfs.trans hp hgs⟩

theorem length_lowerAll {s' : Lowered} (h : lowerAll ts p s = .ok is s') :
    is.length = ts.length := by
  induction ts generalizing s is with
  | nil =>
    cases h
    rfl
  | cons t ts ih =>
    obtain ⟨i, s₁, -, h⟩ := bind_eq_ok h
    obtain ⟨js, s₂, hrest, h⟩ := bind_eq_ok h
    cases h
    rw [List.length_cons, List.length_cons, ih hrest]

theorem hangs_lower : ∀ t, HangsTree t := by
  refine inductionOnLayout (fun t draft parts hlayout hparts => ?_)
    (fun ps body argument hfunction happly => ?_) fun t e hlayout => ?_
  · intro p s id s' hp h
    rw [lower_of_layout hlayout] at h
    obtain ⟨_, s₁, hadd, h⟩ := bind_eq_ok h
    obtain ⟨is, s₂, hfill, h⟩ := bind_eq_ok h
    obtain ⟨_, s₃, hwrite, h⟩ := bind_eq_ok h
    cases h
    have hroom : draft.canHold is.length := by
      rw [length_lowerAll hfill]
      exact canHold_of_layout hlayout
    rw [lowerAll_eq_mapM] at hfill
    obtain ⟨fs, hfs⟩ := hangs_mapM (fun u hu => hparts u hu id) (issued_of_add hadd) hfill
    exact ⟨fs, .node hp hadd hfs (Node.references_withReferences hroom) hwrite⟩
  · intro p s id s' hp h
    rw [lower_lifted] at h
    obtain ⟨_, _, hs, h⟩ := bind_eq_ok h
    cases hs
    obtain ⟨f, s₁, hlift, h⟩ := bind_eq_ok h
    obtain ⟨_, _, hs, h⟩ := bind_eq_ok h
    cases hs
    obtain ⟨fs, hfs⟩ := hfunction _ _ _ _ _ hp.root hlift
    have hnoted := hfs.noted p
    obtain ⟨gs, hgs⟩ := happly _ _ _ _ _ (hp.mono hnoted.kept.size_le) h
    exact ⟨_, hnoted.trans hp hgs⟩
  · intro p s id s' _ h
    rw [lower_refused hlayout] at h
    cases h

end

section
variable {t : Tree String} {ts : List (Tree String)} {id : Int} {s' : Lowered} {l : Lowered}

theorem lowerTopLevel_eq_ok (h : lowerTopLevel t s = .ok id s') :
    lower t rootId s = .ok id s' ∧ ∃ x is b, s'.arena.node? id = some (.function x is b) := by
  obtain ⟨id', s₁, hlower, h₁⟩ := bind_eq_ok h
  obtain ⟨node, _, hread, h₂⟩ := bind_eq_ok h₁
  obtain ⟨rfl, hnode⟩ := read_eq_ok hread
  match node, hnode, h₂ with
  | some (.function x is b), hnode, h₂ =>
    cases h₂
    exact ⟨hlower, x, is, b, Arena.value?_eq_some_iff.1 hnode⟩

/-- When the statements are lowered, only the root is left to be written. -/
theorem isTree_of_statements {a : Arena Node} (h : ts.mapM lowerTopLevel .initial = .ok is s)
    (hwrite : s.arena.setValue rootId (.file (is ++ s.lifted)) = .ok a) : a.IsTree := by
  have htop : ∀ t ∈ ts, ∀ s id s', Issued rootId s → lowerTopLevel t s = .ok id s' →
      ∃ fs, Hangs rootId [id] fs s s' :=
    fun t _ s id s' hroot h => hangs_lower t _ _ _ _ hroot (lowerTopLevel_eq_ok h).1
  obtain ⟨fs, hfs⟩ := hangs_mapM htop issued_root_initial h
  have hset : s.arena.setValue (0 : Nat) (.file (is ++ s.lifted)) = .ok a := hwrite
  refine Arena.isTree_of_complete (Arena.slots_of_setValue_self hset (hfs.kept 0 _ rfl) rfl) ?_
    fun i hi hlt => ?_
  · have hlifted : s.lifted = fs := hfs.lifted
    have hnone : Lowered.initial.arena.childIds rootId = [] := rfl
    have hperm := hfs.root
    rw [if_pos rfl, hnone, List.nil_append, ← Arena.childIds_setValue hset] at hperm
    rw [hlifted]
    exact hperm.symm
  · rw [Arena.size_setValue hset] at hlt
    exact (hfs.complete i hi hlt).setValue (Nat.ne_of_gt hi) hset

theorem isTree_of_lower (h : LetLang.lower t = .ok l) : l.arena.IsTree := by
  match t with
  | .file ts =>
    obtain ⟨is, s, hmap, -, hset⟩ := lowerFile_eq_ok h
    exact isTree_of_statements hmap hset

/-- What hangs below the root of a lowered file are functions. -/
theorem function_of_mem_childIds_root (h : LetLang.lower t = .ok l) {f : Int}
    (hf : f ∈ l.arena.childIds rootId) : ∃ x is b, l.arena.node? f = some (.function x is b) := by
  match t with
  | .file ts =>
    obtain ⟨ids, tops, made, himage⟩ := exists_image h
    obtain ⟨fs, hslot, hperm⟩ := (isTree_of_lower h).root
    have hroot : l.arena.node? rootId = some (.file fs) := by
      simp [Arena.node?, Arena.slot?, rootId, hslot]
    cases hroot.symm.trans himage.root
    exact himage.exists_function (hperm.mem_iff.2 hf)

/-- The arena of a lowered file is a tree, in which each node holds the numbers of its children in
order. Only the root lists its children, all of them functions, in an order of its own. No
placeholder is left, and every node but the root is referred to once, by its parent. -/
theorem references_mirror_parents (h : LetLang.lower t = .ok l) :
    l.arena.IsTree ∧
      (∀ (i : Nat) (s : Slot Node), 0 < i → l.arena.slots[i]? = some s →
        s.value.references = l.arena.childIds i ∧ s.value.references.Pairwise (· < ·)) ∧
      (∀ f ∈ l.arena.childIds rootId, ∃ x is b, l.arena.node? f = some (.function x is b)) ∧
      (∀ (i : Nat) (s : Slot Node), l.arena.slots[i]? = some s →
        placeholderId ∉ s.value.references) ∧
      ∀ (i j : Nat) (s s' : Slot Node), 0 < i → l.arena.slots[i]? = some s →
        l.arena.slots[j]? = some s' →
        s'.value.references.count (i : Int) = if j = s.parent then 1 else 0 := by
  have htree := isTree_of_lower h
  exact ⟨htree, fun i s hi hs => ⟨htree.references_eq i s hi hs, htree.pairwise_references hi hs⟩,
    fun f hf => function_of_mem_childIds_root h hf,
    fun i s hs => htree.placeholderId_not_mem hs,
    fun i j s s' hi hs hs' => htree.count_references hi hs hs'⟩

/-- The root lists the function of an applied lambda last, though it came before that of the second
statement. -/
theorem root_lists_lifted_last :
    ∃ l, LetLang.lower (.file [
        .bind (.identifier "f") .unitType (.lambda [.identifier "x"]
          (.apply (.lambda [.identifier "y"] (.identifier "y")) (.identifier "x"))),
        .bind (.identifier "g") .unitType (.lambda [] (.number 1))]) = .ok l ∧
      l.arena.IsTree ∧ l.arena.node? rootId = some (.file [1, 9, 3]) ∧
      l.arena.childIds rootId = [1, 3, 9] := by
  obtain ⟨l, hl, hnode, hids⟩ : ∃ l, LetLang.lower (.file [
      .bind (.identifier "f") .unitType (.lambda [.identifier "x"]
        (.apply (.lambda [.identifier "y"] (.identifier "y")) (.identifier "x"))),
      .bind (.identifier "g") .unitType (.lambda [] (.number 1))]) = .ok l ∧
        l.arena.node? rootId = some (.file [1, 9, 3]) ∧ l.arena.childIds rootId = [1, 3, 9] :=
    ⟨_, by cbv, by cbv, by cbv⟩
  exact ⟨l, hl, (references_mirror_parents hl).1, hnode, hids⟩

end

end LetLang.Lowering
