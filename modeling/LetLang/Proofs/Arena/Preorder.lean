import LetLang.Proofs.Arena.Deletion
import Mathlib.Data.List.Nodup

/-!
# What preorder visits

From a live node, preorder visits the nodes that hang from it by live nodes, each of them once.
-/

namespace LetLang.Arena

variable {α : Type} {a : Arena α} {n m i j : Nat} {s : Slot α}

theorem preorderFrom_eq (a : Arena α) (n : Nat) :
    a.preorderFrom n = n :: (a.children n).reverse.flatMap a.preorderFrom := by
  rw [preorderFrom, List.flatMap_subtype (g := a.preorderFrom) fun _ _ => rfl,
    List.unattach_attach]

theorem mem_preorderFrom_iff_cons :
    i ∈ a.preorderFrom n ↔ i = n ∨ ∃ c, a.isChild n c = true ∧ i ∈ a.preorderFrom c := by
  rw [preorderFrom_eq]
  simp only [List.mem_cons, List.mem_flatMap, List.mem_reverse, mem_children_iff]

/-- An induction over an arena from the last slot to the first one. -/
theorem inductionOnChildren {motive : Nat → Prop} (a : Arena α)
    (step : ∀ n : Nat, (∀ c : Nat, a.isChild n c = true → motive c) → motive n) (n : Nat) :
    motive n := by
  refine step n fun c hc => ?_
  have hlt := mem_children (mem_children_iff.2 hc)
  exact inductionOnChildren a step c
termination_by a.size - n

theorem HangsAlive.le (h : a.HangsAlive n i) : n ≤ i := by
  induction h with
  | self => exact Nat.le_refl n
  | child _ hchild ih =>
    have hlt := (mem_children (mem_children_iff.2 hchild)).1
    omega

theorem hangsAlive_of_isChild (h : a.isChild n i = true) : a.HangsAlive i i := by
  obtain ⟨s, hs, hlive, -⟩ := isChild_eq_true_iff.1 h
  exact .self hs hlive

/-- Two slots from which a third one hangs hang from each other. -/
theorem HangsAlive.total (h : a.HangsAlive n i) (h' : a.HangsAlive m i) :
    a.HangsAlive n m ∨ a.HangsAlive m n := by
  induction h with
  | self => exact .inr h'
  | @child i j hi hchild ih =>
    cases h' with
    | self => exact .inl (hi.child hchild)
    | child hi' hchild' =>
      obtain rfl := isChild_unique hchild hchild'
      exact ih hi'

/-- What hangs from one child does not hang from another one. -/
theorem eq_of_hangsAlive_children {c d : Nat} (hc : a.isChild n c = true)
    (hd : a.isChild n d = true) (h : a.HangsAlive c i) (h' : a.HangsAlive d i) : c = d := by
  have hbetween : ∀ {x y : Nat}, a.isChild n x = true → a.isChild n y = true →
      a.HangsAlive x y → x = y := by
    intro x y hx hy hxy
    have hlt := (mem_children (mem_children_iff.2 hx)).1
    cases hxy with
    | self => rfl
    | child hk hchild =>
      -- The parent of `y` is `n`, which lies before `x`.
      obtain rfl := isChild_unique hchild hy
      have hle := hk.le
      omega
  rcases h.total h' with hcd | hdc
  · exact hbetween hc hd hcd
  · exact (hbetween hd hc hdc).symm

theorem mem_preorderFrom_iff (hs : a.slots[n]? = some s) (hlive : s.live = true) :
    i ∈ a.preorderFrom n ↔ a.HangsAlive n i := by
  constructor
  · have hdown : ∀ n, a.HangsAlive n n → i ∈ a.preorderFrom n → a.HangsAlive n i := by
      refine inductionOnChildren a fun n ih hn hi => ?_
      rcases mem_preorderFrom_iff_cons.1 hi with rfl | ⟨c, hc, hi⟩
      · exact hn
      · exact (hn.child hc).trans (ih c hc (hangsAlive_of_isChild hc) hi)
    exact hdown n (.self hs hlive)
  · have hclosed : ∀ {j k : Nat}, a.isChild j k = true →
        ∀ n, j ∈ a.preorderFrom n → k ∈ a.preorderFrom n := by
      intro j k hchild
      refine inductionOnChildren a fun n ih hj => ?_
      rcases mem_preorderFrom_iff_cons.1 hj with rfl | ⟨c, hc, hj⟩
      · exact mem_preorderFrom_iff_cons.2 (.inr ⟨k, hchild, mem_preorderFrom_iff_cons.2 (.inl rfl)⟩)
      · exact mem_preorderFrom_iff_cons.2 (.inr ⟨c, hc, ih c hc hj⟩)
    intro h
    induction h with
    | self => exact mem_preorderFrom_iff_cons.2 (.inl rfl)
    | child _ hchild ih => exact hclosed hchild n ih

theorem hangsAlive_of_mem_preorderFrom {c : Nat} (hc : a.isChild n c = true)
    (hi : i ∈ a.preorderFrom c) : a.HangsAlive c i := by
  obtain ⟨s, hs, hlive, -⟩ := isChild_eq_true_iff.1 hc
  exact (mem_preorderFrom_iff hs hlive).1 hi

theorem nodup_preorderFrom (a : Arena α) : ∀ n, (a.preorderFrom n).Nodup := by
  refine inductionOnChildren a fun n ih => ?_
  have hchildren : ∀ c ∈ (a.children n).reverse, a.isChild n c = true := fun c hc =>
    mem_children_iff.1 (List.mem_reverse.1 hc)
  have hnodup : (a.children n).reverse.Nodup :=
    List.nodup_reverse.2 (List.nodup_range.filter _)
  rw [preorderFrom_eq, List.nodup_cons, List.nodup_flatMap]
  refine ⟨fun hn => ?_, fun c hc => ih c (hchildren c hc), ?_⟩
  · obtain ⟨c, hc, hn⟩ := List.mem_flatMap.1 hn
    have hle := (hangsAlive_of_mem_preorderFrom (hchildren c hc) hn).le
    have hlt := (mem_children (List.mem_reverse.1 hc)).1
    omega
  · refine hnodup.imp_of_mem fun hc hd hne => ?_
    intro i hi hi'
    have hc := hchildren _ hc
    have hd := hchildren _ hd
    exact hne (eq_of_hangsAlive_children hc hd (hangsAlive_of_mem_preorderFrom hc hi)
      (hangsAlive_of_mem_preorderFrom hd hi'))

/-- Preorder visits what hangs from the root by live nodes. -/
theorem mem_preorder_iff {x : Nat × α} :
    x ∈ a.preorder ↔ ∃ i s, a.HangsAlive 0 i ∧ a.slots[i]? = some s ∧ x = (i, s.value) := by
  unfold preorder
  split
  · next root hroot =>
    split
    · next hlive =>
      simp only [List.mem_filterMap, mem_preorderFrom_iff hroot hlive, Option.map_eq_some_iff]
      constructor
      · rintro ⟨i, hi, s, hs, rfl⟩
        exact ⟨i, s, hi, hs, rfl⟩
      · rintro ⟨i, s, hi, hs, rfl⟩
        exact ⟨i, hi, s, hs, rfl⟩
    · next hdead =>
      simp only [List.not_mem_nil, false_iff]
      rintro ⟨i, s, hi, -⟩
      obtain ⟨t, ht, hlive⟩ := hi.live_top
      cases hroot.symm.trans ht
      exact hdead hlive
  · next hroot =>
    simp only [List.not_mem_nil, false_iff]
    rintro ⟨i, s, hi, -⟩
    obtain ⟨t, ht, -⟩ := hi.live_top
    cases hroot.symm.trans ht

/-- Preorder visits no node twice. -/
theorem nodup_preorder (a : Arena α) : a.preorder.Nodup := by
  unfold preorder
  split
  · split
    · refine List.Nodup.filterMap (fun i j x hi hj => ?_) (a.nodup_preorderFrom 0)
      obtain ⟨s, -, rfl⟩ := Option.map_eq_some_iff.1 hi
      obtain ⟨t, -, heq⟩ := Option.map_eq_some_iff.1 hj
      exact (congrArg Prod.fst heq).symm
    · exact .nil
  · exact .nil

/-- What stands before an element in a joined list stands there in the list that it comes from. -/
theorem exists_of_flatMap_eq {β γ : Type} {f : β → List γ} {cs : List β} {xs ys : List γ} {x : γ}
    (h : cs.flatMap f = xs ++ x :: ys) :
    ∃ c ∈ cs, ∃ us vs, f c = us ++ x :: vs ∧ us ⊆ xs := by
  induction cs generalizing xs with
  | nil => simp at h
  | cons c cs ih =>
    rw [List.flatMap_cons] at h
    rcases List.append_eq_append_iff.1 h with ⟨ws, rfl, hrest⟩ | ⟨ws, hc, hrest⟩
    · obtain ⟨d, hd, us, vs, hd', hus⟩ := ih hrest
      exact ⟨d, List.mem_cons_of_mem _ hd, us, vs, hd', List.Subset.trans hus (by simp)⟩
    · rcases List.cons_eq_append_iff.1 hrest with ⟨rfl, hrest⟩ | ⟨ws, rfl, -⟩
      · have hfirst : cs.flatMap f = [] ++ x :: ys := hrest.symm
        obtain ⟨d, hd, us, vs, hd', hus⟩ := ih hfirst
        exact ⟨d, List.mem_cons_of_mem _ hd, us, vs, hd', List.Subset.trans hus (by simp)⟩
      · exact ⟨c, List.mem_cons_self, xs, ws, hc, List.Subset.refl _⟩

/-- From a node on, preorder visits every other node after its parent. -/
theorem parent_first_of_preorderFrom (a : Arena α) : ∀ n : Nat, ∀ {xs ys : List Nat} {i : Nat},
    a.preorderFrom n = xs ++ i :: ys → (i = n ∧ xs = []) ∨ ∃ p ∈ xs, a.isChild p i = true := by
  refine inductionOnChildren a fun n ih => ?_
  intro xs ys i h
  rw [preorderFrom_eq] at h
  rcases List.cons_eq_append_iff.1 h with ⟨rfl, hfirst⟩ | ⟨xs, rfl, hrest⟩
  · exact .inl ⟨(List.cons.inj hfirst).1, rfl⟩
  · obtain ⟨c, hc, us, vs, hc', hus⟩ := exists_of_flatMap_eq hrest
    have hchild := mem_children_iff.1 (List.mem_reverse.1 hc)
    rcases ih c hchild hc' with ⟨rfl, -⟩ | ⟨p, hp, hpi⟩
    · exact .inr ⟨n, List.mem_cons_self, hchild⟩
    · exact .inr ⟨p, List.mem_cons_of_mem _ (hus hp), hpi⟩

/-- The numbers that preorder visits are those of the walk from the root. -/
theorem map_fst_preorder (hs : a.slots[0]? = some s) (hlive : s.live = true) :
    a.preorder.map Prod.fst = a.preorderFrom 0 := by
  unfold preorder
  rw [hs]
  simp only [hlive, if_true, List.map_filterMap, Option.map_map]
  have hissued : ∀ n ∈ a.preorderFrom 0, a.slots[n]?.map (Prod.fst ∘ fun s => (n, s.value)) =
      some n := by
    intro n hn
    obtain ⟨t, ht, -⟩ := ((mem_preorderFrom_iff hs hlive).1 hn).live
    rw [ht]
    rfl
  rw [List.filterMap_congr hissued, List.filterMap_some]

/-- Preorder visits the root first, and every other node after its parent. -/
theorem parent_first_of_preorder {xs ys : List (Nat × α)} {x : Nat × α}
    (h : a.preorder = xs ++ x :: ys) :
    (x.1 = 0 ∧ xs = []) ∨ ∃ y ∈ xs, a.isChild y.1 x.1 = true := by
  have hx : x ∈ a.preorder := h ▸ List.mem_append_right xs List.mem_cons_self
  obtain ⟨i, s, hi, -, -⟩ := mem_preorder_iff.1 hx
  obtain ⟨root, hroot, hlive⟩ := hi.live_top
  have hids : a.preorderFrom 0 = xs.map Prod.fst ++ x.1 :: ys.map Prod.fst := by
    rw [← map_fst_preorder hroot hlive, h, List.map_append, List.map_cons]
  rcases parent_first_of_preorderFrom a 0 hids with ⟨hzero, hnil⟩ | ⟨p, hp, hchild⟩
  · exact .inl ⟨hzero, List.map_eq_nil_iff.1 hnil⟩
  · obtain ⟨y, hy, rfl⟩ := List.mem_map.1 hp
    exact .inr ⟨y, hy, hchild⟩

end LetLang.Arena
