import LetLang.Proofs.Arena.Pruned
import LetLang.Proofs.Lowering.Origin

/-!
# Deletions in lowered files

The arena of a lowered file is a tree with nothing cut off it yet, and its root is its only file.
What holds of trees from which branches were cut holds of it after any deletions.
-/

namespace LetLang.Lowering

variable {t : Tree String} {l : Lowered}

theorem Represents.ne_file {nodes : Int → Option Node} {R : String → Int → Prop} {id : Int}
    (h : Represents nodes R t id) (fs : List Int) : nodes id ≠ some (.file fs) := by
  intro hfile
  cases h <;> simp_all

theorem pruned_of_lower (h : LetLang.lower t = .ok l) : l.arena.Pruned := by
  have htree := isTree_of_lower h
  obtain ⟨fs, hroot, -⟩ := htree.root
  refine ⟨htree.ordered, fun i s hs _ => ?_, fun s hs => ?_, fun i s gs hs hvalue => ?_⟩
  · induction i using Nat.strongRecOn generalizing s with
    | _ i ih =>
      rw [Arena.hangsAlive_iff_of_live htree.ordered hs (htree.live i s hs)]
      rcases Nat.eq_zero_or_pos i with hzero | hpos
      · exact .inl hzero
      · obtain ⟨u, hu⟩ := htree.ordered.exists_parent hs
        exact .inr ⟨hpos, ih s.parent (htree.parent_lt i s hpos hs) u hu (htree.live _ u hu)⟩
  · cases hroot.symm.trans hs
    exact ⟨fs, rfl⟩
  · rcases Nat.eq_zero_or_pos i with hzero | hpos
    · exact hzero
    · have hnode := Arena.node?_of_slot hs (htree.live i s hs)
      rw [hvalue] at hnode
      match t with
      | .file ts =>
        cases origin_of_node h i hpos hnode with
        | tree _ hrep => exact absurd hnode (hrep.ne_file gs)
        | lifted _ hlift =>
          obtain ⟨hn, -, -⟩ := hlift
          cases hn.symm.trans hnode
        | madeName hn => cases hn.symm.trans hnode

end LetLang.Lowering
