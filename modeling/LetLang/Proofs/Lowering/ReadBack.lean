import LetLang.Proofs.Lowering.Hanging
import LetLang.Proofs.Lowering.Residual

/-!
# Reading a lowered file back

A tree is read out of the arena by following the numbers that the nodes hold. What is read out of a
lowered file is the file itself, up to what lowering says that it changes: applied lambdas give way
to the names of functions that stand at the end, and a lambda under a name loses its type.
-/

namespace LetLang

/-- The tree of a node, where `read` gives the trees of other nodes. A function is a lambda under
its name; its type is not kept, and the unit type stands in its place. -/
def Node.readWith (read : Int → Option (Tree String)) : Node → Option (Tree String)
  | .file functions => return .file (← functions.mapM read)
  | .bind id type value => return .bind (← read id) (← read type) (← read value)
  | .sequence elements => return .block (← elements.mapM read)
  | .identifier name => some (.identifier name)
  | .binary op left right => return .binary (← read left) (← read right) op
  | .number n => some (.number n)
  | .boolean b => some (.boolean b)
  | .text s => some (.text s)
  | .tuple elements => return .tuple (← elements.mapM read)
  | .array elements => return .array (← elements.mapM read)
  | .function name parameters body =>
    return .bind (.identifier name) .unitType (.lambda (← parameters.mapM read) (← read body))
  | .native .. => none
  | .apply callee argument => return .apply (← read callee) (← read argument)
  | .sumType options => return .sumType (← options.mapM read)
  | .productType elements => return .productType (← elements.mapM read)
  | .typeName name => some (.typeName name)
  | .functionType source target => return .functionType (← read source) (← read target)
  | .arrayType length element => return .arrayType (← read element) length
  | .unitType => some .unitType

/-- The tree at a number. Only greater numbers are followed, as those of children are. -/
def Arena.tree? (a : Arena Node) (id : Int) : Option (Tree String) :=
  (a.node? id).bind <| Node.readWith fun i =>
    if id < i ∧ i < a.size then a.tree? i else none
termination_by (a.size - id).toNat

theorem mapM_congr {α β : Type} {f g : α → Option β} {as : List α} (h : ∀ a ∈ as, f a = g a) :
    as.mapM f = as.mapM g := by
  induction as with
  | nil => rfl
  | cons a as ih =>
    obtain ⟨ha, has⟩ := List.forall_mem_cons.1 h
    rw [List.mapM_cons, List.mapM_cons, ha, ih has]

theorem mapM_eq_some_of_map {α β : Type} {f : α → Option β} {as : List α} {bs : List β}
    (h : as.map f = bs.map some) : as.mapM f = some bs := by
  induction as generalizing bs with
  | nil =>
    obtain rfl : bs = [] := by simpa using h.symm
    rfl
  | cons a as ih =>
    obtain ⟨b, bs, rfl, hb, hbs⟩ := List.map_eq_cons_iff.1 h.symm
    rw [List.mapM_cons, ← hb, ih hbs.symm]
    rfl

theorem Node.readWith_congr {node : Node} {f g : Int → Option (Tree String)}
    (h : ∀ i ∈ node.references, f i = g i) : node.readWith f = node.readWith g := by
  cases node with
  | function name ps b =>
    obtain ⟨hps, hb⟩ := List.forall_mem_append.1 h
    simp only [readWith, mapM_congr hps, hb b List.mem_cons_self]
  | file is | sequence is | tuple is | array is | sumType is | productType is =>
    have his : is.mapM f = is.mapM g := mapM_congr h
    simp only [readWith, his]
  | _ => simp_all [readWith, references]

/-- In a tree all numbers that a node holds can be followed. -/
theorem Arena.IsTree.tree?_eq {a : Arena Node} (h : a.IsTree) (id : Int) :
    a.tree? id = (a.node? id).bind (Node.readWith a.tree?) := by
  rw [Arena.tree?]
  cases hnode : a.node? id with
  | none => rfl
  | some node =>
    refine Node.readWith_congr fun i hi => if_pos ?_
    obtain ⟨n, s, rfl, hslot, -, rfl⟩ := exists_slot_of_node? hnode
    obtain ⟨k, rfl, hchild⟩ := (h.mem_references_iff hslot).1 hi
    obtain ⟨hlt, hsize⟩ := mem_children (mem_children_iff.2 hchild)
    exact ⟨hlt, Int.ofNat_lt.2 hsize⟩

namespace Lowering

def Follows (read : Int → Option (Tree String)) (nodes : Int → Option Node) : Prop :=
  ∀ id, read id = (nodes id).bind (Node.readWith read)

variable {t : Tree String} {draft : Node} {parts : List (Tree String)} {is : List Int}
  {read : Int → Option (Tree String)}

/-- A node that holds the numbers of what is left of the parts is what is left of the tree. -/
theorem readWith_of_layout {n : Nat} (h : layout t = .node draft parts)
    (his : is.map read = (residualAll parts n).map some) :
    (draft.withReferences is).readWith read = some (residual t n) := by
  unfold layout at h
  split at h <;> cases h
  case h_1 =>
    rw [residualAll_append, List.map_append] at his
    obtain ⟨js, ks, rfl, hjs, hks⟩ := List.map_eq_append_iff.1 his
    obtain ⟨b, _, rfl, hb, hnil⟩ := List.map_eq_cons_iff.1 hks
    obtain rfl := List.map_eq_nil_iff.1 hnil
    simp [Node.withReferences, Node.readWith, mapM_eq_some_of_map hjs, hb, residual]
  case h_4 | h_14 | h_15 | h_17 | h_18 =>
    simp [Node.withReferences, Node.readWith, mapM_eq_some_of_map his, residual]
  all_goals
    simp only [residualAll, List.map_cons, List.map_nil, List.map_eq_cons_iff,
      List.map_eq_nil_iff] at his
  case h_2 hvalue =>
    obtain ⟨i, _, rfl, hi, j, _, rfl, hj, k, _, rfl, hk, rfl⟩ := his
    rw [residual]
    · simp [Node.withReferences, Node.readWith, hi, hj, hk, residual, liftings]
    · exact fun _ ps b _ => hvalue ps b
  case h_6 | h_9 | h_20 =>
    obtain ⟨i, _, rfl, hi, j, _, rfl, hj, rfl⟩ := his
    simp [Node.withReferences, Node.readWith, hi, hj, residual, liftings]
  case h_21 =>
    obtain ⟨i, _, rfl, hi, rfl⟩ := his
    simp [Node.withReferences, Node.readWith, hi, residual]
  all_goals rfl

/-- From `s` to `s'` the functions `fs` were made of the lambdas `ls`. Whoever knows the added nodes
reads `us` out of `is`, and out of `fs` what is left of `ls`. -/
structure Recovers (is : List Int) (us : List (Tree String)) (fs : List Int) (ls : List Lifting)
    (s s' : Lowered) : Prop where
  kept : s.arena.Extends s'.arena
  lifted : s'.lifted = s.lifted ++ fs
  length : fs.length = ls.length
  reads : ∀ nodes read, Arena.Covers nodes (s'.arena.since s.arena.size) → Follows read nodes →
    is.map read = us.map some ∧ fs.map read = (ls.map Lifting.residual).map some

namespace Recovers

variable {js fs gs : List Int} {us vs : List (Tree String)} {ls ms : List Lifting}
  {s s₁ s₂ s₃ : Lowered}

theorem refl (s : Lowered) : Recovers [] [] [] [] s s where
  kept := .refl _
  lifted := by simp
  length := rfl
  reads _ _ _ _ := ⟨rfl, rfl⟩

theorem trans (h : Recovers is us fs ls s s₁) (h' : Recovers js vs gs ms s₁ s₂) :
    Recovers (is ++ js) (us ++ vs) (fs ++ gs) (ls ++ ms) s s₂ where
  kept := h.kept.trans h'.kept
  lifted := by rw [h'.lifted, h.lifted, List.append_assoc]
  length := by rw [List.length_append, List.length_append, h.length, h'.length]
  reads nodes read hc hread := by
    -- As in `Builds.bind`, the nodes of each step are among those that are known in the end.
    have hc₁ := hc.trans (h'.kept.covers_since (Nat.le_refl _))
    have hc₂ := hc.trans ((Arena.Extends.refl _).covers_since h.kept.size_le)
    obtain ⟨his, hfs⟩ := h.reads nodes read hc₁ hread
    obtain ⟨hjs, hgs⟩ := h'.reads nodes read hc₂ hread
    simp only [List.map_append, his, hfs, hjs, hgs, and_self]

theorem length_lifted (h : Recovers is us fs ls s s₁) :
    s₁.lifted.length = s.lifted.length + ls.length := by
  rw [h.lifted, List.length_append, h.length]

/-- A node that is added with its parts is read as soon as the parts are. -/
theorem node {node : Node} {id p : Int} {u : Tree String} (hadd : add draft p s = .ok id s₁)
    (h : Recovers is us fs ls s₁ s₂) (hwrite : write id node s₂ = .ok () s₃)
    (hnode : ∀ read, is.map read = us.map some → node.readWith read = some u) :
    Recovers [id] [u] fs ls s s₃ := by
  obtain ⟨rfl, hl₁, ha⟩ := add_eq_ok hadd
  obtain ⟨hl₃, hw⟩ := write_eq_ok hwrite
  have hsize := Arena.size_add ha
  have hadded := h.kept.node? (Arena.node?_of_add ha)
  refine ⟨((Arena.extends_of_add ha).trans h.kept).setValue (Nat.le_refl _) hw,
    by rw [hl₃, h.lifted, hl₁], h.length, fun nodes read hc hread => ?_⟩
  have hc₂ : Arena.Covers nodes (s₂.arena.since s₁.arena.size) :=
    hc.of_setValue hw (by omega) (by omega)
  have hid : nodes s.arena.size = some node :=
    hc _ _ (Arena.since_eq_some_iff.2 ⟨by omega, Arena.node?_of_setValue hw hadded⟩)
  obtain ⟨his, hfs⟩ := h.reads nodes read hc₂ hread
  have hu : read s.arena.size = some u := by rw [hread, hid, Option.bind_some, hnode read his]
  exact ⟨by simp [hu], hfs⟩

/-- A function that is noted as made of a lambda. -/
theorem noted {f : Int} {l : Lifting} (h : Recovers [f] [l.residual] fs ls s s₁) :
    Recovers [] [] (fs ++ [f]) (ls ++ [l]) s { s₁ with lifted := s₁.lifted ++ [f] } where
  kept := h.kept
  lifted := by
    change s₁.lifted ++ [f] = _
    rw [h.lifted, List.append_assoc]
  length := by simp [h.length]
  reads nodes read hc hread := by
    obtain ⟨hf, hfs⟩ := h.reads nodes read hc hread
    refine ⟨rfl, ?_⟩
    rw [List.map_append, hfs, hf]
    simp

end Recovers

section
variable {ts : List (Tree String)} {s s' : Lowered}

/-- What is left of the tree can be read where it was lowered. -/
def RecoversTree (t : Tree String) : Prop :=
  ∀ p s id s', lower t p s = .ok id s' → ∃ fs, Recovers [id] [residual t s.lifted.length] fs
    (liftings t s.lifted.length) s s'

/-- Where what is left of each tree can be read, what is left of all can be read in order. -/
theorem recovers_mapM {f : Tree String → Step Int}
    (hf : ∀ t ∈ ts, ∀ s id s', f t s = .ok id s' → ∃ fs, Recovers [id]
      [residual t s.lifted.length] fs (liftings t s.lifted.length) s s')
    (h : ts.mapM f s = .ok is s') :
    ∃ fs, Recovers is (residualAll ts s.lifted.length) fs
      (liftingsAll ts s.lifted.length) s s' := by
  induction ts generalizing s is with
  | nil =>
    cases h
    exact ⟨[], .refl _⟩
  | cons t ts ih =>
    obtain ⟨ht, hts⟩ := List.forall_mem_cons.1 hf
    rw [List.mapM_cons] at h
    obtain ⟨i, s₁, hone, h⟩ := bind_eq_ok h
    obtain ⟨js, s₂, hrest, h⟩ := bind_eq_ok h
    cases h
    obtain ⟨fs, hfs⟩ := ht s i s₁ hone
    obtain ⟨gs, hgs⟩ := ih hts hrest
    rw [hfs.length_lifted] at hgs
    exact ⟨fs ++ gs, hfs.trans hgs⟩

theorem recovers_lower : ∀ t, RecoversTree t := by
  refine inductionOnLayout (fun t draft parts hlayout hparts => ?_)
    (fun ps body argument hfunction happly => ?_) fun t e hlayout => ?_
  · intro p s id s' h
    rw [lower_of_layout hlayout] at h
    obtain ⟨_, s₁, hadd, h⟩ := bind_eq_ok h
    obtain ⟨is, s₂, hfill, h⟩ := bind_eq_ok h
    obtain ⟨_, s₃, hwrite, h⟩ := bind_eq_ok h
    cases h
    rw [lowerAll_eq_mapM] at hfill
    obtain ⟨fs, hfs⟩ := recovers_mapM (fun u hu => hparts u hu id) hfill
    rw [(add_eq_ok hadd).2.1] at hfs
    rw [liftings_of_layout hlayout]
    exact ⟨fs, .node hadd hfs hwrite fun read his => readWith_of_layout hlayout his⟩
  · intro p s id s' h
    rw [lower_lifted] at h
    obtain ⟨_, _, hs, h⟩ := bind_eq_ok h
    cases hs
    obtain ⟨f, s₁, hlift, h⟩ := bind_eq_ok h
    obtain ⟨_, _, hs, h⟩ := bind_eq_ok h
    cases hs
    obtain ⟨fs, hfs⟩ := hfunction _ _ _ _ _ hlift
    -- The function counts as lifted for the argument, but not yet for its own parameters and body.
    let l : Lifting := ⟨s.lifted.length, ps, body⟩
    have hnoted : Recovers [] [] (fs ++ [f]) (liftings l.tree l.number ++ [l]) s _ := .noted hfs
    obtain ⟨gs, hgs⟩ := happly _ _ _ _ _ h
    rw [hnoted.length_lifted, ← residual_apply_lambda l] at hgs
    have hboth := hnoted.trans hgs
    rw [← liftings_apply_lambda l] at hboth
    exact ⟨fs ++ [f] ++ gs, hboth⟩
  · intro p s id s' h
    rw [lower_refused hlayout] at h
    cases h

/-- What is read back from the root of a lowered file is what is left of its statements, all of them
lambdas under names, and then what is left of the lambdas that were applied on the spot, in the order
in which they were finished. Where there is no lambda, nothing has changed. -/
theorem readBack_of_lower {l : Lowered} (h : LetLang.lower (.file ts) = .ok l) :
    (∀ t ∈ ts, t.IsDefinition) ∧
      l.arena.tree? rootId =
        some (.file (residualAll ts 0 ++ (liftingsAll ts 0).map Lifting.residual)) ∧
      ∀ (us : List (Tree String)) (n : Nat), lambdaFreeAll us → residualAll us n = us := by
  have htree := isTree_of_lower h
  obtain ⟨_, _, _, himage⟩ := exists_image h
  obtain ⟨is, s, hmap, hlifted, hset⟩ := lowerFile_eq_ok h
  obtain ⟨fs, hfs⟩ :=
    recovers_mapM (fun t _ s id s' h => recovers_lower t _ _ _ _ (lowerTopLevel_eq_ok h).1) hmap
  have hroot : l.arena.node? rootId = some (.file (is ++ s.lifted)) :=
    Arena.node?_of_setValue hset (hfs.kept.node? rfl)
  have hcovers : Arena.Covers l.arena.node? (s.arena.since Lowered.initial.arena.size) :=
    (Arena.covers_node? l.arena 0).of_setValue hset (Nat.zero_le _) Nat.zero_lt_one
  obtain ⟨his, hread⟩ := hfs.reads _ _ hcovers htree.tree?_eq
  have hall : (is ++ s.lifted).mapM l.arena.tree? =
      some (residualAll ts 0 ++ (liftingsAll ts 0).map Lifting.residual) := by
    refine mapM_eq_some_of_map ?_
    rw [List.map_append, List.map_append, his, hfs.lifted]
    exact congrArg _ hread
  refine ⟨himage.definitions, ?_, fun us n hus => residualAll_of_lambdaFreeAll n us hus⟩
  rw [htree.tree?_eq, hroot, Option.bind_some, Node.readWith, hall]
  rfl

/-- Two applied lambdas, one in the argument of the other, stand behind the function that they were
lifted out of; the type of the variable is read back. -/
theorem lifted_arguments_read_back :
    ∃ l, LetLang.lower (.file [.bind (.identifier "f") (.typeName "t") (.lambda [.identifier "x"]
        (.block [.bind (.identifier "k") (.arrayType (.typeName "ui8") 1) (.array [.number 7]),
          .apply (.lambda [.identifier "y"] (.identifier "y"))
            (.apply (.lambda [] (.text "z")) (.identifier "x"))]))]) = .ok l ∧
      l.arena.tree? rootId = some (.file [
        .bind (.identifier "f") .unitType (.lambda [.identifier "x"]
          (.block [.bind (.identifier "k") (.arrayType (.typeName "ui8") 1) (.array [.number 7]),
            .apply (.identifier "lambda#0") (.apply (.identifier "lambda#1") (.identifier "x"))])),
        .bind (.identifier "lambda#0") .unitType (.lambda [.identifier "y"] (.identifier "y")),
        .bind (.identifier "lambda#1") .unitType (.lambda [] (.text "z"))]) := by
  obtain ⟨l, hl⟩ : ∃ l, LetLang.lower (.file [.bind (.identifier "f") (.typeName "t")
      (.lambda [.identifier "x"]
        (.block [.bind (.identifier "k") (.arrayType (.typeName "ui8") 1) (.array [.number 7]),
          .apply (.lambda [.identifier "y"] (.identifier "y"))
            (.apply (.lambda [] (.text "z")) (.identifier "x"))]))]) = .ok l := ⟨_, by cbv⟩
  have hread := (readBack_of_lower hl).2.1
  exact ⟨l, hl, hread.trans (by cbv)⟩

end

end Lowering

end LetLang
