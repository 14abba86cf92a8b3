import LetLang.Proofs.Lowering.Builds

/-!
# The layout of trees

A tree is lowered in one of three ways: to a node that holds the numbers of its parts, to the
application of a function that is made of a lambda, or not at all. A lambda that is applied on the
spot is laid out as if it stood under a name and the name were applied. So what is shown of lowering
needs three cases, not one for each kind of tree.
-/

namespace LetLang

namespace Node

/-- The node with other numbers in place of those that it holds. -/
def withReferences : Node → List Int → Node
  | .file _, is => .file is
  | .bind .., [i, t, v] => .bind i t v
  | .sequence _, is => .sequence is
  | .binary op _ _, [l, r] => .binary op l r
  | .tuple _, is => .tuple is
  | .array _, is => .array is
  | .function name _ _, is => .function name is.dropLast (is.getLastD placeholderId)
  | .apply .., [f, a] => .apply f a
  | .sumType _, is => .sumType is
  | .productType _, is => .productType is
  | .functionType .., [s, t] => .functionType s t
  | .arrayType length _, [e] => .arrayType length e
  | n, _ => n

def canHold : Node → Nat → Bool
  | .bind .., n => n = 3
  | .binary .., n | .apply .., n | .functionType .., n => n = 2
  | .arrayType .., n => n = 1
  | .function .., n => 0 < n
  | .file _, _ | .sequence _, _ | .tuple _, _ | .array _, _ | .sumType _, _ | .productType _, _ =>
    true
  | .identifier _, n | .number _, n | .boolean _, n | .text _, n | .native .., n | .typeName _, n
  | .unitType, n => n = 0

theorem references_withReferences {node : Node} {is : List Int} (h : node.canHold is.length) :
    (node.withReferences is).references = is := by
  cases node with
  | bind =>
    obtain ⟨i, t, v, rfl⟩ := List.length_eq_three.1 (by simpa [canHold] using h)
    rfl
  | binary | apply | functionType =>
    obtain ⟨l, r, rfl⟩ := List.length_eq_two.1 (by simpa [canHold] using h)
    rfl
  | arrayType =>
    obtain ⟨e, rfl⟩ := List.length_eq_one_iff.1 (by simpa [canHold] using h)
    rfl
  | function =>
    have hne : is ≠ [] := List.length_pos_iff.1 (by simpa [canHold] using h)
    simp [withReferences, references, List.getLastD_eq_getLast?, List.getLast?_eq_some_getLast hne,
      List.dropLast_concat_getLast]
  | identifier | number | boolean | text | native | typeName | unitType =>
    obtain rfl : is = [] := by simpa [canHold] using h
    rfl
  | _ => rfl

end Node

namespace Lowering

inductive Layout where
  /-- A node, written first as a draft, that holds the numbers of the parts. -/
  | node (draft : Node) (parts : List (Tree String))
  /-- The application of a function that is made of a lambda. -/
  | lifted (parameters : List (Tree String)) (body argument : Tree String)
  | refused (cause : LoweringError)

def layout : Tree String → Layout
  | .bind (.identifier name) _ (.lambda parameters body) =>
    .node (.function name [] placeholderId) (parameters ++ [body])
  | .bind (.identifier name) type value =>
    .node (.bind placeholderId placeholderId placeholderId) [.identifier name, type, value]
  | .bind .. => .refused .bindsNoIdentifier
  | .block statements => .node (.sequence []) statements
  | .identifier name => .node (.identifier name) []
  | .binary left right op => .node (.binary op placeholderId placeholderId) [left, right]
  | .lambda .. => .refused .looseLambda
  | .apply (.lambda parameters body) argument => .lifted parameters body argument
  | .apply (.identifier name) argument =>
    .node (.apply placeholderId placeholderId) [.identifier name, argument]
  | .apply callee _ => .refused (.appliedNonName callee.kind)
  | .number n => .node (.number n) []
  | .boolean b => .node (.boolean b) []
  | .text s => .node (.text s) []
  | .tuple elements => .node (.tuple []) elements
  | .array elements => .node (.array []) elements
  | .file _ => .refused .nestedFile
  | .sumType options => .node (.sumType []) options
  | .productType elements => .node (.productType []) elements
  | .typeName name => .node (.typeName name) []
  | .functionType source target =>
    .node (.functionType placeholderId placeholderId) [source, target]
  | .arrayType element length => .node (.arrayType length placeholderId) [element]
  | .unitType => .node .unitType []

variable {t : Tree String} {draft : Node} {parts : List (Tree String)}

theorem canHold_of_layout (h : layout t = .node draft parts) : draft.canHold parts.length := by
  unfold layout at h
  split at h <;> cases h <;> simp [Node.canHold]

/-- The parts of a tree are smaller than the tree. -/
theorem sizeOf_lt_of_layout (h : layout t = .node draft parts) {u : Tree String} (hu : u ∈ parts) :
    sizeOf u < sizeOf t := by
  have hlist := List.sizeOf_lt_of_mem hu
  unfold layout at h
  split at h <;> cases h
  case h_1 =>
    simp only [Tree.bind.sizeOf_spec, Tree.lambda.sizeOf_spec]
    rcases List.mem_append.1 hu with hu | hu
    · have hps := List.sizeOf_lt_of_mem hu
      omega
    · rw [List.mem_singleton.1 hu]
      omega
  case h_4 | h_14 | h_15 | h_17 | h_18 =>
    simp only [Tree.block.sizeOf_spec, Tree.tuple.sizeOf_spec, Tree.array.sizeOf_spec,
      Tree.sumType.sizeOf_spec, Tree.productType.sizeOf_spec]
    omega
  case h_5 | h_11 | h_12 | h_13 | h_19 | h_22 => cases hu
  all_goals
    simp only [List.mem_cons, List.not_mem_nil, or_false] at hu
    simp only [Tree.bind.sizeOf_spec, Tree.binary.sizeOf_spec, Tree.apply.sizeOf_spec,
      Tree.functionType.sizeOf_spec, Tree.arrayType.sizeOf_spec]
    rcases hu with rfl | rfl | rfl <;> omega

theorem lower_refused {e : LoweringError} (h : layout t = .refused e) (parent : Int) :
    lower t parent = throw e := by
  unfold layout at h
  split at h <;> cases h <;> simp [lower]

theorem lowerAll_eq_mapM (ts : List (Tree String)) (parent : Int) :
    lowerAll ts parent = ts.mapM fun t => lower t parent := by
  induction ts with
  | nil => rfl
  | cons t ts ih => rw [lowerAll, ih, List.mapM_cons]

theorem lowerAll_append (ts us : List (Tree String)) (parent : Int) :
    lowerAll (ts ++ us) parent = (do return (← lowerAll ts parent) ++ (← lowerAll us parent)) := by
  induction ts with
  | nil => simp [lowerAll]
  | cons t ts ih => simp [lowerAll, ih]

theorem write_of_ok {id : Int} {node : Node} {s : Lowered} {a : Arena Node}
    (h : s.arena.setValue id node = .ok a) : write id node s = .ok () { s with arena := a } := by
  have hget : (get : Step Lowered) s = .ok s s := rfl
  rw [write, bind_of_ok hget]
  simp only [h]
  rfl

/-- Writing a node again as it is changes nothing. -/
theorem add_eq_addFilled {node : Node} (h : node.withReferences [] = node) (parent : Int) :
    add node parent = addFilled node parent (lowerAll []) node.withReferences := by
  funext s
  cases ha : add node parent s with
  | error e s' =>
    change _ = EStateM.bind _ _ s
    simp only [EStateM.bind, ha]
  | ok id s' =>
    obtain ⟨rfl, -, hadd⟩ := add_eq_ok ha
    have hwrite : write s.arena.size node s' = .ok () s' :=
      write_of_ok (Arena.setValue_self (Arena.node?_of_add hadd))
    unfold addFilled
    rw [bind_of_ok ha, lowerAll, pure_bind, h, bind_of_ok hwrite]
    rfl

theorem lower_of_layout (h : layout t = .node draft parts) (parent : Int) :
    lower t parent = addFilled draft parent (lowerAll parts) draft.withReferences := by
  unfold layout at h
  split at h <;> cases h
  case h_1 => simp [lower, addFunction, addFilled, lowerAll_append, lowerAll, Node.withReferences]
  case h_2 hvalue =>
    rw [lower]
    · simp [addFilled, lowerAll, lower, Node.withReferences]
    · exact hvalue
  all_goals first
    | exact add_eq_addFilled rfl parent
    | rfl
    | simp [lower, addApplication, addFilled, lowerAll, Node.withReferences]

/-- A lambda that is applied on the spot is lowered as a lambda under a made name, and the name is
applied. -/
theorem lower_lifted (ps : List (Tree String)) (body argument : Tree String) (parent : Int) :
    lower (.apply (.lambda ps body) argument) parent = (do
      let name := liftedName (← get).lifted.length
      let f ← lower (.bind (.identifier name) .unitType (.lambda ps body)) rootId
      modify fun s => { s with lifted := s.lifted ++ [f] }
      lower (.apply (.identifier name) argument) parent) := by
  simp [lower]

theorem eq_of_layout_lifted {ps : List (Tree String)} {body argument : Tree String}
    (h : layout t = .lifted ps body argument) : t = .apply (.lambda ps body) argument := by
  unfold layout at h
  split at h <;> cases h
  rfl

/-- An induction over trees by the way in which they are lowered. -/
theorem inductionOnLayout {motive : Tree String → Prop}
    (node : ∀ t draft parts, layout t = .node draft parts → (∀ u ∈ parts, motive u) → motive t)
    (lifted : ∀ ps body argument,
      (∀ name, motive (.bind (.identifier name) .unitType (.lambda ps body))) →
      (∀ name, motive (.apply (.identifier name) argument)) →
      motive (.apply (.lambda ps body) argument))
    (refused : ∀ t e, layout t = .refused e → motive t) (t : Tree String) : motive t := by
  match h : layout t with
  | .node draft parts =>
    refine node t draft parts h fun u hu => ?_
    have hlt := sizeOf_lt_of_layout h hu
    exact inductionOnLayout node lifted refused u
  | .lifted ps body argument =>
    have hsize : sizeOf t = 1 + (1 + sizeOf ps + sizeOf body) + sizeOf argument := by
      rw [eq_of_layout_lifted h, Tree.apply.sizeOf_spec, Tree.lambda.sizeOf_spec]
    rw [eq_of_layout_lifted h]
    refine lifted ps body argument (fun name => node _ _ _ rfl fun u hu => ?_)
      fun name => node _ _ _ rfl fun u hu => ?_
    · have hlt : sizeOf u < sizeOf t := by
        rcases List.mem_append.1 hu with hu | hu
        · have hps := List.sizeOf_lt_of_mem hu
          omega
        · rw [List.mem_singleton.1 hu]
          omega
      exact inductionOnLayout node lifted refused u
    · rcases List.mem_cons.1 hu with rfl | hu
      · exact node (.identifier name) _ _ rfl (by simp)
      · have hlt : sizeOf u < sizeOf t := by
          rw [List.mem_singleton.1 hu]
          omega
        exact inductionOnLayout node lifted refused u
  | .refused e => exact refused t e h
termination_by sizeOf t
decreasing_by all_goals exact hlt

end Lowering

end LetLang
