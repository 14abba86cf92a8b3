import LetLang.Grammar
import Mathlib

/-!
# Leaves

Names, numbers, texts, truth values and operators are what a token list has to say; its other marks
only show how they belong together. They are the leaves of the tree, which an in-order walk meets
one after the other. The main statement is that in a list that is parsed there are only tokens of
the grammar, and that its leaves are those of the tree, each once and in the same order.
-/

namespace LetLang

/-- What a token carries into the tree, or a walk of the tree meets. -/
inductive Leaf (τ : Type) where
  | name (n : τ)
  | number (n : Int)
  | text (s : τ)
  | boolean (b : Bool)
  | operator (op : Operator)
  deriving Repr, DecidableEq

variable {τ : Type}

def Mark.leaf? : Mark → Option (Leaf τ)
  | .trueWord => some (.boolean true)
  | .falseWord => some (.boolean false)
  | .times => some (.operator .times)
  | .plus => some (.operator .plus)
  | .index => some (.operator .index)
  | _ => none

def Mark.carriers : List Mark := [.trueWord, .falseWord, .times, .plus, .index]

/-- The other marks of the grammar. -/
def Mark.joints : List Mark :=
  [.letWord, .rightArrow, .fatRightArrow, .leftSquare, .rightSquare, .leftRound, .rightRound,
   .leftCurly, .rightCurly, .colon, .semicolon, .comma, .pipe, .equals, .backslash]

namespace Token

def leaf? : Token τ → Option (Leaf τ)
  | .number n => some (.number n)
  | .identifier n => some (.name n)
  | .quoted s => some (.text s)
  | .error _ => none
  | .mark m _ => m.leaf?

theorem leaf?_eq_number_iff {t : Token τ} {n : Int} :
    t.leaf? = some (.number n) ↔ t = .number n := by
  cases t with
  | mark m => cases m <;> simp [leaf?, Mark.leaf?]
  | _ => simp [leaf?]

/-- The grammar has a place for tokens of this kind. -/
def IsUsed : Token τ → Prop
  | .error _ => False
  | .mark m _ => m ∈ Mark.carriers ∨ m ∈ Mark.joints
  | _ => True

end Token

namespace Tree

mutual

/-- The leaves of a tree in the order in which they are written. -/
def leaves : Tree τ → List (Leaf τ)
  | .file statements => leavesAll statements
  | .bind id type value => leaves id ++ (leaves type ++ leaves value)
  | .identifier n => [.name n]
  | .binary left right op => leaves left ++ .operator op :: leaves right
  | .lambda parameters body => leavesAll parameters ++ leaves body
  | .apply callee argument => leaves callee ++ leaves argument
  | .number n => [.number n]
  | .boolean b => [.boolean b]
  | .text s => [.text s]
  | .tuple elements => leavesAll elements
  | .array elements => leavesAll elements
  | .block statements => leavesAll statements
  | .sumType options => leavesAll options
  | .productType elements => leavesAll elements
  | .typeName n => [.name n]
  | .functionType source target => leaves source ++ leaves target
  | .arrayType element length => leaves element ++ [.number length]
  | .unitType => []

def leavesAll : List (Tree τ) → List (Leaf τ)
  | [] => []
  | t :: ts => leaves t ++ leavesAll ts

end

theorem leavesAll_eq_flatMap (ts : List (Tree τ)) : leavesAll ts = ts.flatMap leaves := by
  induction ts with
  | nil => rfl
  | cons t ts ih => rw [leavesAll, ih, List.flatMap_cons]

theorem leavesAll_append (ts us : List (Tree τ)) :
    leavesAll (ts ++ us) = leavesAll ts ++ leavesAll us := by
  simp only [leavesAll_eq_flatMap, List.flatMap_append]

@[simp] theorem leavesAll_singleton (t : Tree τ) : leavesAll [t] = leaves t := by
  simp [leavesAll]

theorem leavesAll_map_identifier (ns : List τ) :
    leavesAll (ns.map .identifier) = ns.map Leaf.name := by
  induction ns with
  | nil => rfl
  | cons n ns ih => simp [leavesAll, leaves, ih]

end Tree

namespace Reading

variable {α β : Type} {ts us : List (Token τ)} {P : α → List (Leaf τ) → Prop}
  {Q : β → List (Leaf τ) → Prop}

/-- The tokens are used up from the front, also by a failure. Those that a success uses are tokens
of the grammar, and the leaves that they carry are related to the result by `P`. -/
def Spends (P : α → List (Leaf τ) → Prop) : Reading α ts → Prop
  | .ok a rest _ => ∃ used, ts = used ++ rest ∧ (∀ t ∈ used, t.IsUsed) ∧
      P a (used.filterMap Token.leaf?)
  | .error _ rest _ => rest <:+ ts

theorem Spends.map {r : Reading α ts} {f : α → β} (h : r.Spends P)
    (hf : ∀ a ls, P a ls → Q (f a) ls) : (r.map f).Spends Q := by
  cases r with
  | ok a rest hlt =>
    obtain ⟨used, hts, hused, ha⟩ := h
    exact ⟨used, hts, hused, hf a _ ha⟩
  | error => exact h

/-- A reading of the last tokens of a list counts with those that were used before. -/
theorem Spends.widen {used : List (Token τ)} {r : Reading α us} (hts : ts = used ++ us)
    (hused : ∀ t ∈ used, t.IsUsed)
    (h : r.Spends fun a ls => P a (used.filterMap Token.leaf? ++ ls))
    (hle : us.length ≤ ts.length) : (r.widen hle).Spends P := by
  cases r with
  | ok a rest hlt =>
    obtain ⟨more, rfl, hmore, ha⟩ := h
    refine ⟨used ++ more, by rw [hts, List.append_assoc], fun t ht => ?_, ?_⟩
    · exact (List.mem_append.1 ht).elim (hused t) (hmore t)
    · rwa [List.filterMap_append]
  | error => exact List.IsSuffix.trans h ⟨used, hts.symm⟩

theorem Spends.andThen {r : Reading α ts}
    {next : α → (us : List (Token τ)) → us.length < ts.length → Reading β us}
    (h : r.Spends P)
    (hnext : ∀ a ls us hlt, P a ls → (next a us hlt).Spends fun b ls' => Q b (ls ++ ls')) :
    (r.andThen next).Spends Q := by
  cases r with
  | ok a rest hlt =>
    obtain ⟨used, hts, hused, ha⟩ := h
    exact Spends.widen hts hused (hnext a _ rest hlt ha) (Nat.le_of_lt hlt)
  | error => exact h

theorem Spends.extend {r : Reading α ts}
    {next : α → (us : List (Token τ)) → us.length < ts.length → Option (Reading α us)}
    (h : r.Spends P)
    (hnext : ∀ a ls us hlt r', P a ls → next a us hlt = some r' →
      r'.Spends fun b ls' => P b (ls ++ ls')) :
    (r.extend next).Spends P := by
  cases r with
  | ok a rest hlt =>
    obtain ⟨used, hts, hused, ha⟩ := h
    cases hr : next a rest hlt with
    | none => simpa only [Reading.extend, hr] using ⟨used, hts, hused, ha⟩
    | some r' =>
      simpa only [Reading.extend, hr] using
        Spends.widen hts hused (hnext a _ rest hlt r' ha hr) (Nat.le_of_lt hlt)
  | error => exact h

end Reading

namespace Grammar

open Reading

variable {ts : List (Token τ)}

theorem leaf?_of_mem_joints {m : Mark} (h : m ∈ Mark.joints) :
    (m.leaf? : Option (Leaf τ)) = none := by
  have hall : ∀ m ∈ Mark.joints, (m.leaf? : Option (Leaf τ)) = none := by
    simp [Mark.joints, Mark.leaf?]
  exact hall m h

theorem spends_expect {m : Mark} (hm : m ∈ Mark.joints) (ts : List (Token τ)) :
    (expect m ts).Spends fun _ ls => ls = [] := by
  cases ts with
  | nil => exact List.suffix_refl []
  | cons t ts =>
    by_cases ht : t.is m = true
    · simp only [expect, ht, if_true]
      cases t with
      | mark m' note =>
        obtain rfl : m' = m := by simpa [Token.is] using ht
        exact ⟨[.mark m' note], rfl, List.forall_mem_singleton.2 (.inr hm),
          by simp [Token.leaf?, leaf?_of_mem_joints hm]⟩
      | _ => cases ht
    · simp only [expect, ht, Bool.false_eq_true, if_false]
      exact List.suffix_cons t ts

theorem spends_name (ts : List (Token τ)) : (name ts).Spends fun n ls => ls = [.name n] := by
  unfold name
  split
  · exact List.suffix_refl []
  · next n rest => exact ⟨[.identifier n], rfl, List.forall_mem_singleton.2 trivial, rfl⟩
  · next t rest _ => exact List.suffix_cons t rest

theorem spends_arrayLength (ts : List (Token τ)) :
    (arrayLength ts).Spends fun n ls => ls = [.number n] := by
  unfold arrayLength
  split
  · exact List.suffix_refl []
  · next n rest => exact ⟨[.number n], rfl, List.forall_mem_singleton.2 trivial, rfl⟩
  · next t rest _ => exact List.suffix_cons t rest

theorem spends_arrayType (ts : List (Token τ)) :
    (arrayType ts).Spends fun t ls => ls = t.leaves := by
  refine (spends_expect (by decide) ts).andThen ?_
  rintro _ _ us - rfl
  refine (spends_name us).andThen ?_
  rintro n _ us - rfl
  refine (spends_expect (by decide) us).andThen ?_
  rintro _ _ us - rfl
  refine (spends_arrayLength us).andThen ?_
  rintro k _ us - rfl
  refine (spends_expect (by decide) us).map ?_
  rintro _ _ rfl
  rfl

theorem spends_typeAtom (ts : List (Token τ)) :
    (typeAtom ts).Spends fun t ls => ls = t.leaves := by
  unfold typeAtom
  split
  · exact spends_arrayType ts
  · refine (spends_name ts).map ?_
    rintro n _ rfl
    rfl

theorem spends_moreTypeAtoms (ts : List (Token τ)) :
    (moreTypeAtoms ts).Spends fun us ls => ls = Tree.leavesAll us := by
  unfold moreTypeAtoms
  split
  · exact (spends_expect (by decide) ts).map fun _ _ => id
  · refine (spends_expect (by decide) ts).andThen ?_
    rintro _ _ us - rfl
    refine (spends_typeAtom us).andThen ?_
    rintro t _ vs hvs rfl
    refine (spends_moreTypeAtoms vs).map ?_
    rintro rest _ rfl
    rfl
termination_by ts.length

theorem leaves_productOf (ts : List (Tree τ)) : (productOf ts).leaves = Tree.leavesAll ts := by
  match ts with
  | [] => rfl
  | [t] => exact (Tree.leavesAll_singleton t).symm
  | _ :: _ :: _ => rfl

theorem spends_productType (ts : List (Token τ)) :
    (productType ts).Spends fun t ls => ls = t.leaves := by
  unfold productType
  split
  · refine (spends_expect (by decide) ts).andThen ?_
    rintro _ _ us - rfl
    split
    · exact (spends_expect (by decide) us).map fun _ _ => id
    · refine (spends_typeAtom us).andThen ?_
      rintro t _ vs - rfl
      refine (spends_moreTypeAtoms vs).map ?_
      rintro rest _ rfl
      exact (leaves_productOf (t :: rest)).symm
  · exact spends_typeAtom ts

theorem spends_functionType (ts : List (Token τ)) :
    (functionType ts).Spends fun t ls => ls = t.leaves := by
  unfold functionType
  refine (spends_productType ts).extend ?_
  rintro source _ us hus r rfl hr
  split at hr
  · cases hr
    refine (spends_expect (by decide) us).andThen ?_
    rintro _ _ vs hvs rfl
    refine (spends_functionType vs).map ?_
    rintro target _ rfl
    rfl
  · cases hr
termination_by ts.length

theorem spends_typeOptions (ts : List (Token τ)) :
    (typeOptions ts).Spends fun os ls => ls = Tree.leavesAll os := by
  unfold typeOptions
  have hfirst : ((functionType ts).map ([·])).Spends fun os ls => ls = Tree.leavesAll os := by
    refine (spends_functionType ts).map ?_
    rintro t _ rfl
    exact (Tree.leavesAll_singleton t).symm
  refine hfirst.extend ?_
  rintro first _ us hus r rfl hr
  split at hr
  · cases hr
    refine (spends_expect (by decide) us).andThen ?_
    rintro _ _ vs hvs rfl
    refine (spends_typeOptions vs).map ?_
    rintro rest _ rfl
    exact (Tree.leavesAll_append first rest).symm
  · cases hr
termination_by ts.length

theorem leaves_sumOf (ts : List (Tree τ)) : (sumOf ts).leaves = Tree.leavesAll ts := by
  match ts with
  | [] => rfl
  | [t] => exact (Tree.leavesAll_singleton t).symm
  | _ :: _ :: _ => rfl

theorem spends_type (ts : List (Token τ)) : (type ts).Spends fun t ls => ls = t.leaves := by
  unfold type
  split
  · exact spends_arrayType ts
  · refine (spends_typeOptions ts).map ?_
    rintro os _ rfl
    exact (leaves_sumOf os).symm

theorem spends_names (ts : List (Token τ)) :
    (names ts).Spends fun ns ls => ls = ns.map Leaf.name := by
  unfold names
  have hfirst : ((name ts).map ([·])).Spends fun ns ls => ls = ns.map Leaf.name := by
    refine (spends_name ts).map ?_
    rintro n _ rfl
    rfl
  refine hfirst.extend ?_
  rintro first _ us hus r rfl hr
  split at hr
  · cases hr
    refine (spends_expect (by decide) us).andThen ?_
    rintro _ _ vs hvs rfl
    refine (spends_names vs).map ?_
    rintro rest _ rfl
    exact List.map_append.symm
  · cases hr
termination_by ts.length

theorem spends_parameters (ts : List (Token τ)) :
    (parameters ts).Spends fun ps ls => ls = Tree.leavesAll ps := by
  unfold parameters
  split
  · refine (spends_expect (by decide) ts).andThen ?_
    rintro _ _ us - rfl
    split
    · exact (spends_expect (by decide) us).map fun _ _ => id
    · refine (spends_names us).andThen ?_
      rintro ns _ vs - rfl
      refine (spends_expect (by decide) vs).map ?_
      rintro _ _ rfl
      simp [Tree.leavesAll_map_identifier]
  · refine (spends_name ts).map ?_
    rintro n _ rfl
    rfl

theorem leaves_build (l : Listing) (items : List (Tree τ)) :
    (l.build items).leaves = Tree.leavesAll items := by
  cases l with
  | array => rfl
  | tuple | block =>
    match items with
    | [] => rfl
    | [t] => exact (Tree.leavesAll_singleton t).symm
    | _ :: _ :: _ => rfl

theorem mem_joints_opening (l : Listing) : l.opening ∈ Mark.joints := by
  cases l <;> decide

theorem mem_joints_closing (l : Listing) : l.closing ∈ Mark.joints := by
  cases l <;> decide

theorem mem_joints_separator (l : Listing) : l.separator ∈ Mark.joints := by
  cases l <;> decide

theorem operator?_eq_some {t : Token τ} {op : Operator} (h : operator? t = some op) :
    t.IsUsed ∧ t.leaf? = some (.operator op) := by
  cases t with
  | mark m note =>
    simp only [operator?, Token.is, decide_eq_true_eq] at h
    split at h
    · next hm =>
      cases h
      subst hm
      exact ⟨.inl (by decide), rfl⟩
    split at h
    · next hm =>
      cases h
      subst hm
      exact ⟨.inl (by decide), rfl⟩
    split at h
    · next hm =>
      cases h
      subst hm
      exact ⟨.inl (by decide), rfl⟩
    · cases h
  | _ => cases h

-- The recursion is that of the rules themselves: fewer tokens, or as many and a lower rank.
mutual

theorem spends_expression (ts : List (Token τ)) :
    (expression ts).Spends fun t ls => ls = t.leaves := by
  unfold expression
  refine (spends_application ts).extend ?_
  rintro left _ us hus r rfl hr
  cases us with
  | nil => cases hr
  | cons t vs =>
    have hvs : vs.length < ts.length := Nat.lt_trans (by simp) hus
    dsimp only at hr
    split at hr
    · next op hop =>
      cases hr
      obtain ⟨hused, hleaf⟩ := operator?_eq_some hop
      have hused' : ∀ u ∈ [t], u.IsUsed := List.forall_mem_singleton.2 hused
      refine Spends.widen rfl hused' ((spends_expression vs).map ?_) _
      rintro right _ rfl
      rw [List.filterMap_cons_some hleaf]
      rfl
    · cases hr
termination_by (ts.length, 4)

theorem spends_application (ts : List (Token τ)) :
    (application ts).Spends fun t ls => ls = t.leaves := by
  unfold application
  refine (spends_lambda ts).extend ?_
  rintro f _ us hus r rfl hr
  split at hr
  · split at hr
    · cases hr
      refine (spends_lambda us).map ?_
      rintro a _ rfl
      rfl
    · cases hr
  · cases hr
termination_by (ts.length, 3)

theorem spends_lambda (ts : List (Token τ)) :
    (lambda ts).Spends fun t ls => ls = t.leaves := by
  unfold lambda
  split
  · refine (spends_expect (by decide) ts).andThen ?_
    rintro _ _ us hus rfl
    refine (spends_parameters us).andThen ?_
    rintro ps _ vs hvs rfl
    refine (spends_expect (by decide) vs).andThen ?_
    rintro _ _ ws hws rfl
    have hlt : ws.length < ts.length := by omega
    refine (spends_expression ws).map ?_
    rintro b _ rfl
    rfl
  · exact spends_value ts
termination_by (ts.length, 2)

theorem spends_value (ts : List (Token τ)) :
    (value ts).Spends fun t ls => ls = t.leaves := by
  match ts with
  | [] =>
    unfold value
    exact List.suffix_refl []
  | .identifier n :: us =>
    unfold value
    exact ⟨[.identifier n], rfl, List.forall_mem_singleton.2 trivial, rfl⟩
  | .quoted s :: us =>
    unfold value
    exact ⟨[.quoted s], rfl, List.forall_mem_singleton.2 trivial, rfl⟩
  | .number n :: us =>
    unfold value
    exact ⟨[.number n], rfl, List.forall_mem_singleton.2 trivial, rfl⟩
  | .error s :: us =>
    unfold value
    exact List.suffix_refl _
  | .mark m note :: us =>
    unfold value
    split
    · next hm =>
      subst hm
      exact ⟨[.mark .trueWord note], rfl, List.forall_mem_singleton.2 (.inl (by decide)), rfl⟩
    split
    · next hm =>
      subst hm
      exact ⟨[.mark .falseWord note], rfl, List.forall_mem_singleton.2 (.inl (by decide)), rfl⟩
    split
    · exact spends_listing .array _
    split
    · exact spends_listing .tuple _
    split
    · exact spends_listing .block _
    · exact List.suffix_refl _
termination_by (ts.length, 1)

theorem spends_listing (l : Listing) (ts : List (Token τ)) :
    (listing l ts).Spends fun t ls => ls = t.leaves := by
  unfold listing
  refine (spends_expect (mem_joints_opening l) ts).andThen ?_
  rintro _ _ us hus rfl
  refine (spends_items l us).map ?_
  rintro items _ rfl
  exact (leaves_build l items).symm
termination_by (ts.length, 0)

theorem spends_items (l : Listing) (ts : List (Token τ)) :
    (items l ts).Spends fun us ls => ls = Tree.leavesAll us := by
  unfold items
  split
  · exact (spends_expect (mem_joints_closing l) ts).map fun _ _ => id
  · refine (spends_item l ts).andThen ?_
    rintro t _ us hus rfl
    refine (spends_moreItems l us).map ?_
    rintro rest _ rfl
    rfl
termination_by (ts.length, 7)

theorem spends_moreItems (l : Listing) (ts : List (Token τ)) :
    (moreItems l ts).Spends fun us ls => ls = Tree.leavesAll us := by
  unfold moreItems
  split
  · exact (spends_expect (mem_joints_closing l) ts).map fun _ _ => id
  · refine (spends_expect (mem_joints_separator l) ts).andThen ?_
    rintro _ _ us hus rfl
    refine (spends_item l us).andThen ?_
    rintro t _ vs hvs rfl
    have hlt : vs.length < ts.length := Nat.lt_trans hvs hus
    refine (spends_moreItems l vs).map ?_
    rintro rest _ rfl
    rfl
termination_by (ts.length, 0)

theorem spends_item (l : Listing) (ts : List (Token τ)) :
    (item l ts).Spends fun t ls => ls = t.leaves := by
  unfold item
  cases l with
  | block => exact spends_statement ts
  | array => exact spends_expression ts
  | tuple => exact spends_expression ts
termination_by (ts.length, 6)

theorem spends_statement (ts : List (Token τ)) :
    (statement ts).Spends fun t ls => ls = t.leaves := by
  unfold statement
  split
  · exact List.suffix_refl ts
  split
  · exact spends_binding ts
  · exact spends_expression ts
termination_by (ts.length, 5)

theorem spends_binding (ts : List (Token τ)) :
    (binding ts).Spends fun t ls => ls = t.leaves := by
  unfold binding
  refine (spends_expect (by decide) ts).andThen ?_
  rintro _ _ us hus rfl
  refine (spends_name us).andThen ?_
  rintro n _ vs hvs rfl
  refine (spends_expect (by decide) vs).andThen ?_
  rintro _ _ ws hws rfl
  refine (spends_type ws).andThen ?_
  rintro t _ xs hxs rfl
  refine (spends_expect (by decide) xs).andThen ?_
  rintro _ _ ys hys rfl
  have hlt : ys.length < ts.length := by omega
  refine (spends_expression ys).map ?_
  rintro v _ rfl
  rfl
termination_by (ts.length, 0)

end

/-- A statement and the semicolon behind it. -/
theorem spends_closedStatement (ts : List (Token τ)) :
    ((statement ts).andThen fun t us _ => (expect .semicolon us).map fun _ => t).Spends
      fun t ls => ls = t.leaves := by
  refine (spends_statement ts).andThen ?_
  rintro t _ us - rfl
  refine (spends_expect (by decide) us).map ?_
  rintro _ _ rfl
  exact List.append_nil _

theorem leaves_of_statements (ts : List (Token τ)) {trees : List (Tree τ)}
    (h : statements ts = .ok trees) :
    (∀ t ∈ ts, t.IsUsed) ∧ Tree.leavesAll trees = ts.filterMap Token.leaf? := by
  unfold statements at h
  split at h
  · next hempty =>
    cases h
    obtain rfl := List.isEmpty_iff.1 hempty
    exact ⟨List.forall_mem_nil _, rfl⟩
  have hone := spends_closedStatement ts
  split at h
  · cases h
  · next t us hlt heq =>
    rw [heq] at hone
    obtain ⟨used, rfl, hused, hleaves⟩ := hone
    split at h
    · next rest hrest =>
      cases h
      obtain ⟨hus, hall⟩ := leaves_of_statements us hrest
      refine ⟨List.forall_mem_append.2 ⟨hused, hus⟩, ?_⟩
      rw [Tree.leavesAll, hall, ← hleaves, List.filterMap_append]
    · cases h
termination_by ts.length

end Grammar

/-- The parser accepts tokens of the grammar only, and the walk of the file that it makes of them
meets the leaves that they carry, each once and in their order. -/
theorem leaves_of_parse {ts : List (Token τ)} {trees : List (Tree τ)} (h : parse ts = .ok trees) :
    (∀ t ∈ ts, t.IsUsed) ∧ (Tree.file trees).leaves = ts.filterMap Token.leaf? := by
  unfold parse at h
  split at h
  · next heq =>
    cases h
    exact Grammar.leaves_of_statements ts heq
  · cases h

/-- Brackets around one element and the marks between elements leave nothing behind. -/
theorem bracketed_tokens_walked :
    ∃ trees, parse (scan "let f : (a, [b; 2]) -> (c) = \\(x) => [(x * \"s\")] !! true;") =
        .ok trees ∧
      (Tree.file trees).leaves = [.name "f", .name "a", .name "b", .number 2, .name "c", .name "x",
        .name "x", .operator .times, .text "s", .operator .index, .boolean true] := by
  have hparse : ∃ trees,
      parse (scan "let f : (a, [b; 2]) -> (c) = \\(x) => [(x * \"s\")] !! true;") = .ok trees :=
    ⟨_, by cbv⟩
  obtain ⟨trees, h⟩ := hparse
  exact ⟨trees, h, (leaves_of_parse h).2.trans (by cbv)⟩

end LetLang
