import LetLang.Proofs.Drawing.Decoding
import LetLang.Proofs.Lowering.Naming
import LetLang.Proofs.Lowering.Origin
import LetLang.Proofs.Text.Quoted

/-!
# The labels of nodes

No label in a lowered file breaks a line or ends in a backslash, and only quoted text can put a
double quote into one: text with an apostrophe in it is shown between double quotes.
-/

namespace LetLang.Drawing

/-- The text has neither double quotes nor newlines. -/
def Plain (s : String) : Prop := '"' ∉ s.toList ∧ '\n' ∉ s.toList

instance (s : String) : Decidable (Plain s) :=
  inferInstanceAs (Decidable ('"' ∉ s.toList ∧ '\n' ∉ s.toList))

theorem Plain.append {s t : String} (hs : Plain s) (ht : Plain t) : Plain (s ++ t) := by
  simp [Plain, hs.1, hs.2, ht.1, ht.2]

/-- The names in the node are plain, and the text in it holds no double quotes. -/
def Spelled : Node → Prop
  | .identifier name | .typeName name | .function name _ _ | .native name _ => Plain name
  | .text s => '"' ∉ s.toList
  | _ => True

theorem plain_of_isName {name : String} (h : IsName name) : Plain name :=
  ⟨h.not_mem (by decide +kernel), h.not_mem (by decide +kernel)⟩

theorem plain_liftedName (k : Nat) : Plain (Lowering.liftedName k) := by
  unfold Plain
  rw [Lowering.toList_liftedName, List.mem_append, not_or, List.mem_append, not_or]
  exact ⟨⟨by decide, not_mem_toDigits (by decide)⟩, by decide, not_mem_toDigits (by decide)⟩

theorem plain_toString (n : Int) : Plain (toString n) :=
  ⟨fun h => absurd (Text.isNumeral_of_mem_toString n _ h) (by decide),
    fun h => absurd (Text.isNumeral_of_mem_toString n _ h) (by decide)⟩

variable {node : Node}

/-- A label is legible if what stands in its brackets is plain. -/
theorem legible_label (h : ∀ d, node.detail = some d → Plain d) : Legible node.label := by
  have hkind : Legible node.kind := by
    cases node <;> dsimp only [Node.kind] <;> decide
  unfold Node.label
  split
  · next d hd =>
    have hinside : Plain (node.kind ++ "(" ++ d ++ ")") :=
      ((Plain.append ⟨hkind.quote, hkind.line⟩ (by decide)).append (h d hd)).append (by decide)
    refine ⟨hinside.1, hinside.2, ?_⟩
    have hend : ")".toList = [')'] := rfl
    rw [String.toList_append, hend, List.getLast?_concat]
    decide
  · exact hkind

/-- A label is torn if its text is shown between double quotes. -/
theorem torn_label {s : String} (hquote : '"' ∉ s.toList) (hapostrophe : '\x27' ∈ s.toList) :
    Torn (Node.text s).label := by
  have hmark : Text.quoteMark s.toList = '"' := if_pos ⟨hapostrophe, hquote⟩
  obtain ⟨hinside, hline⟩ := Text.not_mem_flatMap_escape '"' (by decide) hquote
  have hlabel : (Node.text s).label.toList =
      "Text(".toList ++ '"' :: (s.toList.flatMap (Text.escape '"') ++ '"' :: [')']) := by
    simp [Node.label, Node.detail, Node.kind, Text.quote, Text.quoteChars, hmark]
  refine .intro hlabel (by decide) (by decide) hinside ?_ ?_
  · exact List.mem_flatMap.2 ⟨_, hapostrophe, by decide⟩
  · rw [hlabel]
    simp [hline]

theorem plain_quote {s : String} (hquote : '"' ∉ s.toList) (hapostrophe : '\x27' ∉ s.toList) :
    Plain (Text.quote s) := by
  have hmark : Text.quoteMark s.toList = '\x27' := if_neg fun h => hapostrophe h.1
  obtain ⟨hinside, hline⟩ := Text.not_mem_flatMap_escape '\x27' (by decide) hquote
  simp [Plain, Text.quote, Text.quoteChars, hmark, hinside, hline]

/-- A label is legible unless there is an apostrophe in the text that it shows. -/
theorem legible_label_of_spelled (h : Spelled node)
    (htext : ∀ s, node = .text s → '\x27' ∉ s.toList) : Legible node.label := by
  refine legible_label fun d hd => ?_
  cases node with
  | identifier | typeName | function | native =>
    cases hd
    exact h
  | number n =>
    cases hd
    exact plain_toString n
  | boolean b => cases b <;> cases hd <;> exact ⟨by decide, by decide⟩
  | text s =>
    cases hd
    exact plain_quote h (htext s rfl)
  | binary op => cases op <;> cases hd <;> exact ⟨by decide, by decide⟩
  | arrayType length =>
    cases hd
    exact Plain.append (by decide : Plain ";") (plain_toString length)
  | _ => cases hd

theorem legible_or_torn_label (h : Spelled node) : Legible node.label ∨ Torn node.label := by
  by_cases htext : ∀ s, node = .text s → '\x27' ∉ s.toList
  · exact .inl (legible_label_of_spelled h htext)
  · push Not at htext
    obtain ⟨s, rfl, hapostrophe⟩ := htext
    exact .inr (torn_label h hapostrophe)

theorem legible_label_iff (h : Spelled node) :
    Legible node.label ↔ ∀ s, node = .text s → '\x27' ∉ s.toList := by
  refine ⟨?_, legible_label_of_spelled h⟩
  rintro hlegible s rfl hapostrophe
  exact (torn_label h hapostrophe).not_legible hlegible

section
variable {nodes : Int → Option Node} {R : String → Int → Prop} {t : Tree String}
  {ts : List (Tree String)} {l : Lowering.Lowered} {id : Int}

/-- The names that the tree is written with are names, and text in it holds no double quotes. -/
def SpelledTree : Tree String → Prop
  | .bind (.identifier name) _ _ | .identifier name | .typeName name => IsName name
  | .text s => '"' ∉ s.toList
  | _ => True

theorem spelledTree_of_isParsed (h : t.IsParsed) : SpelledTree t := by
  cases h with
  | identifier hn => exact hn
  | text hs => exact hs
  | bind hi =>
    obtain ⟨n, rfl, hn⟩ := hi
    exact hn
  | _ => trivial

theorem spelledTree_of_isTypeExpression (h : t.IsTypeExpression) : SpelledTree t := by
  cases h with
  | sum => trivial
  | option h =>
    cases h with
    | function => trivial
    | link h =>
      cases h with
      | product => trivial
      | atom h =>
        cases h with
        | name hn => exact hn
        | array => trivial

theorem spelled_of_represents (ht : SpelledTree t) (h : Lowering.Represents nodes R t id)
    (hid : nodes id = some node) : Spelled node := by
  cases h with
  | function hn | identifier hn | typeName hn =>
    cases hn.symm.trans hid
    exact plain_of_isName ht
  | text hn =>
    cases hn.symm.trans hid
    exact ht
  | bind _ hn | block hn | binary hn | applyLambda hn | apply hn | number hn | boolean hn
  | tuple hn | array hn | sumType hn | productType hn | functionType hn | arrayType hn
  | unitType hn =>
    cases hn.symm.trans hid
    trivial

/-- In a file that was lowered from a parsed one the names are plain and text holds no double
quotes. -/
theorem spelled_of_lower (hts : ∀ t ∈ ts, t.IsParsed) (h : LetLang.lower (.file ts) = .ok l)
    (hid : l.arena.node? id = some node) : Spelled node := by
  obtain ⟨n, s, rfl, -⟩ := Arena.exists_slot_of_node? hid
  rcases Nat.eq_zero_or_pos n with rfl | hpos
  · obtain ⟨ids, tops, made, himage⟩ := Lowering.exists_image h
    cases himage.root.symm.trans hid
    trivial
  · cases Lowering.origin_of_node h n hpos hid with
    | tree hu hrep =>
      rcases Tree.occurs_iff.1 hu with rfl | ⟨t, ht, hu⟩
      · cases hrep
      · rcases hu.isParsed_or_isTypeExpression (hts t ht) with hu | hu
        · exact spelled_of_represents (spelledTree_of_isParsed hu) hrep hid
        · exact spelled_of_represents (spelledTree_of_isTypeExpression hu) hrep hid
    | lifted _ hlift =>
      obtain ⟨hn, -⟩ := hlift
      cases hn.symm.trans hid
      exact plain_liftedName _
    | madeName hn =>
      cases hn.symm.trans hid
      exact plain_liftedName _

end

end LetLang.Drawing
