import LetLang.Proofs.Token.Spelling

/-!
# Printing trees

Trees are written as tokens that the grammar reads back. What is neither a name nor a literal nor a
list stands in round brackets, so that it can be an operand, a function or an argument wherever it
is; curly brackets make an expression of a binding. The links of a type stand in round brackets too,
since an array type that comes first would be taken for the whole type.
-/

namespace LetLang

def Token.ofMark (m : Mark) : Token String := .mark m none

open Token Grammar

def joined (m : Mark) : List (List (Token String)) → List (Token String)
  | [] => []
  | x :: xs => x ++ xs.flatMap (ofMark m :: ·)

/-- The items of a listing in their brackets. -/
def Grammar.Listing.tokens (l : Listing) (items : List (List (Token String))) :
    List (Token String) :=
  ofMark l.opening :: joined l.separator items ++ [ofMark l.closing]

def Operator.mark : Operator → Mark
  | .times => .times
  | .plus => .plus
  | .index => .index

namespace Tree

def typeAtomTokens : Tree String → List (Token String)
  | .typeName n => [.identifier n]
  | .arrayType (.typeName n) length =>
    [ofMark .leftSquare, .identifier n, ofMark .semicolon, .number length, ofMark .rightSquare]
  | _ => []

def typeLinkTokens : Tree String → List (Token String)
  | .productType ts => Listing.tuple.tokens (ts.map typeAtomTokens)
  | t => Listing.tuple.tokens [t.typeAtomTokens]

def typeOptionTokens : Tree String → List (Token String)
  | .functionType s t => s.typeLinkTokens ++ ofMark .rightArrow :: t.typeOptionTokens
  | t => t.typeLinkTokens

def typeTokens : Tree String → List (Token String)
  | .sumType ts => joined .pipe (ts.map typeOptionTokens)
  | t => t.typeOptionTokens

def nameTokens : Tree String → List (Token String)
  | .identifier n => [.identifier n]
  | _ => []

/-- A binding, where `value` writes the value. -/
def bindingTokens (id type : Tree String) (value : List (Token String)) : List (Token String) :=
  ofMark .letWord :: id.nameTokens ++ ofMark .colon :: type.typeTokens ++ ofMark .equals :: value

mutual

/-- A tree as an expression that can stand anywhere. -/
def tokens : Tree String → List (Token String)
  | .identifier n => [.identifier n]
  | .text s => [.quoted s]
  | .number n => [.number n]
  | .boolean true => [ofMark .trueWord]
  | .boolean false => [ofMark .falseWord]
  | .array ts => Listing.array.tokens (tokensAll ts)
  | .tuple ts => Listing.tuple.tokens (tokensAll ts)
  | .block ts => Listing.tuple.tokens [Listing.block.tokens (statementTokensAll ts)]
  | .lambda ps b =>
    Listing.tuple.tokens [ofMark .backslash :: Listing.tuple.tokens (ps.map nameTokens) ++
      ofMark .fatRightArrow :: b.tokens]
  | .apply f a => Listing.tuple.tokens [f.tokens ++ a.tokens]
  | .binary l r op => Listing.tuple.tokens [l.tokens ++ ofMark op.mark :: r.tokens]
  | .bind i t v => Listing.tuple.tokens [Listing.block.tokens [bindingTokens i t v.tokens]]
  | _ => []

def tokensAll : List (Tree String) → List (List (Token String))
  | [] => []
  | t :: ts => t.tokens :: tokensAll ts

def statementTokensAll : List (Tree String) → List (List (Token String))
  | [] => []
  | .bind i t v :: ts => bindingTokens i t v.tokens :: statementTokensAll ts
  | t :: ts => t.tokens :: statementTokensAll ts

end

/-- A tree as a statement. Here a binding needs no brackets. -/
def statementTokens : Tree String → List (Token String)
  | .bind i t v => bindingTokens i t v.tokens
  | t => t.tokens

theorem tokensAll_eq_map (ts : List (Tree String)) : tokensAll ts = ts.map tokens := by
  induction ts with
  | nil => rfl
  | cons t ts ih => rw [tokensAll, ih, List.map_cons]

theorem statementTokensAll_eq_map (ts : List (Tree String)) :
    statementTokensAll ts = ts.map statementTokens := by
  induction ts with
  | nil => rfl
  | cons t ts ih => cases t <;> simp [statementTokensAll, statementTokens, ih]

/-- An expression in brackets can be an argument: it does not begin with a curly one. -/
theorem exists_tokens_eq_cons {t : Tree String} (h : t.IsParsed) :
    ∃ u us, t.tokens = u :: us ∧ startsArgument u = true := by
  cases h with
  | boolean b => cases b <;> exact ⟨_, _, rfl, rfl⟩
  | _ => exact ⟨_, _, rfl, rfl⟩

end Tree

/-- The tokens of a file: its statements, each with a semicolon behind it. -/
def fileTokens (ts : List (Tree String)) : List (Token String) :=
  ts.flatMap fun t => t.statementTokens ++ [ofMark .semicolon]

def printStatements (ts : List (Tree String)) : String := Token.writeAll (fileTokens ts)

theorem Token.written_ofMark {m : Mark} (h : m ∈ spellings.map Prod.snd) : (ofMark m).Written :=
  ⟨h, rfl⟩

theorem forall_mem_joined {P : Token String → Prop} {m : Mark} (hm : P (ofMark m))
    {xs : List (List (Token String))} (hxs : ∀ x ∈ xs, ∀ u ∈ x, P u) : ∀ u ∈ joined m xs, P u := by
  cases xs with
  | nil => simp [joined]
  | cons x xs =>
    obtain ⟨hx, hxs⟩ := List.forall_mem_cons.1 hxs
    refine List.forall_mem_append.2 ⟨hx, fun u hu => ?_⟩
    obtain ⟨y, hy, hu⟩ := List.mem_flatMap.1 hu
    rcases List.mem_cons.1 hu with rfl | hu
    · exact hm
    · exact hxs y hy u hu

theorem Grammar.Listing.written_tokens (l : Listing) {xs : List (List (Token String))}
    (hxs : ∀ x ∈ xs, ∀ u ∈ x, u.Written) : ∀ u ∈ l.tokens xs, u.Written := by
  have hmark : ∀ m, m = l.opening ∨ m = l.separator ∨ m = l.closing → (ofMark m).Written := by
    intro m hm
    refine written_ofMark ?_
    cases l <;> rcases hm with rfl | rfl | rfl <;> decide
  refine List.forall_mem_cons.2 ⟨hmark _ (.inl rfl), List.forall_mem_append.2 ⟨?_, ?_⟩⟩
  · exact forall_mem_joined (hmark _ (.inr (.inl rfl))) hxs
  · exact List.forall_mem_singleton.2 (hmark _ (.inr (.inr rfl)))

namespace Tree

variable {t : Tree String}

theorem IsTypeAtom.typeLinkTokens (h : t.IsTypeAtom) :
    t.typeLinkTokens = Listing.tuple.tokens [t.typeAtomTokens] := by
  cases h <;> rfl

theorem IsTypeLink.typeOptionTokens (h : t.IsTypeLink) :
    t.typeOptionTokens = t.typeLinkTokens := by
  cases h with
  | atom ht => cases ht <;> rfl
  | product => rfl

theorem IsTypeOption.typeTokens (h : t.IsTypeOption) : t.typeTokens = t.typeOptionTokens := by
  cases h with
  | link ht =>
    cases ht with
    | atom ht => cases ht <;> rfl
    | product => rfl
  | function => rfl

theorem IsTypeAtom.written (h : t.IsTypeAtom) : ∀ u ∈ t.typeAtomTokens, u.Written := by
  cases h with
  | name hn => exact List.forall_mem_singleton.2 hn
  | array hn hlength =>
    simp only [typeAtomTokens, List.forall_mem_cons]
    exact ⟨written_ofMark (by decide), hn, written_ofMark (by decide), hlength,
      written_ofMark (by decide), by simp⟩

theorem IsTypeLink.written (h : t.IsTypeLink) : ∀ u ∈ t.typeLinkTokens, u.Written := by
  cases h with
  | atom ht =>
    rw [ht.typeLinkTokens]
    exact Listing.tuple.written_tokens (List.forall_mem_singleton.2 ht.written)
  | product _ hts =>
    refine Listing.tuple.written_tokens fun x hx => ?_
    obtain ⟨t, ht, rfl⟩ := List.mem_map.1 hx
    exact (hts t ht).written

theorem IsTypeOption.written (h : t.IsTypeOption) : ∀ u ∈ t.typeOptionTokens, u.Written := by
  induction h with
  | link ht =>
    rw [ht.typeOptionTokens]
    exact ht.written
  | function hs _ ih =>
    refine List.forall_mem_append.2 ⟨hs.written, List.forall_mem_cons.2 ⟨?_, ih⟩⟩
    exact written_ofMark (by decide)

theorem IsTypeExpression.written (h : t.IsTypeExpression) : ∀ u ∈ t.typeTokens, u.Written := by
  cases h with
  | option ht =>
    rw [ht.typeTokens]
    exact ht.written
  | sum _ hts =>
    refine forall_mem_joined (written_ofMark (by decide)) fun x hx => ?_
    obtain ⟨t, ht, rfl⟩ := List.mem_map.1 hx
    exact (hts t ht).written

theorem IsParameter.written (h : t.IsParameter) : ∀ u ∈ t.nameTokens, u.Written := by
  obtain ⟨n, rfl, hn⟩ := h
  exact List.forall_mem_singleton.2 hn

theorem written_bindingTokens {i : Tree String} {value : List (Token String)}
    (hi : i.IsParameter) (ht : t.IsTypeExpression) (hvalue : ∀ u ∈ value, u.Written) :
    ∀ u ∈ bindingTokens i t value, u.Written := by
  simp only [bindingTokens, List.cons_append, List.forall_mem_cons, List.forall_mem_append]
  exact ⟨written_ofMark (by decide), ⟨hi.written, written_ofMark (by decide), ht.written⟩,
    written_ofMark (by decide), hvalue⟩

theorem IsParsed.written (h : t.IsParsed) :
    (∀ u ∈ t.tokens, u.Written) ∧ ∀ u ∈ t.statementTokens, u.Written := by
  induction h with
  | identifier hn => exact and_self_iff.2 (List.forall_mem_singleton.2 hn)
  | text hs => exact and_self_iff.2 (List.forall_mem_singleton.2 hs)
  | number hn => exact and_self_iff.2 (List.forall_mem_singleton.2 hn)
  | boolean b =>
    cases b <;> exact and_self_iff.2 (List.forall_mem_singleton.2 (written_ofMark (by decide)))
  | array _ ih =>
    refine and_self_iff.2 (Listing.array.written_tokens ?_)
    rw [tokensAll_eq_map]
    exact List.forall_mem_map.2 fun t ht => (ih t ht).1
  | tuple _ _ ih =>
    refine and_self_iff.2 (Listing.tuple.written_tokens ?_)
    rw [tokensAll_eq_map]
    exact List.forall_mem_map.2 fun t ht => (ih t ht).1
  | block _ _ ih =>
    refine and_self_iff.2 (Listing.tuple.written_tokens (List.forall_mem_singleton.2 ?_))
    refine Listing.block.written_tokens ?_
    rw [statementTokensAll_eq_map]
    exact List.forall_mem_map.2 fun t ht => (ih t ht).2
  | lambda hps _ ih =>
    have hnames :=
      Listing.tuple.written_tokens (List.forall_mem_map.2 fun p hp => (hps p hp).written)
    refine and_self_iff.2 (Listing.tuple.written_tokens (List.forall_mem_singleton.2 ?_))
    simp only [List.cons_append, List.forall_mem_cons, List.forall_mem_append]
    exact ⟨written_ofMark (by decide), hnames, written_ofMark (by decide), ih.1⟩
  | apply _ _ ihf iha =>
    refine and_self_iff.2 (Listing.tuple.written_tokens (List.forall_mem_singleton.2 ?_))
    exact List.forall_mem_append.2 ⟨ihf.1, iha.1⟩
  | binary op _ _ ihl ihr =>
    have hop : (ofMark op.mark).Written := written_ofMark (by cases op <;> decide)
    refine and_self_iff.2 (Listing.tuple.written_tokens (List.forall_mem_singleton.2 ?_))
    exact List.forall_mem_append.2 ⟨ihl.1, List.forall_mem_cons.2 ⟨hop, ihr.1⟩⟩
  | bind hi ht _ ih =>
    have hbinding := written_bindingTokens hi ht ih.1
    refine ⟨Listing.tuple.written_tokens (List.forall_mem_singleton.2 ?_), hbinding⟩
    exact Listing.block.written_tokens (List.forall_mem_singleton.2 hbinding)

end Tree

theorem written_fileTokens {ts : List (Tree String)} (h : ∀ t ∈ ts, t.IsParsed) :
    ∀ u ∈ fileTokens ts, u.Written := by
  intro u hu
  obtain ⟨t, ht, hu⟩ := List.mem_flatMap.1 hu
  rcases List.mem_append.1 hu with hu | hu
  · exact (h t ht).written.2 u hu
  · rw [List.mem_singleton.1 hu]
    exact written_ofMark (by decide)

end LetLang
