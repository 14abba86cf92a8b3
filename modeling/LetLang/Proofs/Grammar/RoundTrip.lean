import LetLang.Proofs.Grammar.Leaves
import LetLang.Proofs.Grammar.ReadTypes

/-!
# Reading what was printed

A value is read from the front of the tokens whatever follows; an expression must not be followed by
something that could go on with it. So the trees that source texts write are exactly those of the
shape of parsed trees whose numbers are short enough to be read, and each of them is written by its
own print.
-/

namespace LetLang

open Token Grammar Reading Text

namespace Grammar

variable {t : Tree String} {ts : List (Tree String)} {rest : List (Token String)} {m : Mark}

theorem reads_names (n : String) (ns : List String) (hrest : nextIs .comma rest = false) :
    (names (joined .comma ((n :: ns).map fun n => [.identifier n]) ++ rest)).Reads (n :: ns)
      rest := by
  induction ns generalizing n with
  | nil =>
    rw [names]
    exact ((reads_name n rest).map _).stop fun _ => by simp [hrest]
  | cons n' ns ih =>
    have htail := ih n'
    rw [List.map_cons] at htail
    rw [List.map_cons, List.map_cons, joined_cons_cons, List.append_assoc, List.singleton_append,
      List.cons_append, names]
    refine ((reads_name n _).map _).extend fun _ => ⟨_, if_pos (nextIs_self _ _), ?_⟩
    exact (reads_expect _ _).andThen fun _ => htail.map _

theorem exists_names {ps : List (Tree String)} (h : ∀ p ∈ ps, p.IsParameter) :
    ∃ ns : List String, ps = ns.map .identifier := by
  induction ps with
  | nil => exact ⟨[], rfl⟩
  | cons p ps ih =>
    obtain ⟨hp, hps⟩ := List.forall_mem_cons.1 h
    obtain ⟨n, rfl, -⟩ := hp
    obtain ⟨ns, rfl⟩ := ih hps
    exact ⟨n :: ns, rfl⟩

theorem reads_parameters {ps : List (Tree String)} (h : ∀ p ∈ ps, p.IsParameter)
    (rest : List (Token String)) :
    (parameters (Listing.tuple.tokens (ps.map Tree.nameTokens) ++ rest)).Reads ps rest := by
  obtain ⟨ns, rfl⟩ := exists_names h
  rw [Listing.tokens_append, List.map_map]
  simp only [Listing.opening, Listing.closing, Listing.separator]
  rw [parameters, if_pos (nextIs_self _ _)]
  refine (reads_expect _ _).andThen fun _ => ?_
  cases ns with
  | nil =>
    rw [List.map_nil, joined, List.nil_append, if_pos (nextIs_self _ _)]
    exact (reads_expect _ _).map _
  | cons n ns =>
    rw [if_neg (by simp [joined, Tree.nameTokens, nextIs, Token.is])]
    exact (reads_names n ns rfl).andThen fun _ => (reads_expect _ _).map _

/-- An expression goes no further when the mark follows. -/
def endsExpression (m : Mark) : Bool :=
  !startsArgument (ofMark m) && (operator? (ofMark m)).isNone

variable {us xs : List (Token String)}

/-- What a value does not begin with is not there when a value was read. -/
theorem nextIs_of_value (h : (value us).Reads t rest)
    (hm : m ∉ [.trueWord, .falseWord, .leftSquare, .leftRound, .leftCurly]) :
    nextIs m us = false := by
  match us, h with
  | [], _ => rfl
  | .number _ :: _, _ | .identifier _ :: _, _ | .quoted _ :: _, _ | .error _ :: _, _ => rfl
  | .mark m' note :: us, h =>
    refine decide_eq_false fun heq => ?_
    subst heq
    simp only [List.mem_cons, List.not_mem_nil, or_false, not_or] at hm
    obtain ⟨_, h⟩ := h
    simp [value, hm] at h

theorem reads_lambda_of_value (h : (value us).Reads t rest) : (lambda us).Reads t rest := by
  rw [lambda, if_neg (by simp [nextIs_of_value h (m := .backslash)])]
  exact h

theorem reads_application_of_lambda (h : (lambda us).Reads t (ofMark m :: rest))
    (hm : startsArgument (ofMark m) = false) : (application us).Reads t (ofMark m :: rest) := by
  rw [application]
  exact h.stop fun _ => by simp [hm]

theorem reads_expression_of_application (h : (application us).Reads t (ofMark m :: rest))
    (hm : endsExpression m) : (expression us).Reads t (ofMark m :: rest) := by
  simp only [endsExpression, Bool.and_eq_true, Option.isNone_iff_eq_none] at hm
  rw [expression]
  exact h.stop fun _ => by simp [hm.2]

theorem reads_expression_of_lambda (h : (lambda us).Reads t (ofMark m :: rest))
    (hm : endsExpression m) : (expression us).Reads t (ofMark m :: rest) := by
  have harg : startsArgument (ofMark m) = false := by
    simp only [endsExpression, Bool.and_eq_true, Bool.not_eq_true'] at hm
    exact hm.1
  exact reads_expression_of_application (reads_application_of_lambda h harg) hm

theorem reads_expression_of_value (h : (value us).Reads t (ofMark m :: rest))
    (hm : endsExpression m) : (expression us).Reads t (ofMark m :: rest) :=
  reads_expression_of_lambda (reads_lambda_of_value h) hm

theorem nextIs_of_expression (h : (expression us).Reads t rest)
    (hm : m ∉ [.backslash, .trueWord, .falseWord, .leftSquare, .leftRound, .leftCurly]) :
    nextIs m us = false := by
  have hslash := List.ne_of_not_mem_cons hm
  have hvalue := List.not_mem_of_not_mem_cons hm
  rw [expression] at h
  obtain ⟨_, _, h⟩ := h.exists_of_extend
  rw [application] at h
  obtain ⟨_, _, h⟩ := h.exists_of_extend
  rw [lambda] at h
  split at h
  · next hnext => exact nextIs_eq_false hnext hslash
  · exact nextIs_of_value h hvalue

/-- A closing mark does not begin an item. -/
theorem nextIs_closing_of_item (l : Listing) (h : (item l us).Reads t rest) :
    nextIs l.closing us = false := by
  have hclosing : l.closing ≠ .letWord ∧
      l.closing ∉ [.backslash, .trueWord, .falseWord, .leftSquare, .leftRound, .leftCurly] := by
    cases l <;> decide
  have hexpression : (expression us).Reads t rest → nextIs l.closing us = false :=
    fun h => nextIs_of_expression h hclosing.2
  cases l with
  | array | tuple => exact hexpression (by simpa only [item] using h)
  | block =>
    rw [item, statement] at h
    split at h
    · next hempty => rw [List.isEmpty_iff.1 hempty]; rfl
    split at h
    · next hnext => exact nextIs_eq_false hnext hclosing.1
    · exact hexpression h

/-- The tokens are read as the item wherever an item can end. -/
def WritesItem (l : Listing) (xs : List (Token String)) (t : Tree String) : Prop :=
  ∀ m rest, endsExpression m → (item l (xs ++ ofMark m :: rest)).Reads t (ofMark m :: rest)

theorem endsExpression_separator (l : Listing) : endsExpression l.separator := by
  cases l <;> rfl

theorem endsExpression_closing (l : Listing) : endsExpression l.closing := by
  cases l <;> rfl

/-- What follows an item is a separator or the closing mark. -/
theorem WritesItem.reads {l : Listing} (h : WritesItem l xs t)
    (more : List (List (Token String))) (rest : List (Token String)) :
    (item l (xs ++ (more.flatMap (ofMark l.separator :: ·) ++ ofMark l.closing :: rest))).Reads t
      (more.flatMap (ofMark l.separator :: ·) ++ ofMark l.closing :: rest) := by
  cases more with
  | nil => exact h _ _ (endsExpression_closing l)
  | cons => exact h _ _ (endsExpression_separator l)

section
variable {l : Listing} {write : Tree String → List (Token String)}

theorem reads_moreItems (h : ∀ t ∈ ts, WritesItem l (write t) t) (rest : List (Token String)) :
    (moreItems l
      ((ts.map write).flatMap (ofMark l.separator :: ·) ++ ofMark l.closing :: rest)).Reads
        ts rest := by
  induction ts with
  | nil =>
    rw [List.map_nil, List.flatMap_nil, List.nil_append, moreItems, if_pos (nextIs_self _ _)]
    exact (reads_expect _ _).map _
  | cons t ts ih =>
    obtain ⟨ht, hts⟩ := List.forall_mem_cons.1 h
    have hne : l.separator ≠ l.closing := by cases l <;> decide
    rw [List.map_cons, List.flatMap_cons, List.append_assoc, List.cons_append, moreItems,
      if_neg (by simp [hne])]
    refine (reads_expect _ _).andThen fun _ => (ht.reads _ rest).andThen fun _ => ?_
    exact (ih hts).map _

theorem reads_items (h : ∀ t ∈ ts, WritesItem l (write t) t) (rest : List (Token String)) :
    (items l (joined l.separator (ts.map write) ++ ofMark l.closing :: rest)).Reads ts rest := by
  cases ts with
  | nil =>
    rw [List.map_nil, joined, List.nil_append, items, if_pos (nextIs_self _ _)]
    exact (reads_expect _ _).map _
  | cons t ts =>
    obtain ⟨ht, hts⟩ := List.forall_mem_cons.1 h
    have hitem := ht.reads (ts.map write) rest
    have hopen := nextIs_closing_of_item l hitem
    rw [List.map_cons, joined, List.append_assoc, items, if_neg (by simp [hopen])]
    exact hitem.andThen fun _ => (reads_moreItems hts rest).map _

/-- A listing of items is a value. -/
theorem reads_value_listing (h : ∀ t ∈ ts, WritesItem l (write t) t)
    (rest : List (Token String)) :
    (value (l.tokens (ts.map write) ++ rest)).Reads (l.build ts) rest := by
  have hlisting : (listing l (l.tokens (ts.map write) ++ rest)).Reads (l.build ts) rest := by
    rw [Listing.tokens_append, listing]
    exact (reads_expect _ _).andThen fun _ => (reads_items h rest).map _
  rw [Listing.tokens_append] at hlisting ⊢
  cases l with
  | array | tuple | block =>
    unfold value
    exact hlisting

end

theorem build_tuple (h : ts.length ≠ 1) : Listing.tuple.build ts = .tuple ts := by
  match ts, h with
  | [], _ => rfl
  | _ :: _ :: _, _ => rfl

theorem build_block (h : ts.length ≠ 1) : Listing.block.build ts = .block ts := by
  match ts, h with
  | [], _ => rfl
  | _ :: _ :: _, _ => rfl

/-- What is written as an item of a tuple is a value in round brackets. -/
theorem reads_value_round (h : WritesItem .tuple xs t) (rest : List (Token String)) :
    (value (Listing.tuple.tokens [xs] ++ rest)).Reads t rest := by
  have hone : ∀ u ∈ [t], WritesItem .tuple ((fun _ => xs) u) u := List.forall_mem_singleton.2 h
  exact reads_value_listing hone rest

theorem writesItem_of_expression {l : Listing} (hl : l ≠ .block)
    (h : ∀ m rest, endsExpression m →
      (expression (xs ++ ofMark m :: rest)).Reads t (ofMark m :: rest)) : WritesItem l xs t := by
  intro m rest hm
  rw [item]
  · exact h m rest hm
  · exact hl

theorem writesItem_of_value (h : ∀ rest, (value (xs ++ rest)).Reads t rest) (l : Listing) :
    WritesItem l xs t := by
  have hexpression : ∀ m rest, endsExpression m →
      (expression (xs ++ ofMark m :: rest)).Reads t (ofMark m :: rest) :=
    fun m rest hm => reads_expression_of_value (h _) hm
  cases l with
  | array | tuple => exact writesItem_of_expression (by decide) hexpression
  | block =>
    intro m rest hm
    have hlet := nextIs_of_value (h (ofMark m :: rest)) (m := .letWord) (by decide)
    rw [item, statement, if_neg (by simp), if_neg (by simp [hlet])]
    exact hexpression m rest hm

/-- The tree is read from its tokens. -/
structure Readable (t : Tree String) : Prop where
  asValue : ∀ rest, (value (t.tokens ++ rest)).Reads t rest
  asStatement : WritesItem .block t.statementTokens t

theorem Readable.of_value (h : ∀ rest, (value (t.tokens ++ rest)).Reads t rest)
    (heq : t.statementTokens = t.tokens) : Readable t := by
  refine ⟨h, ?_⟩
  rw [heq]
  exact writesItem_of_value h .block

theorem Readable.item (h : Readable t) (l : Listing) : WritesItem l t.tokens t :=
  writesItem_of_value h.asValue l

theorem writesItem_lambda {ps : List (Tree String)} {b : Tree String}
    (hps : ∀ p ∈ ps, p.IsParameter) (hb : Readable b) :
    WritesItem .tuple (ofMark .backslash :: Listing.tuple.tokens (ps.map Tree.nameTokens) ++
      ofMark .fatRightArrow :: b.tokens) (.lambda ps b) := by
  refine writesItem_of_expression (by decide) fun m rest hm => ?_
  refine reads_expression_of_lambda ?_ hm
  have hbody := reads_expression_of_value (hb.asValue (ofMark m :: rest)) hm
  rw [List.cons_append, List.cons_append, List.append_assoc, List.cons_append, lambda,
    if_pos (nextIs_self _ _)]
  refine (reads_expect _ _).andThen fun _ => (reads_parameters hps _).andThen fun _ => ?_
  exact (reads_expect _ _).andThen fun _ => hbody.map _

theorem writesItem_apply {f a : Tree String} (ha : a.IsParsed) (hf : Readable f)
    (har : Readable a) : WritesItem .tuple (f.tokens ++ a.tokens) (.apply f a) := by
  refine writesItem_of_expression (by decide) fun m rest hm => ?_
  refine reads_expression_of_application ?_ hm
  obtain ⟨u, us, hu, hstarts⟩ := Tree.exists_tokens_eq_cons ha
  rw [List.append_assoc, application]
  refine (reads_lambda_of_value (hf.asValue _)).extend fun _ =>
    ⟨(lambda (a.tokens ++ ofMark m :: rest)).map (.apply f), ?_, ?_⟩
  · simp [hu, hstarts]
  · exact (reads_lambda_of_value (har.asValue _)).map _

theorem writesItem_binary {l r : Tree String} (op : Operator) (hl : Readable l)
    (hr : Readable r) :
    WritesItem .tuple (l.tokens ++ ofMark op.mark :: r.tokens) (.binary l r op) := by
  refine writesItem_of_expression (by decide) fun m rest hm => ?_
  have hop : operator? (ofMark op.mark) = some op := by cases op <;> rfl
  have harg : startsArgument (ofMark op.mark) = false := by cases op <;> rfl
  have hright := reads_expression_of_value (hr.asValue (ofMark m :: rest)) hm
  rw [List.append_assoc, List.cons_append, expression]
  refine (reads_application_of_lambda (reads_lambda_of_value (hl.asValue _)) harg).extend fun _ =>
    ⟨((expression (r.tokens ++ ofMark m :: rest)).map fun r => .binary l r op).widen (by simp), ?_,
      ?_⟩
  · simp only [hop]
  · exact (hright.map _).widen _

theorem writesItem_bind {i ty v : Tree String} (hi : i.IsParameter) (hty : ty.IsTypeExpression)
    (hv : Readable v) :
    WritesItem .block (Tree.bindingTokens i ty v.tokens) (.bind i ty v) := by
  obtain ⟨n, rfl, -⟩ := hi
  intro m rest hm
  have hvalue := reads_expression_of_value (hv.asValue (ofMark m :: rest)) hm
  simp only [Tree.bindingTokens, List.cons_append, Tree.nameTokens, List.nil_append]
  rw [List.append_assoc, List.cons_append, item, statement, if_neg (by simp),
    if_pos (nextIs_self _ _), binding]
  refine (reads_expect _ _).andThen fun _ => (reads_name n _).andThen fun _ => ?_
  refine (reads_expect _ _).andThen fun _ => (reads_type hty rfl rfl).andThen fun _ => ?_
  exact (reads_expect _ _).andThen fun _ => hvalue.map _

/-- Trees of the parsed shape are read from their tokens. -/
theorem readable_of_isParsed (h : t.IsParsed) : Readable t := by
  induction h with
  | identifier => exact .of_value (fun _ => ⟨_, by unfold value; rfl⟩) rfl
  | text => exact .of_value (fun _ => ⟨_, by unfold value; rfl⟩) rfl
  | number => exact .of_value (fun _ => ⟨_, by unfold value; rfl⟩) rfl
  | boolean b => cases b <;> exact .of_value (fun _ => ⟨_, by unfold value; rfl⟩) rfl
  | array _ ih =>
    refine .of_value (fun rest => ?_) rfl
    rw [Tree.tokens, Tree.tokensAll_eq_map]
    exact reads_value_listing (fun t ht => (ih t ht).item .array) rest
  | tuple hlen _ ih =>
    refine .of_value (fun rest => ?_) rfl
    rw [Tree.tokens, Tree.tokensAll_eq_map, ← build_tuple hlen]
    exact reads_value_listing (fun t ht => (ih t ht).item .tuple) rest
  | block hlen _ ih =>
    -- in round brackets, because a brace does not start an argument
    refine .of_value (reads_value_round (writesItem_of_value (fun rest => ?_) .tuple)) rfl
    rw [Tree.statementTokensAll_eq_map, ← build_block hlen]
    exact reads_value_listing (fun t ht => (ih t ht).asStatement) rest
  | lambda hps _ ih => exact .of_value (reads_value_round (writesItem_lambda hps ih)) rfl
  | apply _ ha ihf iha => exact .of_value (reads_value_round (writesItem_apply ha ihf iha)) rfl
  | binary op _ _ ihl ihr => exact .of_value (reads_value_round (writesItem_binary op ihl ihr)) rfl
  | bind hi ht _ ih =>
    have hbind := writesItem_bind hi ht ih
    have hone : ∀ u ∈ [Tree.bind _ _ _],
        WritesItem .block ((fun _ => Tree.bindingTokens _ _ _) u) u :=
      List.forall_mem_singleton.2 hbind
    refine ⟨reads_value_round (writesItem_of_value (fun rest => ?_) .tuple), hbind⟩
    exact reads_value_listing hone rest

theorem statements_of_readable (h : ∀ t ∈ ts, Readable t) :
    statements (fileTokens ts) = .ok ts := by
  induction ts with
  | nil => simp [fileTokens, statements]
  | cons t ts ih =>
    obtain ⟨ht, hts⟩ := List.forall_mem_cons.1 h
    have hstatement := ht.asStatement .semicolon (fileTokens ts) rfl
    have htokens : fileTokens (t :: ts) =
        t.statementTokens ++ ofMark .semicolon :: fileTokens ts := by simp [fileTokens]
    rw [item] at hstatement
    rw [htokens, statements, if_neg (by simp)]
    have hone : ((statement _).andThen fun t us _ =>
        (expect .semicolon us).map fun _ => t).Reads t _ :=
      hstatement.andThen fun _ => (reads_expect _ _).map _
    obtain ⟨_, hread⟩ := hone
    simp only [hread, ih hts]

end Grammar

/-- The numbers of a file, the lengths of array types among them, are short enough to be read. -/
def HasShortNumbers (ts : List (Tree String)) : Prop :=
  ∀ n, .number n ∈ (Tree.file ts).leaves → n < 10 ^ longestNumeral

variable {ts : List (Tree String)}

theorem parse_fileTokens (h : ∀ t ∈ ts, t.IsParsed) : parse (fileTokens ts) = .ok ts :=
  parse_eq_ok_iff.2 (statements_of_readable fun t ht => readable_of_isParsed (h t ht))

/-- The numbers among the tokens of a file are those of its trees. -/
theorem isShort_fileTokens (h : ∀ t ∈ ts, t.IsParsed) (hshort : HasShortNumbers ts) :
    ∀ u ∈ fileTokens ts, u.IsShort := by
  rintro _ hu n rfl
  have hleaf : .number n ∈ (Tree.file ts).leaves := by
    rw [(leaves_of_parse (parse_fileTokens h)).2]
    exact List.mem_filterMap.2 ⟨_, hu, rfl⟩
  have hnonneg : 0 ≤ n := written_fileTokens h _ hu
  have hlt := hshort n hleaf
  rw [← Int.natAbs_of_nonneg hnonneg] at hlt
  exact Scan.isWritable_iff.2 (by exact_mod_cast hlt)

/-- A printed file is parsed to what was printed. -/
theorem parseSource_printStatements (h : ∀ t ∈ ts, t.IsParsed) (hshort : HasShortNumbers ts) :
    parseSource (printStatements ts) = .ok ts :=
  parseSource_eq_ok_iff.2
    ⟨_, tokenize_writeAll (written_fileTokens h) (isShort_fileTokens h hshort), parse_fileTokens h⟩

theorem hasShortNumbers_of_parseSource {source : String} (h : parseSource source = .ok ts) :
    HasShortNumbers ts := by
  obtain ⟨us, hus, hparse⟩ := parseSource_eq_ok_iff.1 h
  intro n hleaf
  rw [(leaves_of_parse hparse).2] at hleaf
  obtain ⟨u, hu, hleaf⟩ := List.mem_filterMap.1 hleaf
  obtain rfl := leaf?_eq_number_iff.1 hleaf
  have hlt := Scan.isWritable_iff.1 (isShort_of_tokenize hus _ hu n rfl)
  exact Int.le_natAbs.trans_lt (by exact_mod_cast hlt)

/-- The least number with too many digits has the shape of parsed trees, but no text writes it. -/
theorem unread_number_has_no_source :
    Tree.IsParsed (.number (10 ^ longestNumeral)) ∧
      ∀ source, parseSource source ≠ .ok [.number (10 ^ longestNumeral)] := by
  refine ⟨.number (by positivity), fun source h => ?_⟩
  exact absurd (hasShortNumbers_of_parseSource h _ (by simp [Tree.leaves])) (lt_irrefl _)

/-- The trees that source texts write are those of the parsed shape with numbers that are short
enough to be read, and each file of them is written by its print. -/
theorem exists_source_iff (ts : List (Tree String)) :
    ((∃ source, parseSource source = .ok ts) ↔ (∀ t ∈ ts, t.IsParsed) ∧ HasShortNumbers ts) ∧
      ((∀ t ∈ ts, t.IsParsed) → HasShortNumbers ts →
        parseSource (printStatements ts) = .ok ts) := by
  refine ⟨⟨?_, fun h => ⟨_, parseSource_printStatements h.1 h.2⟩⟩, parseSource_printStatements⟩
  rintro ⟨source, h⟩
  exact ⟨isParsed_of_parseSource h, hasShortNumbers_of_parseSource h⟩

/-- An array type that begins a function type is printed in brackets, and so is a block that is an
argument. -/
theorem bracketed_array_type_reparsed :
    parseSource "let f : ( [ t ; 3 ] ) -> ( t ) | ( ) = ( g ( { } ) ) ; " =
      .ok [.bind (.identifier "f") (.sumType [.functionType (.arrayType (.typeName "t") 3)
        (.typeName "t"), .productType []]) (.apply (.identifier "g") (.block []))] := by
  let file : List (Tree String) :=
    [.bind (.identifier "f") (.sumType [.functionType (.arrayType (.typeName "t") 3)
      (.typeName "t"), .productType []]) (.apply (.identifier "g") (.block []))]
  have hprint : printStatements file =
      "let f : ( [ t ; 3 ] ) -> ( t ) | ( ) = ( g ( { } ) ) ; " := by decide +kernel
  have hname : ∀ n ∈ ["f", "g", "t"], IsName n := by
    simp only [List.forall_mem_cons]
    refine ⟨⟨⟨'f', [], rfl, by decide, by simp⟩, rfl⟩, ⟨⟨'g', [], rfl, by decide, by simp⟩, rfl⟩,
      ⟨⟨'t', [], rfl, by decide, by simp⟩, rfl⟩, by simp⟩
  have ht : Tree.IsTypeAtom (.typeName "t") := .name (hname "t" (by simp))
  have harray : Tree.IsTypeAtom (.arrayType (.typeName "t") 3) :=
    .array (hname "t" (by simp)) (by decide)
  have htype : Tree.IsTypeExpression (.sumType [.functionType (.arrayType (.typeName "t") 3)
      (.typeName "t"), .productType []]) := by
    refine .sum (by simp) ?_
    simp only [List.forall_mem_cons]
    exact ⟨.function (.atom harray) (.link (.atom ht)), .link (.product (by simp) (by simp)),
      by simp⟩
  have hvalue : Tree.IsParsed (.apply (.identifier "g") (.block [])) :=
    .apply (.identifier (hname "g" (by simp))) (.block (by simp) (by simp))
  have hfile : ∀ t ∈ file, t.IsParsed :=
    List.forall_mem_singleton.2 (.bind ⟨"f", rfl, hname "f" (by simp)⟩ htype hvalue)
  have hshort : HasShortNumbers file := by
    intro n hn
    obtain rfl : n = 3 := by simpa [file, Tree.leaves, Tree.leavesAll] using hn
    calc
      (3 : Int) < 10 ^ 1 := by decide
      _ ≤ 10 ^ longestNumeral := pow_le_pow_right₀ (by decide) (by decide)
  rw [← hprint]
  exact (exists_source_iff file).2 hfile hshort

end LetLang
