import LetLang.Proofs.Grammar.ReadTypes
import LetLang.Proofs.Token.Joining
import Mathlib

/-!
# Tokens that follow

No rule of the grammar looks further than at the first token that it leaves. So a rule that leaves a
token reads the same whatever follows, and statements, of which each ends with a semicolon, are read
in the same way whatever follows them.
-/

namespace LetLang

open Grammar

namespace Reading

variable {α β : Type} {ts us vs : List (Token String)} {a : α}

/-- What `r` reads are the first tokens of `ts`, and `r'`, which has `us` behind them, reads the
same, provided that `r` leaves a token which shows where it ends. -/
def Keeps (r : Reading α ts) (r' : Reading α (ts ++ us)) : Prop :=
  ∀ a rest, r.Reads a rest → rest <:+ ts ∧ (rest ≠ [] → r'.Reads a (rest ++ us))

theorem Reads.ne_nil {rest : List (Token String)} {r : Reading α ts} (h : r.Reads a rest) :
    ts ≠ [] := by
  obtain ⟨hlt, -⟩ := h
  rintro rfl
  simp at hlt

theorem keeps_of_ne_nil {r : Reading α ts} {r' : Reading α (ts ++ us)}
    (h : ts ≠ [] → r.Keeps r') : r.Keeps r' :=
  fun a rest hread => h hread.ne_nil a rest hread

theorem keeps_error {e : ParseError String} {hle : vs.length ≤ ts.length}
    (r' : Reading α (ts ++ us)) : (error e vs hle : Reading α ts).Keeps r' := by
  rintro a rest ⟨_, h⟩
  cases h

theorem keeps_ok {h : vs.length < ts.length} {h' : (vs ++ us).length < (ts ++ us).length}
    (hvs : vs <:+ ts) : (ok a vs h : Reading α ts).Keeps (ok a (vs ++ us) h') := by
  rintro _ _ ⟨_, ⟨⟩⟩
  exact ⟨hvs, fun _ => ⟨h', rfl⟩⟩

theorem Keeps.map {r : Reading α ts} {r' : Reading α (ts ++ us)} (h : r.Keeps r') (f : α → β) :
    (r.map f).Keeps (r'.map f) := by
  cases r with
  | error => exact keeps_error _
  | ok a rest hlt =>
    rintro _ _ ⟨_, ⟨⟩⟩
    obtain ⟨hsuffix, hread⟩ := h a rest ⟨hlt, rfl⟩
    exact ⟨hsuffix, fun hne => (hread hne).map f⟩

theorem Reads.of_widen {rest : List (Token String)} {r : Reading α vs}
    {hle : vs.length ≤ ts.length} (h : (r.widen hle).Reads a rest) : r.Reads a rest := by
  obtain ⟨_, h⟩ := h
  cases r with
  | error => cases h
  | ok b us hlt =>
    cases h
    exact ⟨hlt, rfl⟩

theorem Keeps.widen {r : Reading α vs} {r' : Reading α (vs ++ us)} (h : r.Keeps r')
    (hvs : vs <:+ ts) (hle : vs.length ≤ ts.length) (hle' : (vs ++ us).length ≤ (ts ++ us).length) :
    (r.widen hle).Keeps (r'.widen hle') := by
  intro a rest hread
  obtain ⟨hsuffix, hread'⟩ := h a rest hread.of_widen
  exact ⟨hsuffix.trans hvs, fun hne => (hread' hne).widen hle'⟩

theorem Keeps.andThen {r : Reading α ts} {r' : Reading α (ts ++ us)}
    {next : α → (vs : List (Token String)) → vs.length < ts.length → Reading β vs}
    {next' : α → (vs : List (Token String)) → vs.length < (ts ++ us).length → Reading β vs}
    (h : r.Keeps r')
    (hnext : ∀ a vs hlt hlt', (next a vs hlt).Keeps (next' a (vs ++ us) hlt')) :
    (r.andThen next).Keeps (r'.andThen next') := by
  cases r with
  | error => exact keeps_error _
  | ok a vs hlt =>
    obtain ⟨hsuffix, hread⟩ := h a vs ⟨hlt, rfl⟩
    intro b rest hb
    -- Something was read from `vs`, so its first token has shown where `r` ends.
    have hb' : ((next a vs hlt).widen (Nat.le_of_lt hlt)).Reads b rest := hb
    obtain ⟨hlt', rfl⟩ := hread hb'.of_widen.ne_nil
    exact (hnext a vs hlt hlt').widen hsuffix _ (Nat.le_of_lt hlt') b rest hb'

theorem Keeps.extend {r : Reading α ts} {r' : Reading α (ts ++ us)}
    {next : α → (vs : List (Token String)) → vs.length < ts.length → Option (Reading α vs)}
    {next' : α → (vs : List (Token String)) → vs.length < (ts ++ us).length → Option (Reading α vs)}
    (h : r.Keeps r')
    (hnext : ∀ a vs hlt hlt', vs ≠ [] →
      Option.Rel Keeps (next a vs hlt) (next' a (vs ++ us) hlt')) :
    (r.extend next).Keeps (r'.extend next') := by
  cases r with
  | error => exact keeps_error _
  | ok a vs hlt =>
    obtain ⟨hsuffix, hread⟩ := h a vs ⟨hlt, rfl⟩
    by_cases hvs : vs = []
    · subst hvs
      unfold Reading.extend
      dsimp only
      split
      · exact fun b rest hb => absurd rfl hb.of_widen.ne_nil
      · rintro _ _ ⟨_, ⟨⟩⟩
        exact ⟨hsuffix, fun hne => absurd rfl hne⟩
    · obtain ⟨hlt', rfl⟩ := hread hvs
      have hrel := hnext a vs hlt hlt' hvs
      unfold Reading.extend
      dsimp only
      generalize next a vs hlt = q at hrel ⊢
      generalize next' a (vs ++ us) hlt' = q' at hrel ⊢
      cases hrel with
      | none => exact keeps_ok hsuffix
      | some hkeeps => exact hkeeps.widen hsuffix _ _

end Reading

namespace Grammar

open Reading

variable {α : Type} {m : Mark} {ts us : List (Token String)}

theorem nextIs_append (h : ts ≠ []) : nextIs m (ts ++ us) = nextIs m ts := by
  cases ts with
  | nil => exact absurd rfl h
  | cons => rfl

theorem keeps_ite {r s : Reading α ts} {r' s' : Reading α (ts ++ us)}
    (hpos : r.Keeps r') (hneg : s.Keeps s') :
    (if nextIs m ts then r else s).Keeps (if nextIs m (ts ++ us) then r' else s') := by
  refine keeps_of_ne_nil fun hne => ?_
  rw [nextIs_append hne]
  split
  · exact hpos
  · exact hneg

/-- A rule that reads on at a mark. -/
theorem rel_ite (h : ts ≠ []) {r : Reading α ts} {r' : Reading α (ts ++ us)} (hkeeps : r.Keeps r') :
    Option.Rel Keeps (if nextIs m ts then some r else none)
      (if nextIs m (ts ++ us) then some r' else none) := by
  rw [nextIs_append h]
  split
  · exact .some hkeeps
  · exact .none

theorem keeps_expect (m : Mark) (ts us : List (Token String)) :
    (expect m ts).Keeps (expect m (ts ++ us)) := by
  cases ts with
  | nil => exact keeps_error _
  | cons t ts =>
    unfold expect
    dsimp only [List.cons_append]
    split
    · exact keeps_ok (List.suffix_cons t ts)
    · exact keeps_error _

theorem keeps_name (ts us : List (Token String)) : (name ts).Keeps (name (ts ++ us)) := by
  cases ts with
  | nil => exact keeps_error _
  | cons t ts =>
    cases t with
    | identifier n => exact keeps_ok (List.suffix_cons _ ts)
    | _ => exact keeps_error _

theorem keeps_arrayLength (ts us : List (Token String)) :
    (arrayLength ts).Keeps (arrayLength (ts ++ us)) := by
  cases ts with
  | nil => exact keeps_error _
  | cons t ts =>
    cases t with
    | number n => exact keeps_ok (List.suffix_cons _ ts)
    | _ => exact keeps_error _

theorem keeps_arrayType (ts us : List (Token String)) :
    (arrayType ts).Keeps (arrayType (ts ++ us)) := by
  refine (keeps_expect _ _ _).andThen fun _ vs _ _ => ?_
  refine (keeps_name vs us).andThen fun element vs _ _ => ?_
  refine (keeps_expect _ vs us).andThen fun _ vs _ _ => ?_
  refine (keeps_arrayLength vs us).andThen fun length vs _ _ => ?_
  exact (keeps_expect _ vs us).map _

theorem keeps_typeAtom (ts us : List (Token String)) :
    (typeAtom ts).Keeps (typeAtom (ts ++ us)) :=
  keeps_ite (keeps_arrayType ts us) ((keeps_name ts us).map _)

theorem keeps_moreTypeAtoms (ts us : List (Token String)) :
    (moreTypeAtoms ts).Keeps (moreTypeAtoms (ts ++ us)) := by
  unfold moreTypeAtoms
  refine keeps_ite ((keeps_expect _ ts us).map _) ?_
  refine (keeps_expect _ ts us).andThen fun _ vs _ _ => ?_
  refine (keeps_typeAtom vs us).andThen fun t ws _ _ => ?_
  exact (keeps_moreTypeAtoms ws us).map _
termination_by ts.length

theorem keeps_productType (ts us : List (Token String)) :
    (productType ts).Keeps (productType (ts ++ us)) := by
  refine keeps_ite ?_ (keeps_typeAtom ts us)
  refine (keeps_expect _ ts us).andThen fun _ vs _ _ => ?_
  refine keeps_ite ((keeps_expect _ vs us).map _) ?_
  refine (keeps_typeAtom vs us).andThen fun t ws _ _ => ?_
  exact (keeps_moreTypeAtoms ws us).map _

theorem keeps_functionType (ts us : List (Token String)) :
    (functionType ts).Keeps (functionType (ts ++ us)) := by
  unfold functionType
  refine (keeps_productType ts us).extend fun source vs _ _ hne => rel_ite hne ?_
  refine (keeps_expect _ vs us).andThen fun _ ws _ _ => ?_
  exact (keeps_functionType ws us).map _
termination_by ts.length

theorem keeps_typeOptions (ts us : List (Token String)) :
    (typeOptions ts).Keeps (typeOptions (ts ++ us)) := by
  unfold typeOptions
  refine ((keeps_functionType ts us).map _).extend fun first vs _ _ hne => rel_ite hne ?_
  refine (keeps_expect _ vs us).andThen fun _ ws _ _ => ?_
  exact (keeps_typeOptions ws us).map _
termination_by ts.length

theorem keeps_type (ts us : List (Token String)) : (type ts).Keeps (type (ts ++ us)) :=
  keeps_ite (keeps_arrayType ts us) ((keeps_typeOptions ts us).map _)

theorem keeps_names (ts us : List (Token String)) : (names ts).Keeps (names (ts ++ us)) := by
  unfold names
  refine ((keeps_name ts us).map _).extend fun first vs _ _ hne => rel_ite hne ?_
  refine (keeps_expect _ vs us).andThen fun _ ws _ _ => ?_
  exact (keeps_names ws us).map _
termination_by ts.length

theorem keeps_parameters (ts us : List (Token String)) :
    (parameters ts).Keeps (parameters (ts ++ us)) := by
  refine keeps_ite ?_ ((keeps_name ts us).map _)
  refine (keeps_expect _ ts us).andThen fun _ vs _ _ => ?_
  refine keeps_ite ((keeps_expect _ vs us).map _) ?_
  refine (keeps_names vs us).andThen fun ns ws _ _ => ?_
  exact (keeps_expect _ ws us).map _

-- The recursion is that of the rules themselves: fewer tokens, or as many and a lower rank.
mutual

theorem keeps_expression (ts us : List (Token String)) :
    (expression ts).Keeps (expression (ts ++ us)) := by
  unfold expression
  refine (keeps_application ts us).extend fun left vs hvs _ hne => ?_
  cases vs with
  | nil => exact absurd rfl hne
  | cons t vs =>
    have hlt : vs.length < ts.length := Nat.lt_trans (by simp) hvs
    dsimp only [List.cons_append]
    cases operator? t with
    | none => exact .none
    | some op =>
      exact .some (((keeps_expression vs us).map _).widen (List.suffix_cons t vs) _ _)
termination_by (ts.length, 4)

theorem keeps_application (ts us : List (Token String)) :
    (application ts).Keeps (application (ts ++ us)) := by
  unfold application
  refine (keeps_lambda ts us).extend fun f vs _ _ hne => ?_
  cases vs with
  | nil => exact absurd rfl hne
  | cons t vs =>
    dsimp only [List.cons_append, List.head?_cons]
    split
    · exact .some ((keeps_lambda (t :: vs) us).map _)
    · exact .none
termination_by (ts.length, 3)

theorem keeps_lambda (ts us : List (Token String)) : (lambda ts).Keeps (lambda (ts ++ us)) := by
  unfold lambda
  refine keeps_ite ?_ (keeps_value ts us)
  refine (keeps_expect _ ts us).andThen fun _ vs _ _ => ?_
  refine (keeps_parameters vs us).andThen fun ps ws _ _ => ?_
  refine (keeps_expect _ ws us).andThen fun _ xs _ _ => ?_
  exact (keeps_expression xs us).map _
termination_by (ts.length, 2)

theorem keeps_value (ts us : List (Token String)) : (value ts).Keeps (value (ts ++ us)) := by
  unfold value
  match ts with
  | [] => exact keeps_error _
  | .identifier n :: ts => exact keeps_ok (List.suffix_cons _ ts)
  | .quoted s :: ts => exact keeps_ok (List.suffix_cons _ ts)
  | .number n :: ts => exact keeps_ok (List.suffix_cons _ ts)
  | .error s :: ts => exact keeps_error _
  | .mark m note :: ts =>
    dsimp only [List.cons_append]
    split
    · exact keeps_ok (List.suffix_cons _ ts)
    split
    · exact keeps_ok (List.suffix_cons _ ts)
    split
    · exact keeps_listing .array (.mark m note :: ts) us
    split
    · exact keeps_listing .tuple (.mark m note :: ts) us
    split
    · exact keeps_listing .block (.mark m note :: ts) us
    · exact keeps_error _
termination_by (ts.length, 1)

theorem keeps_listing (l : Listing) (ts us : List (Token String)) :
    (listing l ts).Keeps (listing l (ts ++ us)) := by
  unfold listing
  refine (keeps_expect _ ts us).andThen fun _ vs _ _ => ?_
  exact (keeps_items l vs us).map _
termination_by (ts.length, 0)

theorem keeps_items (l : Listing) (ts us : List (Token String)) :
    (items l ts).Keeps (items l (ts ++ us)) := by
  unfold items
  refine keeps_ite ((keeps_expect _ ts us).map _) ?_
  refine (keeps_item l ts us).andThen fun t vs _ _ => ?_
  exact (keeps_moreItems l vs us).map _
termination_by (ts.length, 7)

theorem keeps_moreItems (l : Listing) (ts us : List (Token String)) :
    (moreItems l ts).Keeps (moreItems l (ts ++ us)) := by
  unfold moreItems
  refine keeps_ite ((keeps_expect _ ts us).map _) ?_
  refine (keeps_expect _ ts us).andThen fun _ vs _ _ => ?_
  refine (keeps_item l vs us).andThen fun t ws _ _ => ?_
  exact (keeps_moreItems l ws us).map _
termination_by (ts.length, 0)

theorem keeps_item (l : Listing) (ts us : List (Token String)) :
    (item l ts).Keeps (item l (ts ++ us)) := by
  unfold item
  cases l with
  | block => exact keeps_statement ts us
  | array => exact keeps_expression ts us
  | tuple => exact keeps_expression ts us
termination_by (ts.length, 6)

theorem keeps_statement (ts us : List (Token String)) :
    (statement ts).Keeps (statement (ts ++ us)) := by
  refine keeps_of_ne_nil fun hne => ?_
  have hempty : ¬ ts.isEmpty = true := by simpa using hne
  have hempty' : ¬ (ts ++ us).isEmpty = true := by simp [hne]
  unfold statement
  rw [if_neg hempty, if_neg hempty']
  exact keeps_ite (keeps_binding ts us) (keeps_expression ts us)
termination_by (ts.length, 5)

theorem keeps_binding (ts us : List (Token String)) :
    (binding ts).Keeps (binding (ts ++ us)) := by
  unfold binding
  refine (keeps_expect _ ts us).andThen fun _ vs _ _ => ?_
  refine (keeps_name vs us).andThen fun n vs _ _ => ?_
  refine (keeps_expect _ vs us).andThen fun _ vs _ _ => ?_
  refine (keeps_type vs us).andThen fun t vs _ _ => ?_
  refine (keeps_expect _ vs us).andThen fun _ vs _ _ => ?_
  exact (keeps_expression vs us).map _
termination_by (ts.length, 0)

end

variable {s : Token String} {tree : Tree String} {rest : List (Token String)}

theorem reads_expect_of_is (h : s.is m = true) (rest : List (Token String)) :
    (expect m (s :: rest)).Reads () rest :=
  ⟨by simp, by simp [expect, h]⟩

theorem exists_of_reads_expect (h : (expect m ts).Reads () rest) :
    ∃ s, s.is m = true ∧ ts = s :: rest := by
  obtain ⟨_, h⟩ := h
  cases ts with
  | nil => cases h
  | cons s ts =>
    by_cases hs : s.is m = true
    · simp only [expect, hs, if_true, Reading.ok.injEq, true_and] at h
      exact ⟨s, hs, by rw [h]⟩
    · simp [expect, hs] at h

/-- A statement and the semicolon behind it. -/
theorem reads_statement_iff :
    ((statement ts).andThen fun tree us _ => (expect .semicolon us).map fun _ => tree).Reads
        tree rest ↔
      ∃ s : Token String, s.is .semicolon = true ∧ (statement ts).Reads tree (s :: rest) := by
  constructor
  · rintro ⟨_, h⟩
    cases hstatement : statement ts with
    | error => simp [hstatement, Reading.andThen] at h
    | ok tree' us hlt =>
      rw [hstatement] at h
      have hwide : (((expect .semicolon us).map fun _ => tree').widen (Nat.le_of_lt hlt)).Reads
          tree rest := ⟨_, h⟩
      have hmark := hwide.of_widen
      cases hexpect : expect .semicolon us with
      | error =>
        rw [hexpect] at hmark
        obtain ⟨_, hmark⟩ := hmark
        cases hmark
      | ok u vs hlt' =>
        rw [hexpect] at hmark
        obtain ⟨_, hmark⟩ := hmark
        cases hmark
        obtain ⟨s, hs, rfl⟩ := exists_of_reads_expect ⟨hlt', hexpect⟩
        exact ⟨s, hs, hlt, rfl⟩
  · rintro ⟨s, hs, h⟩
    exact h.andThen fun _ => (reads_expect_of_is hs rest).map _

/-- The statements begin with one that has a semicolon behind it. -/
theorem statements_of_reads (hs : s.is .semicolon = true)
    (h : (statement ts).Reads tree (s :: rest)) :
    statements ts = (statements rest).map (tree :: ·) := by
  obtain ⟨_, hone⟩ := reads_statement_iff.2 ⟨s, hs, h⟩
  rw [statements, if_neg (by simpa using h.ne_nil), hone]
  cases hrest : statements rest <;> simp [hrest, Except.map]

theorem exists_of_statements (hne : ts ≠ []) (h : statements ts = .ok trees) :
    ∃ tree s rest more, s.is .semicolon = true ∧ (statement ts).Reads tree (s :: rest) ∧
      statements rest = .ok more ∧ trees = tree :: more := by
  rw [statements, if_neg (by simpa using hne)] at h
  split at h
  · cases h
  · next tree rest hlt heq =>
    obtain ⟨s, hs, hread⟩ := reads_statement_iff.1 ⟨hlt, heq⟩
    split at h
    · next more hmore => exact ⟨tree, s, rest, more, hs, hread, hmore, (Except.ok.inj h).symm⟩
    · cases h

/-- Statements are read in the same way whatever follows them. -/
theorem statements_append (ts us : List (Token String)) {trees : List (Tree String)}
    (h : statements ts = .ok trees) :
    statements (ts ++ us) = (statements us).map (trees ++ ·) := by
  by_cases hne : ts = []
  · subst hne
    obtain rfl : [] = trees := by simpa [statements] using h
    rw [List.nil_append]
    cases statements us <;> simp [Except.map]
  · obtain ⟨tree, s, rest, more, hs, hread, hmore, rfl⟩ := exists_of_statements hne h
    obtain ⟨hsuffix, hread'⟩ := keeps_statement ts us tree _ hread
    have hlt : rest.length < ts.length := hsuffix.length_le
    have hmark : (statement (ts ++ us)).Reads tree (s :: (rest ++ us)) := hread' (by simp)
    rw [statements_of_reads hs hmark, statements_append rest us hmore]
    cases statements us <;> simp [Except.map]
termination_by ts.length

/-- The last token of a file is a semicolon. -/
theorem is_semicolon_of_statements (ts : List (Token String)) {trees : List (Tree String)}
    (h : statements ts = .ok trees) {t : Token String} (ht : ts.getLast? = some t) :
    t.is .semicolon = true := by
  have hne : ts ≠ [] := by
    rintro rfl
    cases ht
  obtain ⟨tree, s, rest, more, hs, hread, hmore, rfl⟩ := exists_of_statements hne h
  obtain ⟨hsuffix, -⟩ := keeps_statement ts [] tree _ hread
  have hlt : rest.length < ts.length := hsuffix.length_le
  obtain ⟨before, hbefore⟩ := hsuffix
  rw [← hbefore, List.getLast?_append, List.getLast?_cons, Option.some_or, Option.some.injEq] at ht
  cases hlast : rest.getLast? with
  | none =>
    rw [hlast] at ht
    exact ht ▸ hs
  | some u =>
    rw [hlast] at ht
    exact ht ▸ is_semicolon_of_statements rest hmore hlast
termination_by ts.length

end Grammar

/-- What follows an accepted source is read as if it stood alone, with the same statements behind
those of the accepted source or with the same failure. -/
theorem parseSource_append {a : String} {ts : List (Tree String)} (h : parseSource a = .ok ts)
    (b : String) : parseSource (a ++ b) = (parseSource b).map (ts ++ ·) := by
  obtain ⟨us, ha, hparse⟩ := parseSource_eq_ok_iff.1 h
  have hstatements := parse_eq_ok_iff.1 hparse
  have hsemicolon : ∀ t, us.getLast? = some t → t.is .semicolon = true :=
    fun t ht => is_semicolon_of_statements _ hstatements ht
  unfold parseSource
  rw [tokenize_append ha hsemicolon b]
  cases tokenize b with
  | error e => rfl
  | ok vs =>
    simp only [Except.map, parse, statements_append _ _ hstatements]
    cases statements vs <;> rfl

/-- The opened bracket and the number that follow the accepted text do not join what came before. -/
theorem joined_texts_parsed :
    parseSource ("f 1;" ++ "2 + x;") =
        .ok [.apply (.identifier "f") (.number 1), .binary (.number 2) (.identifier "x") .plus] ∧
      parseSource ("f 1;" ++ "(2") = .error (.grammar (.expectedMark .comma none)) := by
  have hp : parseSource "f 1;" = .ok [.apply (.identifier "f") (.number 1)] := by cbv
  have hgood : parseSource "2 + x;" =
      .ok [.binary (.number 2) (.identifier "x") .plus] := by cbv
  have hbad : parseSource "(2" = .error (.grammar (.expectedMark .comma none)) := by cbv
  exact ⟨by rw [parseSource_append hp, hgood]; rfl, by rw [parseSource_append hp, hbad]; rfl⟩

end LetLang
