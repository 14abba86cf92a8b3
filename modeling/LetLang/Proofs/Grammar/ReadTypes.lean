import LetLang.Proofs.Grammar.Printer

/-!
# Reading printed types

Each rule of the grammar reads from the front of the tokens what was printed there and leaves what
follows. A type must not be followed by an arrow or a bar, with which it could go on.
-/

namespace LetLang

open Token Grammar

namespace Reading

variable {α β : Type} {ts us rest : List (Token String)} {a : α} {b : β}

/-- The rule reads `a` and leaves `rest`. -/
def Reads (r : Reading α ts) (a : α) (rest : List (Token String)) : Prop :=
  ∃ h, r = .ok a rest h

theorem Reads.map {r : Reading α ts} (h : r.Reads a rest) (f : α → β) :
    (r.map f).Reads (f a) rest := by
  obtain ⟨h, rfl⟩ := h
  exact ⟨h, rfl⟩

theorem Reads.widen {r : Reading α us} (h : r.Reads a rest) (hle : us.length ≤ ts.length) :
    (r.widen hle).Reads a rest := by
  obtain ⟨h, rfl⟩ := h
  exact ⟨_, rfl⟩

theorem Reads.andThen {r : Reading α ts}
    {next : α → (us : List (Token String)) → us.length < ts.length → Reading β us}
    (h : r.Reads a us) (hnext : ∀ hlt, (next a us hlt).Reads b rest) :
    (r.andThen next).Reads b rest := by
  obtain ⟨h, rfl⟩ := h
  exact (hnext h).widen (Nat.le_of_lt h)

theorem Reads.extend {b : α} {r : Reading α ts}
    {next : α → (us : List (Token String)) → us.length < ts.length → Option (Reading α us)}
    (h : r.Reads a us) (hnext : ∀ hlt, ∃ r', next a us hlt = some r' ∧ r'.Reads b rest) :
    (r.extend next).Reads b rest := by
  obtain ⟨h, rfl⟩ := h
  obtain ⟨r', hr', hreads⟩ := hnext h
  rw [Reading.extend, hr']
  exact hreads.widen (Nat.le_of_lt h)

theorem Reads.stop {r : Reading α ts}
    {next : α → (us : List (Token String)) → us.length < ts.length → Option (Reading α us)}
    (h : r.Reads a us) (hnext : ∀ hlt, next a us hlt = none) : (r.extend next).Reads a us := by
  obtain ⟨h, rfl⟩ := h
  rw [Reading.extend, hnext h]
  exact ⟨h, rfl⟩

theorem Reads.exists_of_extend {b : α} {r : Reading α ts}
    {next : α → (us : List (Token String)) → us.length < ts.length → Option (Reading α us)}
    (h : (r.extend next).Reads b rest) : ∃ a us, r.Reads a us := by
  cases r with
  | ok a us hlt => exact ⟨a, us, hlt, rfl⟩
  | error =>
    obtain ⟨_, h⟩ := h
    cases h

end Reading

open Reading

namespace Grammar

variable {t : Tree String} {ts os : List (Tree String)} {rest : List (Token String)} {m : Mark}

@[simp] theorem nextIs_ofMark (m m' : Mark) (rest : List (Token String)) :
    nextIs m (ofMark m' :: rest) = decide (m' = m) := rfl

theorem nextIs_self (m : Mark) (rest : List (Token String)) :
    nextIs m (ofMark m :: rest) = true := by simp

theorem Listing.tokens_append (l : Listing) (xs : List (List (Token String)))
    (rest : List (Token String)) : l.tokens xs ++ rest =
      ofMark l.opening :: (joined l.separator xs ++ ofMark l.closing :: rest) := by
  simp [Listing.tokens]

theorem nextIs_eq_false {m m' : Mark} {us : List (Token String)} (h : nextIs m' us = true)
    (hne : m ≠ m') : nextIs m us = false := by
  match us, h with
  | .mark k note :: us, h =>
    obtain rfl : k = m' := of_decide_eq_true h
    exact decide_eq_false hne.symm

theorem reads_expect (m : Mark) (rest : List (Token String)) :
    (expect m (ofMark m :: rest)).Reads () rest := by
  simp [expect, ofMark, Token.is, Reads]

theorem reads_name (n : String) (rest : List (Token String)) :
    (name (.identifier n :: rest)).Reads n rest := ⟨_, rfl⟩

theorem joined_cons_cons (m : Mark) (x y : List (Token String))
    (xs : List (List (Token String))) :
    joined m (x :: y :: xs) = x ++ ofMark m :: joined m (y :: xs) := by
  simp [joined]

theorem reads_arrayType (n : String) (k : Int) (rest : List (Token String)) :
    (arrayType ((Tree.arrayType (.typeName n) k).typeAtomTokens ++ rest)).Reads
      (.arrayType (.typeName n) k) rest := by
  refine (reads_expect _ _).andThen fun _ => (reads_name n _).andThen fun _ => ?_
  refine (reads_expect _ _).andThen fun _ => ?_
  have hlength : (arrayLength (.number k :: ofMark .rightSquare :: rest)).Reads k
      (ofMark .rightSquare :: rest) := ⟨_, rfl⟩
  exact hlength.andThen fun _ => (reads_expect _ _).map _

theorem reads_typeAtom (h : t.IsTypeAtom) (rest : List (Token String)) :
    (typeAtom (t.typeAtomTokens ++ rest)).Reads t rest := by
  cases h with
  | name => exact (reads_name _ _).map _
  | array => exact reads_arrayType _ _ _

theorem reads_moreTypeAtoms (h : ∀ t ∈ ts, t.IsTypeAtom) (rest : List (Token String)) :
    (moreTypeAtoms ((ts.map Tree.typeAtomTokens).flatMap (ofMark .comma :: ·) ++
      ofMark .rightRound :: rest)).Reads ts rest := by
  induction ts with
  | nil =>
    change (moreTypeAtoms (ofMark .rightRound :: rest)).Reads [] rest
    rw [moreTypeAtoms, if_pos (nextIs_self _ _)]
    exact (reads_expect _ _).map _
  | cons t ts ih =>
    obtain ⟨ht, hts⟩ := List.forall_mem_cons.1 h
    rw [List.map_cons, List.flatMap_cons, List.append_assoc, List.cons_append, moreTypeAtoms,
      if_neg (by simp)]
    refine (reads_expect _ _).andThen fun _ => (reads_typeAtom ht _).andThen fun _ => ?_
    exact (ih hts).map _

theorem productOf_eq {ts : List (Tree String)} (h : ts.length ≠ 1) :
    productOf ts = .productType ts := by
  match ts, h with
  | [], _ => rfl
  | _ :: _ :: _, _ => rfl

theorem nextIs_typeAtomTokens (h : t.IsTypeAtom) (us : List (Token String)) :
    nextIs .rightRound (t.typeAtomTokens ++ us) = false := by
  cases h <;> rfl

/-- Type atoms in round brackets. -/
theorem reads_productType_atoms (h : ∀ t ∈ ts, t.IsTypeAtom) (rest : List (Token String)) :
    (productType (Listing.tuple.tokens (ts.map Tree.typeAtomTokens) ++ rest)).Reads
      (productOf ts) rest := by
  rw [Listing.tokens_append]
  simp only [Listing.opening, Listing.closing, Listing.separator]
  rw [productType, if_pos (nextIs_self _ _)]
  refine (reads_expect _ _).andThen fun _ => ?_
  cases ts with
  | nil =>
    rw [List.map_nil, joined, List.nil_append, if_pos (nextIs_self _ _)]
    exact (reads_expect _ _).map _
  | cons t ts =>
    obtain ⟨ht, hts⟩ := List.forall_mem_cons.1 h
    rw [List.map_cons, joined, List.append_assoc, if_neg (by simp [nextIs_typeAtomTokens ht])]
    exact (reads_typeAtom ht _).andThen fun _ => (reads_moreTypeAtoms hts rest).map _

theorem reads_productType (h : t.IsTypeLink) (rest : List (Token String)) :
    (productType (t.typeLinkTokens ++ rest)).Reads t rest := by
  cases h with
  | atom ht =>
    rw [ht.typeLinkTokens]
    exact reads_productType_atoms (List.forall_mem_singleton.2 ht) rest
  | product hlen hts =>
    have hread := reads_productType_atoms hts rest
    rw [productOf_eq hlen] at hread
    exact hread

theorem reads_functionType (h : t.IsTypeOption) (hrest : nextIs .rightArrow rest = false) :
    (functionType (t.typeOptionTokens ++ rest)).Reads t rest := by
  induction h with
  | link ht =>
    rw [ht.typeOptionTokens, functionType]
    exact (reads_productType ht rest).stop fun _ => by simp [hrest]
  | function hs _ ih =>
    rw [Tree.typeOptionTokens, List.append_assoc, List.cons_append, functionType]
    refine (reads_productType hs _).extend fun _ => ⟨_, if_pos (nextIs_self _ _), ?_⟩
    exact (reads_expect _ _).andThen fun _ => ih.map _

theorem reads_typeOptions {o : Tree String} (ho : o.IsTypeOption) (hos : ∀ o ∈ os, o.IsTypeOption)
    (harrow : nextIs .rightArrow rest = false) (hpipe : nextIs .pipe rest = false) :
    (typeOptions (joined .pipe ((o :: os).map Tree.typeOptionTokens) ++ rest)).Reads (o :: os)
      rest := by
  induction os generalizing o with
  | nil =>
    rw [typeOptions, List.map_cons, List.map_nil, joined, List.flatMap_nil, List.append_nil]
    exact ((reads_functionType ho harrow).map _).stop fun _ => by simp [hpipe]
  | cons o' os ih =>
    obtain ⟨ho', hos⟩ := List.forall_mem_cons.1 hos
    rw [List.map_cons, List.map_cons, joined_cons_cons, List.append_assoc, List.cons_append,
      ← List.map_cons, typeOptions]
    refine ((reads_functionType ho rfl).map _).extend fun _ => ⟨_, if_pos (nextIs_self _ _), ?_⟩
    exact (reads_expect _ _).andThen fun _ => (ih ho' hos).map _

theorem sumOf_eq {ts : List (Tree String)} (h : 2 ≤ ts.length) : sumOf ts = .sumType ts := by
  match ts, h with
  | _ :: _ :: _, _ => rfl

theorem nextIs_typeOptionTokens {o : Tree String} (ho : o.IsTypeOption)
    (us : List (Token String)) : nextIs .leftSquare (o.typeOptionTokens ++ us) = false := by
  cases ho with
  | link ht =>
    rw [ht.typeOptionTokens]
    cases ht with
    | atom ht =>
      rw [ht.typeLinkTokens]
      rfl
    | product => rfl
  | function hs =>
    cases hs with
    | atom ht =>
      rw [Tree.typeOptionTokens, ht.typeLinkTokens]
      rfl
    | product => rfl

/-- Options with bars between them are read as their sum. -/
theorem reads_type_options {o : Tree String} (ho : o.IsTypeOption) (hos : ∀ o ∈ os, o.IsTypeOption)
    (harrow : nextIs .rightArrow rest = false) (hpipe : nextIs .pipe rest = false) :
    (type (joined .pipe ((o :: os).map Tree.typeOptionTokens) ++ rest)).Reads (sumOf (o :: os))
      rest := by
  have hsquare : nextIs .leftSquare (joined .pipe ((o :: os).map Tree.typeOptionTokens) ++ rest) =
      false := by
    rw [List.map_cons, joined, List.append_assoc, nextIs_typeOptionTokens ho]
  rw [type, if_neg (ne_true_of_eq_false hsquare)]
  exact (reads_typeOptions ho hos harrow hpipe).map _

theorem reads_type (h : t.IsTypeExpression) (harrow : nextIs .rightArrow rest = false)
    (hpipe : nextIs .pipe rest = false) : (type (t.typeTokens ++ rest)).Reads t rest := by
  cases h with
  | option ho =>
    have hone := reads_type_options ho (List.forall_mem_nil _) harrow hpipe
    rw [List.map_cons, List.map_nil, joined, List.flatMap_nil, List.append_nil] at hone
    rw [ho.typeTokens]
    exact hone
  | @sum ts hlen hts =>
    obtain ⟨o, os, rfl⟩ := List.exists_cons_of_length_pos (Nat.lt_of_lt_of_le Nat.two_pos hlen)
    obtain ⟨ho, hos⟩ := List.forall_mem_cons.1 hts
    have hread := reads_type_options ho hos harrow hpipe
    rw [sumOf_eq hlen] at hread
    exact hread

end Grammar

end LetLang
