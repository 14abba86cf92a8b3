import LetLang.Proofs.Token.Unread

/-!
# Text that follows

A number, a word, an open quotation or a mark at the end of a text may go on in what follows the
text. A blank and a semicolon do not.
-/

namespace LetLang.Scan

open Text

variable {c : Char} {cs ds : List Char}

/-- The piece ends where it ends, whatever follows: it is a blank or a semicolon. -/
def Piece.Closed : Piece → Prop
  | .blank _ => True
  | .lexeme _ token => token.is .semicolon = true
  | .overlong _ => False

theorem mem_of_lookup {κ β : Type} [BEq κ] [LawfulBEq κ] {entries : List (κ × β)} {k : κ} {v : β}
    (h : entries.lookup k = some v) : (k, v) ∈ entries := by
  obtain ⟨before, after, rfl, -⟩ := List.lookup_eq_some_iff.1 h
  simp

theorem not_closed_numberPiece (digits : List Char) : ¬ (numberPiece digits).Closed := by
  unfold numberPiece
  split <;> simp [Piece.Closed, Token.is]

/-- No keyword is written as a semicolon. -/
theorem not_closed_wordToken (text : List Char) (word : String) :
    ¬ (Piece.lexeme text (wordToken word)).Closed := by
  have htable : ∀ e ∈ keywords, e.2 ≠ .semicolon := by decide
  unfold Piece.Closed wordToken
  dsimp only
  split
  · next m hm => simpa [Token.is] using htable _ (mem_of_lookup hm)
  · simp [Token.is]

/-- A run that ends inside a text ends there, whatever follows the text. -/
theorem run_append {p : Char → Bool} (h : cs.dropWhile p ≠ []) (ds : List Char) :
    (cs ++ ds).takeWhile p = cs.takeWhile p ∧ (cs ++ ds).dropWhile p = cs.dropWhile p ++ ds := by
  have hlength := congrArg List.length (List.takeWhile_append_dropWhile (p := p) (l := cs))
  have hpos := List.length_pos_iff.2 h
  rw [List.length_append] at hlength
  constructor
  · rw [List.takeWhile_append, if_neg (by omega)]
  · rw [List.dropWhile_append, if_neg (by simpa using h)]

/-- A mark of one character that is closed has no longer mark that begins with it. -/
theorem lookup_doubleMarks_of_semicolon (h : singleMarks.lookup c = some .semicolon) (d : Char) :
    doubleMarks.lookup (c, d) = none := by
  have hsingle : ∀ e ∈ singleMarks, e.2 = .semicolon → e.1 = ';' := by decide
  have hdouble : ∀ e ∈ doubleMarks, e.1.1 ≠ ';' := by decide
  obtain rfl : c = ';' := hsingle _ (mem_of_lookup h) rfl
  refine List.lookup_eq_none_iff.2 fun e he => bne_iff_ne.2 ?_
  intro heq
  exact hdouble e he (congrArg Prod.fst heq).symm

/-- A quoted text is open where it reaches the end. -/
theorem next_quote (cs : List Char) : next '"' cs =
    match cs.dropWhile (· ≠ '"') with
    | [] => (.lexeme ('"' :: cs.takeWhile (· ≠ '"'))
        (.quoted (String.ofList (cs.takeWhile (· ≠ '"')))), [])
    | q :: rest => (.lexeme ('"' :: cs.takeWhile (· ≠ '"') ++ [q])
        (.quoted (String.ofList (cs.takeWhile (· ≠ '"')))), rest) := by
  have hdigit : '"'.isDigit = false := by decide
  have hword : startsWord '"' = false := by decide
  unfold next
  exact (if_neg (by simp [hdigit])).trans ((if_neg (by simp [hword])).trans (if_pos rfl))

/-- What follows a text does not change its next piece, unless the text ends with that piece. -/
theorem next_append (h : (next c cs).2 ≠ [] ∨ (next c cs).1.Closed) (ds : List Char) :
    next c (cs ++ ds) = ((next c cs).1, (next c cs).2 ++ ds) := by
  by_cases hdigit : c.isDigit = true
  · simp only [next, hdigit, if_true] at h ⊢
    obtain ⟨htake, hdrop⟩ := run_append (h.resolve_right (not_closed_numberPiece _)) ds
    rw [htake, hdrop]
  by_cases hword : startsWord c = true
  · simp only [next, hdigit, hword, if_true, if_false, Bool.false_eq_true] at h ⊢
    obtain ⟨htake, hdrop⟩ := run_append (h.resolve_right (not_closed_wordToken _ _)) ds
    rw [htake, hdrop]
  by_cases hquote : c = '"'
  · subst hquote
    rw [next_quote] at h
    rw [next_quote, next_quote]
    cases hend : cs.dropWhile (· ≠ '"') with
    | nil =>
      rw [hend] at h
      simp [Piece.Closed, Token.is] at h
    | cons q rest =>
      obtain ⟨htake, hdrop⟩ := run_append (p := (· ≠ '"')) (by rw [hend]; simp) ds
      rw [htake, hdrop, hend, List.cons_append]
  by_cases hblank : isBlank c = true
  · simp [next, hdigit, hword, hquote, hblank]
  simp only [next, hdigit, hword, hquote, hblank, if_false, Bool.false_eq_true] at h ⊢
  cases hmark : singleMarks.lookup c with
  | none => rfl
  | some m =>
    cases cs with
    | nil =>
      have hclosed : m = .semicolon := by simpa [hmark, Piece.Closed, Token.is] using h
      subst hclosed
      cases ds with
      | nil => rfl
      | cons d ds => simp [lookup_doubleMarks_of_semicolon hmark]
    | cons d rest =>
      dsimp only [List.cons_append]
      split <;> rfl

theorem pieces_append (ds : List Char) (h : ∀ p, (pieces cs).getLast? = some p → p.Closed) :
    pieces (cs ++ ds) = pieces cs ++ pieces ds := by
  fun_induction pieces cs with
  | case1 => rfl
  | case2 c cs ih =>
    have hnext : (next c cs).2 ≠ [] ∨ (next c cs).1.Closed := by
      by_cases hrest : (next c cs).2 = []
      · refine .inr (h _ ?_)
        rw [hrest, pieces]
        rfl
      · exact .inl hrest
    have hrest : ∀ p, (pieces (next c cs).2).getLast? = some p → p.Closed := by
      intro p hp
      refine h p ?_
      rw [List.getLast?_cons, hp, Option.getD_some]
    rw [List.cons_append, pieces, next_append hnext, ih hrest, List.cons_append]

end LetLang.Scan

namespace LetLang

open Scan

/-- Behind a last semicolon no token goes on. -/
theorem tokenize_append {a : String} {ts : List (Token String)} (ha : tokenize a = .ok ts)
    (h : ∀ t, ts.getLast? = some t → t.is .semicolon = true) (b : String) :
    tokenize (a ++ b) = (tokenize b).map (ts ++ ·) := by
  obtain ⟨hread, rfl⟩ := tokens_eq_ok_iff.1 ha
  have hclosed : ∀ p, (pieces a.toList).getLast? = some p → p.Closed := by
    intro p hp
    obtain ⟨before, hbefore⟩ := List.getLast?_eq_some_iff.1 hp
    cases p with
    | blank => exact trivial
    | lexeme text token =>
      refine h token ?_
      rw [hbefore, List.filterMap_append]
      simp [Piece.token?]
    | overlong digits => exact absurd (List.mem_of_getLast? hp) (hread digits)
  rw [tokenize, String.toList_append, pieces_append _ hclosed]
  exact tokens_append ha _

end LetLang
