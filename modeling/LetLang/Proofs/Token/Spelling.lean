import LetLang.Proofs.Grammar.Shape
import LetLang.Proofs.Token.Lexemes

/-!
# Writing tokens

A token that the scanner can make is written in one way, and a blank behind it keeps it from what
follows. So tokens that are written with blanks between them are scanned again as they were, unless
the number of one of them is too long.
-/

namespace LetLang

open Scan Text

/-- The text that writes a mark; nothing for a foreign one. -/
def Mark.spelling (m : Mark) : String :=
  match spellings.find? fun e => e.2 = m with
  | some e => e.1
  | none => ""

def Token.spelling : Token String → List Char
  | .number n => Nat.toDigits 10 n.toNat
  | .identifier name => name.toList
  | .quoted text => '"' :: text.toList ++ ['"']
  | .error text => text.toList
  | .mark m _ => m.spelling.toList

/-- The token is as the scanner makes it, so that it can be written. -/
def Token.Written : Token String → Prop
  | .number n => 0 ≤ n
  | .identifier name => IsName name
  | .quoted text => '"' ∉ text.toList
  | .error text => ∃ c, isStray c ∧ text = String.singleton c
  | .mark m note => m ∈ spellings.map Prod.snd ∧ note = none

/-- If the token is a number, it is short enough to be written. -/
def Token.IsShort (t : Token String) : Prop := ∀ n, t = .number n → isWritable n = true

namespace Scan

variable {text rest : List Char} {t : Token String} {ps : List Piece}

theorem decimal_toDigits (n : Nat) : decimal (Nat.toDigits 10 n) = n :=
  Nat.ofDigitChars_ten_toDigits

theorem spelling_of_mem {e : String × Mark} (he : e ∈ spellings) : e.2.spelling = e.1 := by
  have htable : ∀ e ∈ spellings, e.2.spelling = e.1 := by decide
  exact htable e he

/-- Nothing follows, or a blank. -/
def AtBlank (rest : List Char) : Prop := ∀ b ∈ rest.head?, isBlank b = true

theorem AtBlank.endsRun {p : Char → Bool} (h : AtBlank rest)
    (hp : ∀ b, isBlank b = true → p b = false) : EndsRun p rest :=
  fun b hb => hp b (h b hb)

/-- A written mark is its lexeme where a blank or nothing follows. -/
theorem isLexeme_mark {e : String × Mark} (he : e ∈ spellings) (hrest : AtBlank rest) :
    IsLexeme e.1.toList (.mark e.2 none) rest := by
  unfold spellings at he
  rcases List.mem_append.1 he with he | he
  · rcases List.mem_append.1 he with he | he
    · have htable : ∀ e ∈ keywords, e.1.toList ≠ [] ∧ e.1.toList.all startsWord = true := by decide
      obtain ⟨hne, hword⟩ := htable e he
      obtain ⟨c, cs, hcs⟩ := List.exists_cons_of_ne_nil hne
      rw [hcs, List.all_eq_true] at hword
      obtain ⟨hstart, hgo⟩ := List.forall_mem_cons.1 hword
      rw [hcs]
      refine .keyword hstart (fun d hd => continuesWord_of_startsWord (hgo d hd))
        (hrest.endsRun fun _ => continuesWord_of_isBlank) ?_
      rw [← hcs, String.ofList_toList]
      exact he
    · obtain ⟨s, hs, rfl⟩ := List.mem_map.1 he
      have hseconds : ∀ d ∈ doubleMarks, isBlank d.1.2 = false := by decide
      rw [String.toList_singleton]
      refine .single hs fun d hd m hm => ?_
      have hblank := hseconds _ hm
      rw [hrest d hd] at hblank
      cases hblank
  · obtain ⟨d, hd, rfl⟩ := List.mem_map.1 he
    rw [String.toList_ofList]
    exact .pair hd

/-- A written token is its lexeme where a blank or nothing follows. -/
theorem isLexeme_spelling (ht : t.Written) (hshort : t.IsShort) (hrest : AtBlank rest) :
    IsLexeme t.spelling t rest := by
  cases t with
  | number n =>
    have hrun : IsDigitRun (Nat.toDigits 10 n.toNat) rest :=
      ⟨Nat.toDigits_ne_nil, isDigit_of_mem_toDigits, hrest.endsRun fun _ => isDigit_of_isBlank⟩
    have hlength : (Nat.toDigits 10 n.toNat).length ≤ longestNumeral := by
      rw [← Int.natAbs_of_nonneg ht, Int.toNat_natCast]
      exact of_decide_eq_true (hshort n rfl)
    have hlexeme := IsLexeme.number hrun hlength
    rwa [← decimal_eq_numeral, decimal_toDigits, Int.toNat_of_nonneg ht] at hlexeme
  | identifier name =>
    obtain ⟨⟨c, cs, hname, hc, hcs⟩, hfree⟩ := ht
    have hlexeme : IsLexeme (c :: cs) (.identifier (String.ofList (c :: cs))) rest := by
      refine .identifier hc hcs (hrest.endsRun fun _ => continuesWord_of_isBlank) fun m hm => ?_
      rw [← hname, String.ofList_toList, ← lookup_keywords_iff, hfree] at hm
      cases hm
    rwa [← hname, String.ofList_toList] at hlexeme
  | quoted text =>
    have hlexeme : IsLexeme ('"' :: (text.toList ++ ['"'])) (.quoted (String.ofList text.toList))
        rest := .quoted ht
    rwa [String.ofList_toList] at hlexeme
  | error text =>
    obtain ⟨c, hc, rfl⟩ := ht
    rw [Token.spelling, String.toList_singleton]
    exact .stray hc
  | mark m note =>
    obtain ⟨hm, rfl⟩ := ht
    obtain ⟨e, he, rfl⟩ := List.mem_map.1 hm
    rw [Token.spelling, spelling_of_mem he]
    exact isLexeme_mark he hrest

/-- A written token with a blank behind it is cut off there. -/
theorem Cuts.spelling {b : Char} (ht : t.Written) (hshort : t.IsShort) (hb : isBlank b = true)
    (h : Cuts rest ps) :
    Cuts (t.spelling ++ b :: rest) (.lexeme t.spelling t :: .blank b :: ps) := by
  have hrest : AtBlank (b :: rest) := by simpa [AtBlank] using hb
  exact .lexeme (isLexeme_spelling ht hshort hrest) (.blank hb h)

theorem isWritable_iff {n : Int} : isWritable n = true ↔ n.natAbs < 10 ^ longestNumeral := by
  unfold isWritable
  rw [decide_eq_true_iff]
  exact Nat.length_toDigits_le_iff (by decide) (by decide)

/-- A number has no more digits than it was read from. -/
theorem isWritable_numeral {digits : List Char} (hdigits : ∀ d ∈ digits, d.isDigit = true)
    (hlength : digits.length ≤ longestNumeral) : isWritable (numeral digits) = true := by
  have hvalues : ∀ v ∈ digits.reverse.map fun d => d.toNat - '0'.toNat, v < 10 := by
    intro v hv
    obtain ⟨d, hd, rfl⟩ := List.mem_map.1 hv
    have hcode := (Char.isDigit_iff_toNat.1 (hdigits d (List.mem_reverse.1 hd))).2
    have hnine : '9'.toNat = '0'.toNat + 9 := rfl
    omega
  have hlt : numeral digits < 10 ^ digits.length := by
    have h := Nat.ofDigits_lt_base_pow_length (by decide) hvalues
    rwa [List.length_map, List.length_reverse] at h
  refine isWritable_iff.2 ?_
  rw [Int.natAbs_natCast]
  exact hlt.trans_le (Nat.pow_le_pow_right (by decide) hlength)

theorem IsLexeme.isShort (h : IsLexeme text t rest) : t.IsShort := by
  intro n hn
  cases h with
  | number hrun hlength =>
    cases hn
    exact isWritable_numeral hrun.isDigit hlength
  | _ => cases hn

/-- What holds of the tokens of lexemes holds of all tokens among the pieces. -/
theorem Cuts.forall_token {P : Token String → Prop}
    (hP : ∀ {text rest t}, IsLexeme text t rest → P t) (h : Cuts text ps) :
    ∀ t ∈ ps.filterMap Piece.token?, P t := by
  induction h with
  | nil => simp
  | blank _ _ ih => exact ih
  | lexeme hlexeme _ ih => exact List.forall_mem_cons.2 ⟨hP hlexeme, ih⟩
  | overlong _ _ _ ih => exact ih

end Scan

/-- The numbers of a source text can be written again. -/
theorem isShort_of_tokenize {source : String} {ts : List (Token String)}
    (h : tokenize source = .ok ts) : ∀ t ∈ ts, t.IsShort := by
  obtain ⟨-, rfl⟩ := tokenize_eq_ok_iff.1 h
  exact (cuts_pieces source.toList).forall_token IsLexeme.isShort

/-- Tokens, each with a blank behind it. -/
def Token.writeAll (ts : List (Token String)) : String :=
  String.ofList (ts.flatMap fun t => t.spelling ++ [' '])

/-- Tokens that are written are scanned again as they were. -/
theorem tokenize_writeAll {ts : List (Token String)} (h : ∀ t ∈ ts, t.Written)
    (hshort : ∀ t ∈ ts, t.IsShort) : tokenize (Token.writeAll ts) = .ok ts := by
  unfold tokenize Token.writeAll
  rw [String.toList_ofList]
  induction ts with
  | nil => simp [pieces, tokens]
  | cons t ts ih =>
    obtain ⟨ht, hts⟩ := List.forall_mem_cons.1 h
    obtain ⟨hshort, hshorts⟩ := List.forall_mem_cons.1 hshort
    have hcuts := (cuts_pieces (ts.flatMap fun t => t.spelling ++ [' '])).spelling ht hshort
      (b := ' ') (by decide)
    rw [List.flatMap_cons, List.append_assoc, List.singleton_append, hcuts.pieces_eq, tokens,
      tokens, ih hts hshorts]
    rfl

end LetLang
