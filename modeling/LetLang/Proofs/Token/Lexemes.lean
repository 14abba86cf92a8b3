import LetLang.Proofs.Text.Cancel
import LetLang.Proofs.Token.Joining
import Mathlib.Data.List.Induction
import Mathlib.Data.Nat.Digits.Defs

/-!
# Blanks and lexemes

Which characters make up a token, and how far they reach, is said here without the scanner. A text
is cut into blanks, lexemes and numbers that are too long to be read in exactly one way, and the
scanner cuts it there. The text has tokens exactly if there is no such number.
-/

namespace LetLang.Scan

open Text

/-- A character that begins neither a token nor a blank. -/
def isStray (c : Char) : Bool :=
  !c.isDigit && !startsWord c && c ≠ '"' && !isBlank c && (singleMarks.lookup c).isNone

/-- The number that decimal digits write, the last one counting ones. -/
def numeral (digits : List Char) : Nat :=
  Nat.ofDigits 10 (digits.reverse.map fun d => d.toNat - '0'.toNat)

/-- With `rest` behind them, these are all digits that follow each other. -/
structure IsDigitRun (digits rest : List Char) : Prop where
  ne_nil : digits ≠ []
  isDigit : ∀ d ∈ digits, d.isDigit = true
  ends : EndsRun Char.isDigit rest

/-- With `rest` behind it, the text is the lexeme of the token: all digits that follow each other,
if they are not too many, or all characters of a word; two characters where they make a mark; a
quoted text with its end, or without one where the text ends; else one character. -/
inductive IsLexeme : (text : List Char) → Token String → (rest : List Char) → Prop
  | number {digits rest : List Char} : IsDigitRun digits rest → digits.length ≤ longestNumeral →
      IsLexeme digits (.number (numeral digits)) rest
  | keyword {c : Char} {cs rest : List Char} {m : Mark} : startsWord c = true →
      (∀ d ∈ cs, continuesWord d = true) → EndsRun continuesWord rest →
      (String.ofList (c :: cs), m) ∈ keywords → IsLexeme (c :: cs) (.mark m none) rest
  | identifier {c : Char} {cs rest : List Char} : startsWord c = true →
      (∀ d ∈ cs, continuesWord d = true) → EndsRun continuesWord rest →
      (∀ m, (String.ofList (c :: cs), m) ∉ keywords) →
      IsLexeme (c :: cs) (.identifier (String.ofList (c :: cs))) rest
  | pair {c d : Char} {rest : List Char} {m : Mark} : ((c, d), m) ∈ doubleMarks →
      IsLexeme [c, d] (.mark m none) rest
  | single {c : Char} {rest : List Char} {m : Mark} : (c, m) ∈ singleMarks →
      (∀ d ∈ rest.head?, ∀ m', ((c, d), m') ∉ doubleMarks) → IsLexeme [c] (.mark m none) rest
  | quoted {inside rest : List Char} : '"' ∉ inside →
      IsLexeme ('"' :: (inside ++ ['"'])) (.quoted (String.ofList inside)) rest
  | unclosed {inside : List Char} : '"' ∉ inside →
      IsLexeme ('"' :: inside) (.quoted (String.ofList inside)) []
  | stray {c : Char} {rest : List Char} : isStray c = true →
      IsLexeme [c] (.error (String.singleton c)) rest

/-- The pieces, in order, make up the text: each is a blank, or a lexeme or an overlong number
before what follows it. -/
inductive Cuts : List Char → List Piece → Prop
  | nil : Cuts [] []
  | blank {c : Char} {cs : List Char} {ps : List Piece} : isBlank c = true → Cuts cs ps →
      Cuts (c :: cs) (.blank c :: ps)
  | lexeme {text rest : List Char} {token : Token String} {ps : List Piece} :
      IsLexeme text token rest → Cuts rest ps → Cuts (text ++ rest) (.lexeme text token :: ps)
  | overlong {digits rest : List Char} {ps : List Piece} : IsDigitRun digits rest →
      longestNumeral < digits.length → Cuts rest ps → Cuts (digits ++ rest) (.overlong digits :: ps)

/-- The character is no blank, and no lexeme begins with it but that of an error. -/
def StartsNothing (c : Char) : Prop :=
  isBlank c = false ∧
    ∀ text token rest, IsLexeme (c :: text) token rest → ∃ e, token = .error e

variable {b c : Char} {cs rest text : List Char} {token : Token String} {ps : List Piece}

theorem isDigit_of_startsWord (h : startsWord c = true) : c.isDigit = false := by
  have hcode : c.toNat = c.val.toNat := rfl
  rw [Bool.eq_false_iff]
  intro hdigit
  rw [startsWord, Bool.or_eq_true, decide_eq_true_eq] at h
  rcases h with h | rfl
  · delta Char.isAlpha Char.isUpper Char.isLower at h
    delta Char.isDigit at hdigit
    simp only [Bool.or_eq_true, Bool.and_eq_true, decide_eq_true_eq, ge_iff_le,
      UInt32.le_iff_toNat_le] at h hdigit
    simp at h hdigit
    omega
  · exact absurd hdigit (by decide)

theorem isDigit_of_isBlank (h : isBlank b = true) : b.isDigit = false := by
  have hword := continuesWord_of_isBlank h
  rw [Bool.eq_false_iff]
  intro hdigit
  have hgo : continuesWord b = true := by
    simp [continuesWord, isAlphanumeric_of_isAlphanum, Char.isAlphanum, hdigit]
  rw [hword] at hgo
  cases hgo

theorem startsWord_of_isBlank (h : isBlank b = true) : startsWord b = false := by
  have hword := continuesWord_of_isBlank h
  rw [Bool.eq_false_iff]
  intro hstart
  rw [continuesWord_of_startsWord hstart] at hword
  cases hword

theorem isBlank_of_isStray (h : isStray c = true) : isBlank c = false := by
  simp only [isStray, Bool.and_eq_true, Bool.not_eq_true'] at h
  exact h.1.2

theorem forall_mem_takeWhile (p : Char → Bool) (cs : List Char) :
    ∀ d ∈ cs.takeWhile p, p d = true :=
  List.all_eq_true.1 List.all_takeWhile

theorem forall_ne_of_not_mem (h : c ∉ cs) : ∀ d ∈ cs, decide (d ≠ c) = true :=
  fun _ hd => decide_eq_true fun heq => h (heq ▸ hd)

theorem decimal_eq_numeral (digits : List Char) : decimal digits = numeral digits := by
  unfold decimal numeral
  induction digits using List.reverseRecOn with
  | nil => rfl
  | append_singleton digits d ih =>
    rw [List.foldl_append, ih, List.reverse_append, List.map_append]
    simp only [List.foldl_cons, List.foldl_nil, List.reverse_singleton, List.map_singleton,
      List.singleton_append, Nat.ofDigits_cons]
    exact Nat.add_comm _ _

theorem lookup_keywords_iff {word : String} {m : Mark} :
    keywords.lookup word = some m ↔ (word, m) ∈ keywords := by
  have htable : ∀ e ∈ keywords, keywords.lookup e.1 = some e.2 := by decide
  exact ⟨mem_of_lookup, htable (word, m)⟩

theorem lookup_doubleMarks_iff {cd : Char × Char} {m : Mark} :
    doubleMarks.lookup cd = some m ↔ (cd, m) ∈ doubleMarks := by
  have htable : ∀ e ∈ doubleMarks, doubleMarks.lookup e.1 = some e.2 := by decide
  exact ⟨mem_of_lookup, htable (cd, m)⟩

theorem next_blank (hb : isBlank b = true) : next b rest = (.blank b, rest) := by
  have hquote : b ≠ '"' := by
    rintro rfl
    exact absurd hb (by decide)
  simp [next, isDigit_of_isBlank hb, startsWord_of_isBlank hb, hquote, hb]

theorem next_word (hc : startsWord c = true) (hcs : ∀ d ∈ cs, continuesWord d = true)
    (hrest : EndsRun continuesWord rest) :
    next c (cs ++ rest) = (.lexeme (c :: cs) (wordToken (String.ofList (c :: cs))), rest) := by
  obtain ⟨htake, hdrop⟩ := takeWhile_append_of_endsRun hcs hrest
  simp [next, isDigit_of_startsWord hc, hc, htake, hdrop]

theorem next_double {e : (Char × Char) × Mark} (he : e ∈ doubleMarks) :
    next e.1.1 (e.1.2 :: rest) = (.lexeme [e.1.1, e.1.2] (.mark e.2 none), rest) := by
  have htable : ∀ e ∈ doubleMarks, e.1.1.isDigit = false ∧ startsWord e.1.1 = false ∧
      e.1.1 ≠ '"' ∧ isBlank e.1.1 = false ∧ (singleMarks.lookup e.1.1).isSome ∧
      doubleMarks.lookup e.1 = some e.2 := by decide
  obtain ⟨hdigit, hstart, hquote, hblank, hsingle, hmark⟩ := htable e he
  obtain ⟨m, hm⟩ := Option.isSome_iff_exists.1 hsingle
  simp [next, hdigit, hstart, hquote, hblank, hm, hmark]

theorem next_single {m : Mark} (hc : (c, m) ∈ singleMarks)
    (hrest : ∀ d ∈ rest.head?, ∀ m', ((c, d), m') ∉ doubleMarks) :
    next c rest = (.lexeme [c] (.mark m none), rest) := by
  have htable : ∀ e ∈ singleMarks, e.1.isDigit = false ∧ startsWord e.1 = false ∧ e.1 ≠ '"' ∧
      isBlank e.1 = false ∧ singleMarks.lookup e.1 = some e.2 := by decide
  obtain ⟨hdigit, hstart, hquote, hblank, hmark⟩ := htable _ hc
  dsimp only at hdigit hstart hquote hblank hmark
  cases rest with
  | nil => simp [next, hdigit, hstart, hquote, hblank, hmark]
  | cons d rest =>
    have halone : doubleMarks.lookup (c, d) = none := by
      rw [Option.eq_none_iff_forall_ne_some]
      intro m' hm'
      exact hrest d rfl m' (lookup_doubleMarks_iff.1 hm')
    simp [next, hdigit, hstart, hquote, hblank, hmark, halone]

/-- A run of digits at the front is the next piece. -/
theorem next_digits (h : IsDigitRun (c :: cs) rest) :
    next c (cs ++ rest) = (numberPiece (c :: cs), rest) := by
  obtain ⟨hc, hcs⟩ := List.forall_mem_cons.1 h.isDigit
  obtain ⟨htake, hdrop⟩ := takeWhile_append_of_endsRun hcs h.ends
  simp [next, hc, htake, hdrop]

theorem next_overlong (h : IsDigitRun (c :: cs) rest)
    (hlong : longestNumeral < (c :: cs).length) :
    next c (cs ++ rest) = (.overlong (c :: cs), rest) := by
  rw [next_digits h, numberPiece, if_neg (by omega)]

theorem next_stray (h : isStray c = true) :
    next c rest = (.lexeme [c] (.error (String.singleton c)), rest) := by
  simp only [isStray, Bool.and_eq_true, Bool.not_eq_true', decide_eq_true_eq,
    Option.isNone_iff_eq_none] at h
  obtain ⟨⟨⟨⟨hdigit, hstart⟩, hquote⟩, hblank⟩, hmark⟩ := h
  simp [next, hdigit, hstart, hquote, hblank, hmark]

/-- A lexeme at the front is the next piece. -/
theorem next_of_isLexeme (h : IsLexeme (c :: cs) token rest) :
    next c (cs ++ rest) = (.lexeme (c :: cs) token, rest) := by
  generalize htext : c :: cs = text at h
  cases h with
  | number hrun hshort =>
    subst htext
    rw [next_digits hrun, numberPiece, if_pos hshort, decimal_eq_numeral]
  | keyword hc hcs hrest hm =>
    cases htext
    rw [next_word hc hcs hrest, wordToken, lookup_keywords_iff.2 hm]
  | identifier hc hcs hrest hname =>
    cases htext
    have hnone : keywords.lookup (String.ofList (c :: cs)) = none := by
      rw [Option.eq_none_iff_forall_ne_some]
      intro m hm
      exact hname m (lookup_keywords_iff.1 hm)
    rw [next_word hc hcs hrest, wordToken, hnone]
  | pair hm =>
    cases htext
    exact next_double hm
  | single hm hrest =>
    cases htext
    exact next_single hm hrest
  | @quoted inside rest hinside =>
    cases htext
    have hend : EndsRun (fun d => decide (d ≠ '"')) ('"' :: rest) := by simp [EndsRun]
    obtain ⟨htake, hdrop⟩ := takeWhile_append_of_endsRun (forall_ne_of_not_mem hinside) hend
    rw [List.append_assoc, List.singleton_append, next_quote, htake, hdrop]
    rfl
  | @unclosed inside hinside =>
    cases htext
    have hend : EndsRun (fun d => decide (d ≠ '"')) [] := by simp [EndsRun]
    obtain ⟨htake, hdrop⟩ := takeWhile_append_of_endsRun (forall_ne_of_not_mem hinside) hend
    rw [next_quote, htake, hdrop]
  | stray hc =>
    cases htext
    exact next_stray hc

theorem isLexeme_word (hc : startsWord c = true) (cs : List Char) :
    ∃ token, IsLexeme (c :: cs.takeWhile continuesWord) token (cs.dropWhile continuesWord) := by
  have hword := forall_mem_takeWhile continuesWord cs
  have hend := endsRun_dropWhile continuesWord cs
  by_cases hkeyword : ∃ m, (String.ofList (c :: cs.takeWhile continuesWord), m) ∈ keywords
  · obtain ⟨m, hm⟩ := hkeyword
    exact ⟨_, .keyword hc hword hend hm⟩
  · exact ⟨_, .identifier hc hword hend fun m hm => hkeyword ⟨m, hm⟩⟩

/-- A quoted text reaches to the next double quote or to the end. -/
theorem exists_isLexeme_quoted (cs : List Char) :
    ∃ text token rest, IsLexeme ('"' :: text) token rest ∧ text ++ rest = cs := by
  have hinside : '"' ∉ cs.takeWhile (· ≠ '"') := by
    intro hmem
    have hquote := forall_mem_takeWhile (· ≠ '"') cs _ hmem
    simp at hquote
  have hend := endsRun_dropWhile (· ≠ '"') cs
  have hcs := List.takeWhile_append_dropWhile (p := fun c => decide (c ≠ '"')) (l := cs)
  cases hdrop : cs.dropWhile (· ≠ '"') with
  | nil => exact ⟨_, _, _, .unclosed hinside, by rwa [hdrop] at hcs⟩
  | cons q rest =>
    rw [hdrop] at hcs hend
    obtain rfl : q = '"' := by simpa using hend q rfl
    exact ⟨_, _, rest, .quoted hinside, by rwa [List.append_assoc]⟩

theorem exists_isLexeme_mark {m : Mark} (hm : (c, m) ∈ singleMarks) (cs : List Char) :
    ∃ text token rest, IsLexeme (c :: text) token rest ∧ text ++ rest = cs := by
  cases cs with
  | nil => exact ⟨[], _, [], .single hm (by simp), rfl⟩
  | cons d cs =>
    by_cases hpair : ∃ m', ((c, d), m') ∈ doubleMarks
    · obtain ⟨m', hm'⟩ := hpair
      exact ⟨[d], _, cs, .pair hm', rfl⟩
    · refine ⟨[], _, d :: cs, .single hm ?_, rfl⟩
      rintro _ ⟨⟩ m' hm'
      exact hpair ⟨m', hm'⟩

theorem isDigitRun_takeWhile (hdigit : c.isDigit = true) (cs : List Char) :
    IsDigitRun (c :: cs.takeWhile Char.isDigit) (cs.dropWhile Char.isDigit) where
  ne_nil := List.cons_ne_nil _ _
  isDigit := List.forall_mem_cons.2 ⟨hdigit, forall_mem_takeWhile Char.isDigit cs⟩
  ends := endsRun_dropWhile _ cs

/-- Where no blank and no digit stands at the front, a lexeme does. -/
theorem exists_isLexeme (hblank : isBlank c = false) (hdigit : ¬ c.isDigit = true)
    (cs : List Char) :
    ∃ text token rest, IsLexeme (c :: text) token rest ∧ text ++ rest = cs := by
  by_cases hstart : startsWord c = true
  · obtain ⟨token, hword⟩ := isLexeme_word hstart cs
    exact ⟨_, token, _, hword, List.takeWhile_append_dropWhile⟩
  by_cases hquote : c = '"'
  · subst hquote
    exact exists_isLexeme_quoted cs
  cases hmark : singleMarks.lookup c with
  | some m => exact exists_isLexeme_mark (mem_of_lookup hmark) cs
  | none =>
    have hstray : isStray c = true := by simp [isStray, hdigit, hstart, hquote, hblank, hmark]
    exact ⟨[], _, cs, .stray hstray, rfl⟩

theorem IsLexeme.text_ne_nil (h : IsLexeme text token rest) : text ≠ [] := by
  cases h with
  | number hrun => exact hrun.ne_nil
  | _ => simp

theorem Cuts.number {digits : List Char} (hrun : IsDigitRun digits rest) (h : Cuts rest ps) :
    Cuts (digits ++ rest) (numberPiece digits :: ps) := by
  unfold numberPiece
  split
  · next hshort =>
    rw [decimal_eq_numeral]
    exact .lexeme (.number hrun hshort) h
  · next hlong => exact .overlong hrun (by omega) h

/-- The scanner cuts a text into blanks, lexemes and overlong numbers. -/
theorem cuts_pieces (cs : List Char) : Cuts cs (pieces cs) := by
  fun_induction pieces cs with
  | case1 => exact .nil
  | case2 c cs ih =>
    cases hblank : isBlank c with
    | true =>
      rw [next_blank hblank] at ih ⊢
      exact .blank hblank ih
    | false =>
      by_cases hdigit : c.isDigit = true
      · have hrest : Cuts (cs.dropWhile Char.isDigit) (pieces (cs.dropWhile Char.isDigit)) := by
          simpa only [next, hdigit, if_true] using ih
        have hnumber := Cuts.number (isDigitRun_takeWhile hdigit cs) hrest
        rw [List.cons_append, List.takeWhile_append_dropWhile] at hnumber
        simpa only [next, hdigit, if_true] using hnumber
      · obtain ⟨text, token, rest, hlexeme, rfl⟩ := exists_isLexeme hblank hdigit cs
        rw [next_of_isLexeme hlexeme] at ih ⊢
        exact .lexeme hlexeme ih

/-- There is no other cut than that of the scanner. -/
theorem Cuts.pieces_eq (h : Cuts cs ps) : pieces cs = ps := by
  induction h with
  | nil => rw [pieces]
  | blank hblank _ ih => rw [pieces, next_blank hblank, ih]
  | @lexeme text rest token ps hlexeme _ ih =>
    cases text with
    | nil => exact absurd rfl hlexeme.text_ne_nil
    | cons c text => rw [List.cons_append, pieces, next_of_isLexeme hlexeme, ih]
  | @overlong digits rest ps hrun hlong _ ih =>
    cases digits with
    | nil => exact absurd rfl hrun.ne_nil
    | cons c digits => rw [List.cons_append, pieces, next_overlong hrun hlong, ih]

theorem startsNothing_iff : StartsNothing c ↔ isStray c = true := by
  constructor
  · intro ⟨hblank, hall⟩
    have hdigit : ¬ c.isDigit = true := by
      intro hdigit
      have hone : [c].length ≤ longestNumeral := by simp [longestNumeral]
      obtain ⟨e, he⟩ := hall _ _ _ (.number (isDigitRun_takeWhile hdigit []) hone)
      cases he
    obtain ⟨text, token, rest, hlexeme, -⟩ := exists_isLexeme hblank hdigit []
    obtain ⟨e, rfl⟩ := hall _ _ _ hlexeme
    cases hlexeme with
    | stray hc => exact hc
  · intro hstray
    refine ⟨isBlank_of_isStray hstray, fun text token rest hlexeme => ?_⟩
    -- the scanner takes the character for an error, and takes every lexeme for what it is
    have hnext := next_of_isLexeme hlexeme
    rw [next_stray hstray] at hnext
    cases hnext
    exact ⟨_, rfl⟩

/-- Errors are the characters that begin nothing else, one by one. -/
theorem Cuts.error_iff (h : Cuts cs ps) : ∀ p ∈ ps,
    (∃ e, p.token? = some (.error e)) ↔ ∃ c, p.text = [c] ∧ StartsNothing c := by
  induction h with
  | nil => simp
  | @blank b cs ps hblank _ ih =>
    refine List.forall_mem_cons.2 ⟨?_, ih⟩
    have hnot : ¬ StartsNothing b := fun h => by simp [h.1] at hblank
    simp [Piece.token?, Piece.text, hnot]
  | @lexeme text rest token ps hlexeme _ ih =>
    refine List.forall_mem_cons.2 ⟨?_, ih⟩
    constructor
    · rintro ⟨e, he⟩
      cases he
      cases hlexeme with
      | stray hc => exact ⟨_, rfl, startsNothing_iff.2 hc⟩
    · rintro ⟨c, hc, -, hall⟩
      obtain rfl : text = [c] := hc
      obtain ⟨e, rfl⟩ := hall _ _ _ hlexeme
      exact ⟨e, rfl⟩
  | @overlong digits rest ps hrun hlong _ ih =>
    refine List.forall_mem_cons.2 ⟨?_, ih⟩
    have hne : ∀ c, digits ≠ [c] := by
      rintro c rfl
      exact absurd hlong (by simp [longestNumeral])
    simp [Piece.token?, Piece.text, hne]

theorem isDigitRun_replicate {n : Nat} (hn : n ≠ 0) : IsDigitRun (List.replicate n '1') [] where
  ne_nil := by simpa using hn
  isDigit := fun _ hd => List.eq_of_mem_replicate hd ▸ by decide
  ends := by simp [EndsRun]

/-- The scanner accounts for every character: the text is cut into blanks, lexemes and overlong
numbers, each as long as it can be, in this way only; the pieces make up the text, and the errors
among them are the single characters that begin nothing. If no number is overlong, the tokens of the
text are those of the pieces; else it has none, and the first overlong number is reported. -/
theorem tokenize_accounts_for_text (source : String) :
    ∃ ps, Cuts source.toList ps ∧ (∀ qs, Cuts source.toList qs → qs = ps) ∧
      ps.flatMap Piece.text = source.toList ∧
      (∀ p ∈ ps, (∃ e, p.token? = some (.error e)) ↔ ∃ c, p.text = [c] ∧ StartsNothing c) ∧
      (∀ ts, tokenize source = .ok ts ↔ AllRead ps ∧ ps.filterMap Piece.token? = ts) ∧
      ∀ e, tokenize source = .error e ↔ ∃ before digits after,
        ps = before ++ .overlong digits :: after ∧ AllRead before ∧ e = ⟨digits.length⟩ := by
  have hcuts := cuts_pieces source.toList
  exact ⟨pieces source.toList, hcuts, fun qs hqs => hqs.pieces_eq.symm,
    flatMap_text_pieces source.toList, hcuts.error_iff, fun _ => tokens_eq_ok_iff,
    fun _ => tokens_eq_error_iff⟩

/-- A text of digits that are one too many has no tokens. -/
theorem one_digit_too_many :
    tokenize (String.ofList (List.replicate 4301 '1')) = .error ⟨4301⟩ := by
  obtain ⟨ps, -, honly, -, -, -, herror⟩ :=
    tokenize_accounts_for_text (String.ofList (List.replicate 4301 '1'))
  have hlong : longestNumeral < (List.replicate 4301 '1').length := by
    rw [List.length_replicate]
    decide
  have hcuts := Cuts.overlong (isDigitRun_replicate (by decide)) hlong .nil
  rw [List.append_nil] at hcuts
  rw [String.toList_ofList] at honly
  exact (herror _).2 ⟨[], _, [], (honly _ hcuts).symm, fun _ => List.not_mem_nil,
    by rw [List.length_replicate]⟩

end LetLang.Scan
