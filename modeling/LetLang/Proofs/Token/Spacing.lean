import LetLang.Proofs.Token.Spelling

/-!
# Tokens with blanks between them

The tokens of a text can be written out again with any blanks between them. What is written is no
longer the text, but its tokens are the same.
-/

namespace LetLang

open Scan Text

/-- One or more blanks. -/
structure Gap where
  chars : List Char
  ne_nil : chars ≠ []
  isBlank : ∀ c ∈ chars, isBlank c = true

/-- Tokens, each written once, with the gaps in order between them. -/
def Token.spaced : (gap : Nat → Gap) → List (Token String) → List Char
  | _, [] => []
  | _, [t] => t.spelling
  | gap, t :: u :: ts => t.spelling ++ ((gap 0).chars ++ spaced (fun i => gap (i + 1)) (u :: ts))

namespace Scan

variable {cs text rest : List Char} {token : Token String} {ps : List Piece}

theorem map_snd_spellings : spellings.map Prod.snd =
    keywords.map Prod.snd ++ singleMarks.map Prod.snd ++ doubleMarks.map Prod.snd := by
  simp [spellings, Function.comp_def]

theorem IsLexeme.written (h : IsLexeme text token rest) : token.Written := by
  cases h with
  | number => exact Int.natCast_nonneg _
  | keyword _ _ _ hm =>
    have hmark := List.mem_map_of_mem (f := Prod.snd) hm
    exact ⟨by simp only [map_snd_spellings, List.mem_append, hmark, true_or], rfl⟩
  | @identifier c cs _ hc hcs _ hname =>
    refine ⟨⟨c, cs, String.toList_ofList, hc, hcs⟩, ?_⟩
    rw [Option.eq_none_iff_forall_ne_some]
    exact fun m hm => hname m (lookup_keywords_iff.1 hm)
  | pair hm =>
    have hmark := List.mem_map_of_mem (f := Prod.snd) hm
    exact ⟨by simp only [map_snd_spellings, List.mem_append, hmark, or_true], rfl⟩
  | single hm =>
    have hmark := List.mem_map_of_mem (f := Prod.snd) hm
    exact ⟨by simp only [map_snd_spellings, List.mem_append, hmark, true_or, or_true], rfl⟩
  | quoted hinside => simpa [Token.Written] using hinside
  | unclosed hinside => simpa [Token.Written] using hinside
  | stray hc => exact ⟨_, hc, rfl⟩

theorem Cuts.blanks {blanks : List Char} (hblanks : ∀ b ∈ blanks, isBlank b = true)
    (h : Cuts cs ps) : Cuts (blanks ++ cs) (blanks.map .blank ++ ps) := by
  induction blanks with
  | nil => exact h
  | cons b blanks ih =>
    obtain ⟨hb, hrest⟩ := List.forall_mem_cons.1 hblanks
    exact .blank hb (ih hrest)

theorem atBlank_gap (g : Gap) (rest : List Char) : AtBlank (g.chars ++ rest) := by
  obtain ⟨b, bs, hchars⟩ := List.exists_cons_of_ne_nil g.ne_nil
  have hb := g.isBlank b (by simp [hchars])
  simpa [AtBlank, hchars] using hb

theorem tokens_blanks (blanks : List Char) (ps : List Piece) :
    tokens (blanks.map Piece.blank ++ ps) = tokens ps := by
  induction blanks with
  | nil => rfl
  | cons b blanks ih => exact ih

/-- Written tokens are cut at the gaps between them. -/
theorem exists_cuts_spaced {ts : List (Token String)} (h : ∀ t ∈ ts, t.Written)
    (hshort : ∀ t ∈ ts, t.IsShort) (gap : Nat → Gap) :
    ∃ ps, Cuts (Token.spaced gap ts) ps ∧ tokens ps = .ok ts := by
  induction ts generalizing gap with
  | nil => exact ⟨[], .nil, rfl⟩
  | cons t ts ih =>
    obtain ⟨ht, hts⟩ := List.forall_mem_cons.1 h
    obtain ⟨htshort, hshorts⟩ := List.forall_mem_cons.1 hshort
    cases ts with
    | nil =>
      have hlast := Cuts.lexeme (isLexeme_spelling ht htshort (by simp [AtBlank])) .nil
      rw [List.append_nil] at hlast
      exact ⟨_, hlast, rfl⟩
    | cons u ts =>
      obtain ⟨ps, hcuts, htokens⟩ := ih hts hshorts fun i => gap (i + 1)
      refine ⟨_, .lexeme (isLexeme_spelling ht htshort (atBlank_gap (gap 0) _))
        (hcuts.blanks (gap 0).isBlank), ?_⟩
      rw [tokens, tokens_blanks, htokens]
      rfl

end Scan

/-- The tokens of a text, written again with any blanks between them, are scanned again as they
were. -/
theorem tokenize_spaced {source : String} {ts : List (Token String)}
    (h : tokenize source = .ok ts) (gap : Nat → Gap) :
    tokenize (String.ofList (Token.spaced gap ts)) = .ok ts := by
  have hwritten : ∀ t ∈ ts, t.Written := by
    obtain ⟨-, rfl⟩ := tokenize_eq_ok_iff.1 h
    exact (cuts_pieces source.toList).forall_token IsLexeme.written
  obtain ⟨ps, hcuts, htokens⟩ := exists_cuts_spaced hwritten (isShort_of_tokenize h) gap
  rw [tokenize, String.toList_ofList, hcuts.pieces_eq, htokens]

/-- Zeros in front of a number are not written again. -/
theorem spaced_arrow_tokenized :
    tokenize "x=>007" = .ok [.identifier "x", .mark .fatRightArrow none, .number 7] ∧
      tokenize "x => 7" = .ok [.identifier "x", .mark .fatRightArrow none, .number 7] := by
  let ts : List (Token String) := [.identifier "x", .mark .fatRightArrow none, .number 7]
  let gap : Nat → Gap := fun _ => ⟨[' '], by simp, List.forall_mem_singleton.2 (by decide)⟩
  have h : tokenize "x=>007" = .ok ts := by cbv
  have hspaced : String.ofList (Token.spaced gap ts) = "x => 7" := by decide +kernel
  exact ⟨h, hspaced ▸ tokenize_spaced h gap⟩

end LetLang
