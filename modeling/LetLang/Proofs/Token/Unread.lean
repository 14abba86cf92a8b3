import LetLang.Token.Scan

/-!
# Numbers that are not read

A source text has tokens unless a number of it is too long to be read. The first such number is the
one that is reported.
-/

namespace LetLang

namespace Scan

open Text

variable {ps qs : List Piece} {ts : List (Token String)} {e : UnreadNumeral}

/-- No number among the pieces is too long to be read. -/
def AllRead (ps : List Piece) : Prop := ∀ digits, .overlong digits ∉ ps

theorem AllRead.of_cons {p : Piece} (h : AllRead (p :: ps)) : AllRead ps :=
  fun digits hmem => h digits (List.mem_cons_of_mem p hmem)

/-- Pieces whose numbers are read only add their tokens to those of the pieces behind them. -/
theorem tokens_append_of_allRead (h : AllRead ps) (qs : List Piece) :
    tokens (ps ++ qs) = (tokens qs).map (ps.filterMap Piece.token? ++ ·) := by
  induction ps with
  | nil => cases hqs : tokens qs <;> simp [hqs, Except.map]
  | cons p ps ih =>
    have htail := ih h.of_cons
    cases p with
    | blank => exact htail
    | lexeme text token =>
      rw [List.cons_append, tokens, htail]
      cases tokens qs <;> rfl
    | overlong digits => exact absurd List.mem_cons_self (h digits)

theorem tokens_of_allRead (h : AllRead ps) : tokens ps = .ok (ps.filterMap Piece.token?) := by
  simpa [tokens, Except.map] using tokens_append_of_allRead h []

theorem tokens_of_overlong (h : AllRead ps) (digits : List Char) (qs : List Piece) :
    tokens (ps ++ .overlong digits :: qs) = .error ⟨digits.length⟩ := by
  rw [tokens_append_of_allRead h]
  rfl

/-- Either all numbers are read, or there is a first one that is not. -/
theorem allRead_or_exists_overlong (ps : List Piece) :
    AllRead ps ∨ ∃ before digits after, ps = before ++ .overlong digits :: after ∧
      AllRead before := by
  induction ps with
  | nil => exact .inl fun _ => List.not_mem_nil
  | cons p ps ih =>
    have hcons (hp : ∀ digits, p ≠ .overlong digits) {rs : List Piece} (h : AllRead rs) :
        AllRead (p :: rs) := by
      intro digits hmem
      rcases List.mem_cons.1 hmem with heq | hmem
      · exact hp digits heq.symm
      · exact h digits hmem
    by_cases hp : ∃ digits, p = .overlong digits
    · obtain ⟨digits, rfl⟩ := hp
      exact .inr ⟨[], digits, ps, rfl, fun _ => List.not_mem_nil⟩
    · replace hp : ∀ digits, p ≠ .overlong digits := fun digits heq => hp ⟨digits, heq⟩
      rcases ih with h | ⟨before, digits, after, rfl, h⟩
      · exact .inl (hcons hp h)
      · exact .inr ⟨p :: before, digits, after, rfl, hcons hp h⟩

theorem tokens_eq_ok_iff : tokens ps = .ok ts ↔ AllRead ps ∧ ps.filterMap Piece.token? = ts := by
  rcases allRead_or_exists_overlong ps with h | ⟨before, digits, after, rfl, h⟩
  · simp [tokens_of_allRead h, h]
  · have hnot : ¬ AllRead (before ++ .overlong digits :: after) :=
      fun hall => hall digits (by simp)
    simp [tokens_of_overlong h, hnot]

theorem tokens_eq_error_iff : tokens ps = .error e ↔
    ∃ before digits after, ps = before ++ .overlong digits :: after ∧ AllRead before ∧
      e = ⟨digits.length⟩ := by
  constructor
  · intro hps
    rcases allRead_or_exists_overlong ps with h | ⟨before, digits, after, rfl, h⟩
    · rw [tokens_of_allRead h] at hps
      cases hps
    · rw [tokens_of_overlong h] at hps
      exact ⟨before, digits, after, rfl, h, (Except.error.inj hps).symm⟩
  · rintro ⟨before, digits, after, rfl, h, rfl⟩
    exact tokens_of_overlong h digits after

theorem tokens_append (h : tokens ps = .ok ts) (qs : List Piece) :
    tokens (ps ++ qs) = (tokens qs).map (ts ++ ·) := by
  obtain ⟨hps, rfl⟩ := tokens_eq_ok_iff.1 h
  exact tokens_append_of_allRead hps qs

end Scan

open Scan

theorem tokenize_eq_ok_iff {source : String} {ts : List (Token String)} :
    tokenize source = .ok ts ↔ AllRead (pieces source.toList) ∧ scan source = ts :=
  tokens_eq_ok_iff

end LetLang
