/-!
# Tables of code points

A class of characters is given by the closed ranges of code points that make it up.
-/

namespace LetLang.Text

/-- A closed range of code points, first and last. -/
abbrev CharRange := Nat × Nat

def covers (ranges : List CharRange) (code : Nat) : Bool :=
  ranges.any fun r => r.1 ≤ code && code ≤ r.2

theorem covers_eq_true_iff {ranges : List CharRange} {code : Nat} :
    covers ranges code = true ↔ ∃ r ∈ ranges, r.1 ≤ code ∧ code ≤ r.2 := by
  simp [covers]

end LetLang.Text
