/-!
# Numerals

A number is read from decimal digits and written with them as long as there are not too many. Its
sign does not count.
-/

namespace LetLang.Text

/-- The greatest number of digits that a number is read from or written with. -/
def longestNumeral : Nat := 4300

def isWritable (n : Int) : Bool := (Nat.toDigits 10 n.natAbs).length ≤ longestNumeral

/-- The first words of a complaint about a number with too many digits. -/
def numeralComplaint : String :=
  s!"Exceeds the limit ({longestNumeral} digits) for integer string conversion"

/-- The last words of a complaint about a number with too many digits. -/
def numeralAdvice : String := "; use sys.set_int_max_str_digits() to increase the limit"

/-- A number that is not read because it has too many digits. -/
structure UnreadNumeral where
  digits : Nat
  deriving Repr, DecidableEq

def UnreadNumeral.message (e : UnreadNumeral) : String :=
  numeralComplaint ++ s!": value has {e.digits} digits" ++ numeralAdvice

/-- The complaint about a number that is not written because it has too many digits. -/
def unwrittenMessage : String := numeralComplaint ++ numeralAdvice

end LetLang.Text
