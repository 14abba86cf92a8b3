import LetLang.Text.Alphanumeric
import LetLang.Text.Blank
import LetLang.Text.Numeral
import LetLang.Token

/-!
# Scanning

A source text is cut into pieces from left to right. A piece is one blank, which says nothing, or
the lexeme of a token: the longest run of digits, the longest word, a quoted text up to the next
double quote or to the end, two characters where they make a mark together, else one character.
Nothing of the text is lost: the pieces, written one after the other, are the text. A run of digits
that is too long to be read has no token, and then the text has none.
-/

namespace LetLang.Scan

open Text

/-- A piece of a source text. An overlong one is a number with more digits than are read. -/
inductive Piece where
  | blank (c : Char)
  | lexeme (text : List Char) (token : Token String)
  | overlong (digits : List Char)
  deriving Repr, DecidableEq

def Piece.text : Piece → List Char
  | .blank c => [c]
  | .lexeme text _ => text
  | .overlong digits => digits

def Piece.token? : Piece → Option (Token String)
  | .lexeme _ token => some token
  | _ => none

/-- A word begins with an ASCII letter or an underscore. -/
def startsWord (c : Char) : Bool := c.isAlpha || c = '_'

/-- A word goes on with alphanumeric characters of any script, dots and underscores. -/
def continuesWord (c : Char) : Bool := isAlphanumeric c || c = '.' || c = '_'

theorem continuesWord_of_startsWord {c : Char} (h : startsWord c = true) :
    continuesWord c = true := by
  simp only [startsWord, continuesWord, Bool.or_eq_true] at *
  rcases h with h | h
  · exact Or.inl (Or.inl (isAlphanumeric_of_isAlphanum (by simp [Char.isAlphanum, h])))
  · exact Or.inr h

/-- A blank ends a word. -/
theorem continuesWord_of_isBlank {c : Char} (h : isBlank c = true) : continuesWord c = false := by
  have blanks : ∀ r ∈ blankRanges, ∀ i < r.2 - r.1 + 1,
      continuesWord (Char.ofNat (r.1 + i)) = false := by
    decide +kernel
  obtain ⟨r, hr, first, last⟩ := covers_eq_true_iff.1 h
  have hc := blanks r hr (c.toNat - r.1) (by omega)
  rwa [Nat.add_sub_cancel' first, Char.ofNat_toNat] at hc

/-- The number that a list of decimal digits writes. -/
def decimal (digits : List Char) : Nat :=
  digits.foldl (fun n c => 10 * n + (c.toNat - 48)) 0

/-- A number is read from its digits, unless there are too many. -/
def numberPiece (digits : List Char) : Piece :=
  if digits.length ≤ longestNumeral then .lexeme digits (.number (decimal digits))
  else .overlong digits

@[simp] theorem text_numberPiece (digits : List Char) : (numberPiece digits).text = digits := by
  unfold numberPiece
  split <;> rfl

/-- A word is a keyword or a name. -/
def wordToken (word : String) : Token String :=
  match keywords.lookup word with
  | some m => .mark m none
  | none => .identifier word

/-- The piece that begins with `c` and goes on into `cs`, and what follows it. -/
def next (c : Char) (cs : List Char) : Piece × List Char :=
  if c.isDigit then
    (numberPiece (c :: cs.takeWhile Char.isDigit), cs.dropWhile Char.isDigit)
  else if startsWord c then
    let word := c :: cs.takeWhile continuesWord
    (.lexeme word (wordToken (String.ofList word)), cs.dropWhile continuesWord)
  else if c = '"' then
    let text := cs.takeWhile (· ≠ '"')
    let token : Token String := .quoted (String.ofList text)
    match cs.dropWhile (· ≠ '"') with
    | [] => (.lexeme (c :: text) token, [])
    | q :: rest => (.lexeme (c :: text ++ [q]) token, rest)
  else if isBlank c then (.blank c, cs)
  else
    match singleMarks.lookup c, cs with
    | none, _ => (.lexeme [c] (.error (String.singleton c)), cs)
    | some m, [] => (.lexeme [c] (.mark m none), [])
    | some m, d :: rest =>
      match doubleMarks.lookup (c, d) with
      | some m' => (.lexeme [c, d] (.mark m' none), rest)
      | none => (.lexeme [c] (.mark m none), d :: rest)

/-- A piece and what follows it make up the text. -/
theorem next_text (c : Char) (cs : List Char) : (next c cs).1.text ++ (next c cs).2 = c :: cs := by
  unfold next
  split
  · simp
  split
  · simp [Piece.text]
  split
  · dsimp only
    have h := List.takeWhile_append_dropWhile (p := fun x => decide (x ≠ '"')) (l := cs)
    split <;> rename_i hd <;> rw [hd] at h
    · simpa [Piece.text] using h
    · simpa [Piece.text] using h
  split
  · simp [Piece.text]
  · split
    · simp [Piece.text]
    · simp [Piece.text]
    · split <;> simp [Piece.text]

/-- No piece is empty. -/
theorem next_text_ne_nil (c : Char) (cs : List Char) : (next c cs).1.text ≠ [] := by
  unfold next
  split
  · simp
  split
  · simp [Piece.text]
  split
  · dsimp only
    split <;> simp [Piece.text]
  split
  · simp [Piece.text]
  · split
    · simp [Piece.text]
    · simp [Piece.text]
    · split <;> simp [Piece.text]

theorem length_next_le (c : Char) (cs : List Char) : (next c cs).2.length ≤ cs.length := by
  have h := congrArg List.length (next_text c cs)
  have pos := List.length_pos_iff.mpr (next_text_ne_nil c cs)
  simp only [List.length_append, List.length_cons] at h
  omega

def pieces : List Char → List Piece
  | [] => []
  | c :: cs => (next c cs).1 :: pieces (next c cs).2
termination_by cs => cs.length
decreasing_by
  have := length_next_le c cs
  simp only [List.length_cons]
  omega

/-- The pieces, written one after the other, are the text. -/
theorem flatMap_text_pieces (cs : List Char) : (pieces cs).flatMap Piece.text = cs := by
  fun_induction pieces cs with
  | case1 => rfl
  | case2 c cs ih => simp [ih, next_text]

/-- The tokens of the pieces in order. The first piece that is overlong ends the reading. -/
def tokens : List Piece → Except UnreadNumeral (List (Token String))
  | [] => .ok []
  | .blank _ :: ps => tokens ps
  | .lexeme _ token :: ps => (tokens ps).map (token :: ·)
  | .overlong digits :: _ => .error ⟨digits.length⟩

end LetLang.Scan

namespace LetLang

/-- The tokens of a source text, if all its numbers can be read. -/
def tokenize (source : String) : Except Text.UnreadNumeral (List (Token String)) :=
  Scan.tokens (Scan.pieces source.toList)

/-- The tokens that there are in a source text. Numbers that cannot be read are passed over. -/
def scan (source : String) : List (Token String) :=
  (Scan.pieces source.toList).filterMap Scan.Piece.token?

namespace Scan

/-- The places of the error tokens among pieces that begin at `offset`, each with its character, up
to a number that cannot be read. -/
def strayCharacters (offset : Nat) : List Piece → List (String × Nat)
  | [] => []
  | .overlong _ :: _ => []
  | .lexeme text (.error c) :: rest => (c, offset) :: strayCharacters (offset + text.length) rest
  | p :: rest => strayCharacters (offset + p.text.length) rest

/-- What the scanner reports of its work on a source text. -/
def notes (source : String) : List String :=
  let ps := pieces source.toList
  (strayCharacters 0 ps).map
      (fun s => "unrecognised character " ++ Text.quote s.1 ++ s!" at offset {s.2}") ++
    match tokens ps with
    | .ok ts => [s!"tokenized {source.length} characters into {ts.length} tokens"]
    | .error _ => []

end Scan

end LetLang
