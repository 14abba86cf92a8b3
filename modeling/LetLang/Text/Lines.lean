import LetLang.Text.Range

/-!
# Lines

A text is cut into lines at its line boundaries: at the separators of lines, paragraphs, pages and
records, and at a carriage return and a newline together. The boundaries are left out, and after the
last one there is no line without characters.
-/

namespace LetLang.Text

def boundaryRanges : List CharRange :=
  [(0xa, 0xd), (0x1c, 0x1e), (0x85, 0x85), (0x2028, 0x2029)]

def endsLine (c : Char) : Bool := covers boundaryRanges c.toNat

/-- The lines of a text that goes on a line; the characters of that line are given last one
first. -/
def linesAfter (line : List Char) : List Char → List (List Char)
  | [] => if line.isEmpty then [] else [line.reverse]
  | '\r' :: '\n' :: cs => line.reverse :: linesAfter [] cs
  | c :: cs => if endsLine c then line.reverse :: linesAfter [] cs else linesAfter (c :: line) cs

def lines (s : String) : List String := (linesAfter [] s.toList).map String.ofList

end LetLang.Text
