import LetLang.Drawing
import LetLang.Proofs.Text.Cancel
import LetLang.Token.Scan

/-!
# Reading DOT text back

The reader knows the lines that drawings are written in, and how DOT ends a quoted string: at the
first double quote that no backslash stands before. It asks for nothing but the characters between.
-/

namespace LetLang.Drawing

open Text (EndsRun endsRun_cons takeWhile_append_of_endsRun isDigit_of_mem_toDigits)

/-- An edge as it is read: its ends with their labels, and its own label. -/
structure Row where
  source : Int
  sourceLabel : String
  target : Int
  targetLabel : String
  label : String
  deriving Repr, DecidableEq

def Row.edge (r : Row) : Int × Int := (r.source, r.target)

/-- The inside of a quoted string whose first mark is read already, and what follows the last
mark. -/
def readQuoted : List Char → Option (List Char × List Char)
  | [] => none
  | '\\' :: '"' :: cs => (readQuoted cs).map fun r => ('"' :: r.1, r.2)
  | '"' :: cs => some ([], cs)
  | c :: cs => (readQuoted cs).map fun r => (c :: r.1, r.2)

/-- What follows some characters that have to come first. -/
def skip : (first : List Char) → List Char → Option (List Char)
  | [], cs => some cs
  | d :: ds, c :: cs => if d = c then skip ds cs else none
  | _ :: _, [] => none

/-- A quoted string that has to come after some characters. -/
def readField (before : String) (cs : List Char) : Option (List Char × List Char) :=
  (skip before.toList cs).bind fun rest => (skip ['"'] rest).bind readQuoted

/-- The number of a vertex and its label, with a blank between. -/
def readVertex (cs : List Char) : Option (Int × String) :=
  match cs.takeWhile Char.isDigit, cs.dropWhile Char.isDigit with
  | d :: ds, ' ' :: label => some (Scan.decimal (d :: ds), String.ofList label)
  | _, _ => none

def readRow (line : List Char) : Option Row := do
  let (source, rest) ← readField "  " line
  let (target, rest) ← readField " -> " rest
  let (label, rest) ← readField " [ label=" rest
  let (sourceId, sourceLabel) ← readVertex source
  let (targetId, targetLabel) ← readVertex target
  if rest = " ];".toList then
    some ⟨sourceId, sourceLabel, targetId, targetLabel, String.ofList label⟩
  else none

def readRows : List (List Char) → Option (List Row)
  | [] => none
  | [['\x7d'], []] => some []
  | line :: lines => do return (← readRow line) :: (← readRows lines)

def readDot (text : String) : Option (List Row) :=
  match text.toList.splitOn '\n' with
  | first :: lines => if first = "digraph G \x7b".toList then readRows lines else none
  | [] => none

section
variable {ds cs rest : List Char} {before : String}

theorem skip_eq_some_iff : skip ds cs = some rest ↔ cs = ds ++ rest := by
  induction ds generalizing cs with
  | nil => simp [skip]
  | cons d ds ih =>
    cases cs with
    | nil => simp [skip]
    | cons c cs =>
      rw [skip, List.cons_append, List.cons.injEq, ← ih, eq_comm (a := c)]
      split <;> simp_all

theorem readQuoted_cons {c : Char} (hc : c ≠ '"') (hcs : c = '\\' → cs.head? ≠ some '"') :
    readQuoted (c :: cs) = (readQuoted cs).map fun r => (c :: r.1, r.2) := by
  rw [readQuoted.eq_def]
  split <;> simp_all

/-- Without double quotes, and without a backslash at its end, a string is read as it is
written. -/
theorem readQuoted_append (hquote : '"' ∉ cs) (hlast : cs.getLast? ≠ some '\\') :
    readQuoted (cs ++ '"' :: rest) = some (cs, rest) := by
  induction cs with
  | nil => rfl
  | cons c cs ih =>
    rw [List.mem_cons, not_or] at hquote
    have hnext : c = '\\' → (cs ++ '"' :: rest).head? ≠ some '"' := by
      rintro rfl
      cases cs with
      | nil => exact absurd rfl hlast
      | cons d cs =>
        rintro ⟨⟩
        exact hquote.2 List.mem_cons_self
    rw [List.cons_append, readQuoted_cons (Ne.symm hquote.1) hnext, ih hquote.2]
    · rfl
    · cases cs with
      | nil => simp
      | cons d cs => rwa [List.getLast?_cons_cons] at hlast

theorem readField_eq_some_iff {value : List Char} : readField before cs = some (value, rest) ↔
    ∃ inside, cs = before.toList ++ '"' :: inside ∧ readQuoted inside = some (value, rest) := by
  simp only [readField, Option.bind_eq_some_iff, skip_eq_some_iff]
  constructor
  · rintro ⟨_, rfl, inside, rfl, hread⟩
    exact ⟨inside, rfl, hread⟩
  · rintro ⟨inside, rfl, hread⟩
    exact ⟨_, rfl, inside, rfl, hread⟩

/-- A field is read where it is written. -/
theorem readField_append (hquote : '"' ∉ cs) (hlast : cs.getLast? ≠ some '\\') :
    readField before (before.toList ++ '"' :: (cs ++ '"' :: rest)) = some (cs, rest) :=
  readField_eq_some_iff.2 ⟨_, rfl, readQuoted_append hquote hlast⟩

/-- No field is read where other characters than those before it come first. -/
theorem readField_eq_none (hbefore : '"' ∉ before.toList) (hquote : '"' ∉ cs)
    (hne : cs ≠ before.toList) : readField before (cs ++ '"' :: rest) = none := by
  rw [Option.eq_none_iff_forall_ne_some]
  rintro ⟨value, after⟩ hread
  obtain ⟨inside, heq, -⟩ := readField_eq_some_iff.1 hread
  -- both sides are cut at their first double quote
  have hcut := congrArg (List.splitOn '"') heq
  rw [List.splitOn_append_cons_self_of_not_mem hquote,
    List.splitOn_append_cons_self_of_not_mem hbefore] at hcut
  exact hne (List.cons.inj hcut).1

end

/-- The text can stand inside of a quoted string as it is. -/
structure Legible (s : String) : Prop where
  quote : '"' ∉ s.toList
  line : '\n' ∉ s.toList
  last : s.toList.getLast? ≠ some '\\'

theorem legible_iff {s : String} :
    Legible s ↔ '"' ∉ s.toList ∧ '\n' ∉ s.toList ∧ s.toList.getLast? ≠ some '\\' :=
  ⟨fun h => ⟨h.quote, h.line, h.last⟩, fun h => ⟨h.1, h.2.1, h.2.2⟩⟩

instance (s : String) : Decidable (Legible s) := decidable_of_iff' _ legible_iff

/-- The text ends a quoted string early, and what follows has an apostrophe in it. -/
inductive Torn (s : String) : Prop
  | intro {before inside after : List Char} :
      s.toList = before ++ '"' :: (inside ++ '"' :: after) → '"' ∉ before →
      before.getLast? ≠ some '\\' → '"' ∉ inside → '\x27' ∈ inside → '\n' ∉ s.toList → Torn s

def vertexText (v : Int) (label : String) : String := s!"{v} " ++ label

def Row.chars (r : Row) : List Char :=
  "  ".toList ++ '"' :: ((vertexText r.source r.sourceLabel).toList ++ '"' ::
    (" -> ".toList ++ '"' :: ((vertexText r.target r.targetLabel).toList ++ '"' ::
      (" [ label=".toList ++ '"' :: (r.label.toList ++ '"' :: " ];".toList)))))

theorem toList_vertexText (n : Nat) (label : String) :
    (vertexText n label).toList = Nat.toDigits 10 n ++ ' ' :: label.toList := by
  simp [vertexText, Int.repr_eq_if, toString]

theorem readVertex_vertexText (n : Nat) (label : String) :
    readVertex (vertexText n label).toList = some ((n : Int), label) := by
  obtain ⟨d, ds, hds⟩ := List.exists_cons_of_ne_nil (Nat.toDigits_ne_nil (n := n) (b := 10))
  have hdigits := isDigit_of_mem_toDigits (n := n)
  have hends : EndsRun Char.isDigit (' ' :: label.toList) := endsRun_cons.2 (by decide)
  obtain ⟨htake, hdrop⟩ := takeWhile_append_of_endsRun hdigits hends
  have hdecimal : Scan.decimal (d :: ds) = n := by
    rw [← hds]
    exact Nat.ofDigitChars_ten_toDigits
  rw [readVertex, toList_vertexText, htake, hdrop, hds]
  simp only [hdecimal, String.ofList_toList]

theorem not_mem_toDigits {n : Nat} {c : Char} (h : c.isDigit = false) :
    c ∉ Nat.toDigits 10 n := by
  intro hc
  rw [isDigit_of_mem_toDigits c hc] at h
  cases h

/-- Among the digits of a number and the blank after it are none of the characters that matter. -/
theorem not_mem_toDigits_blank {n : Nat} {c : Char} (hdigit : c.isDigit = false)
    (hblank : c ≠ ' ') : c ∉ Nat.toDigits 10 n ++ [' '] := by
  rw [List.mem_append, List.mem_singleton, not_or]
  exact ⟨not_mem_toDigits hdigit, hblank⟩

theorem toList_vertexText_blank (n : Nat) (label : String) :
    (vertexText n label).toList = (Nat.toDigits 10 n ++ [' ']) ++ label.toList := by
  rw [toList_vertexText, List.append_assoc]
  rfl

theorem getLast?_toDigits_blank {n : Nat} {cs : List Char} (h : cs.getLast? ≠ some '\\') :
    ((Nat.toDigits 10 n ++ [' ']) ++ cs).getLast? ≠ some '\\' := by
  cases cs with
  | nil => simp
  | cons c cs => simpa [List.getLast?_append] using h

theorem legible_vertexText (n : Nat) {label : String} (h : Legible label) :
    Legible (vertexText n label) := by
  have htext := toList_vertexText_blank n label
  refine ⟨?_, ?_, ?_⟩
  · rw [htext, List.mem_append, not_or]
    exact ⟨not_mem_toDigits_blank (by decide) (by decide), h.quote⟩
  · rw [htext, List.mem_append, not_or]
    exact ⟨not_mem_toDigits_blank (by decide) (by decide), h.line⟩
  · rw [htext]
    exact getLast?_toDigits_blank h.last

theorem torn_vertexText (n : Nat) {label : String} (h : Torn label) :
    Torn (vertexText n label) := by
  obtain ⟨hlabel, hbefore, hlast, hinside, hapostrophe, hline⟩ := h
  have htext := toList_vertexText_blank n label
  rw [hlabel, ← List.append_assoc] at htext
  refine .intro htext ?_ (getLast?_toDigits_blank hlast) hinside hapostrophe ?_
  · rw [List.mem_append, not_or]
    exact ⟨not_mem_toDigits_blank (by decide) (by decide), hbefore⟩
  · rw [toList_vertexText_blank, List.mem_append, not_or]
    exact ⟨not_mem_toDigits_blank (by decide) (by decide), hline⟩

/-- After a torn text the next field is not found. -/
theorem readField_torn {β : Type} {s before after : String} {rest : List Char} (h : Torn s)
    (hquote : '"' ∉ after.toList) (hapostrophe : '\x27' ∉ after.toList)
    (next : List Char × List Char → List Char × List Char → Option β) :
    ((readField before (before.toList ++ '"' :: (s.toList ++ '"' :: rest))).bind fun f =>
      (readField after f.2).bind (next f)) = none := by
  obtain ⟨hs, hbefore, hlast, hinside, hin, -⟩ := h
  rw [hs, List.append_assoc, List.cons_append, readField_append hbefore hlast, Option.bind_some,
    List.append_assoc, List.cons_append, readField_eq_none hquote hinside, Option.bind_none]
  rintro rfl
  exact hapostrophe hin

section
variable {r : Row} {m n : Nat}

theorem readRow_chars (hsource : r.source = m) (htarget : r.target = n)
    (hs : Legible r.sourceLabel) (ht : Legible r.targetLabel) (hl : Legible r.label) :
    readRow r.chars = some r := by
  obtain ⟨source, sourceLabel, target, targetLabel, label⟩ := r
  obtain rfl : source = m := hsource
  obtain rfl : target = n := htarget
  have hs' := legible_vertexText m hs
  have ht' := legible_vertexText n ht
  simp only [readRow, Row.chars, readField_append hs'.quote hs'.last,
    readField_append ht'.quote ht'.last, readField_append hl.quote hl.last, readVertex_vertexText,
    Option.bind_eq_bind, Option.bind_some, if_true, String.ofList_toList]

theorem readRow_of_torn_source (hsource : r.source = m) (hs : Torn r.sourceLabel) :
    readRow r.chars = none := by
  have htext := torn_vertexText m hs
  rw [← hsource] at htext
  simp only [readRow, Row.chars, Option.bind_eq_bind]
  exact readField_torn htext (by decide) (by decide) _

theorem readRow_of_torn_target (hsource : r.source = m) (htarget : r.target = n)
    (hs : Legible r.sourceLabel) (ht : Torn r.targetLabel) : readRow r.chars = none := by
  have hs' := legible_vertexText m hs
  have htext := torn_vertexText n ht
  rw [← hsource] at hs'
  rw [← htarget] at htext
  simp only [readRow, Row.chars, Option.bind_eq_bind, readField_append hs'.quote hs'.last,
    Option.bind_some]
  exact readField_torn htext (by decide) (by decide) _

end

end LetLang.Drawing
