import LetLang.Proofs.Text.Cancel
import LetLang.Text.Quoted

/-!
# Quoted text

What stands between the marks of a quoted text is read back character by character. The backslash
says that a code follows, and the letter behind it how long the code is, so that no text can close
the quotes before its end.
-/

namespace LetLang.Text

variable {mark c d : Char} {cs x : List Char}

def digitValue (c : Char) : Nat :=
  if c.isDigit then c.toNat - '0'.toNat else c.toNat - 'a'.toNat + 10

def hexValue (digits : List Char) : Nat := digits.foldl (fun n d => 16 * n + digitValue d) 0

theorem hexValue_hexDigits (width n : Nat) : hexValue (hexDigits width n) = n % 16 ^ width := by
  have hvalue : ∀ k < 16, digitValue (Nat.digitChar k) = k := by decide
  induction width generalizing n with
  | zero => exact (Nat.mod_one n).symm
  | succ width ih =>
    calc hexValue (hexDigits (width + 1) n)
        = 16 * hexValue (hexDigits width (n / 16)) + digitValue (Nat.digitChar (n % 16)) := by
          simp [hexDigits, hexValue]
      _ = 16 * (n / 16 % 16 ^ width) + n % 16 := by
          rw [ih, hvalue _ (Nat.mod_lt n (by decide))]
      _ = n % 16 ^ (width + 1) := by
          rw [Nat.pow_succ', Nat.mod_mul, Nat.add_comm]

/-- A character by its code point in `width` digits, and what follows them. -/
def readCode (width : Nat) (cs : List Char) : Option (Char × List Char) :=
  some (Char.ofNat (hexValue (cs.take width)), cs.drop width)

/-- The first character that is written in quoted text, and what follows it. -/
def readEscape : List Char → Option (Char × List Char)
  | [] => none
  | '\\' :: 'n' :: cs => some ('\n', cs)
  | '\\' :: 'r' :: cs => some ('\r', cs)
  | '\\' :: 't' :: cs => some ('\t', cs)
  | '\\' :: 'x' :: cs => readCode 2 cs
  | '\\' :: 'u' :: cs => readCode 4 cs
  | '\\' :: 'U' :: cs => readCode 8 cs
  | '\\' :: c :: cs => some (c, cs)
  | c :: cs => some (c, cs)

theorem readCode_hexDigits {width : Nat} (h : c.toNat < 16 ^ width) :
    readCode width (hexDigits width c.toNat ++ x) = some (c, x) := by
  have hlength := length_hexDigits width c.toNat
  rw [readCode, List.take_left' hlength, List.drop_left' hlength, hexValue_hexDigits,
    Nat.mod_eq_of_lt h, Char.ofNat_toNat]

/-- One of the two characters that quoted text can stand between. -/
def IsMark (mark : Char) : Prop := mark = '\x27' ∨ mark = '"'

theorem isMark_quoteMark (cs : List Char) : IsMark (quoteMark cs) := by
  unfold quoteMark
  split_ifs
  · exact .inr rfl
  · exact .inl rfl

theorem readEscape_of_ne (h : c ≠ '\\') (x : List Char) : readEscape (c :: x) = some (c, x) := by
  rw [readEscape.eq_def]
  split
  · contradiction
  all_goals
    next heq =>
    cases heq
    first | rfl | contradiction

theorem readEscape_escape (hmark : IsMark mark) (c : Char) (x : List Char) :
    readEscape (escape mark c ++ x) = some (c, x) := by
  have hcode : c.toNat < 16 ^ 8 := by
    rcases c.valid with h | ⟨-, h⟩
    · exact h.trans (by decide)
    · exact h.trans (by decide)
  unfold escape
  split_ifs with hself hn hr ht hprint hx hu
  · rcases hself with rfl | rfl
    · rcases hmark with rfl | rfl <;> rfl
    · rfl
  · rw [hn]
    rfl
  · rw [hr]
    rfl
  · rw [ht]
    rfl
  · have hne : c ≠ '\\' := fun h => hself (.inr h)
    exact readEscape_of_ne hne x
  · exact readCode_hexDigits hx
  · exact readCode_hexDigits hu
  · exact readCode_hexDigits hcode

theorem cancels_escape (hmark : IsMark mark) (c d : Char) :
    Cancels (escape mark) id (fun _ => false) c d :=
  .of_read readEscape (readEscape_escape hmark)

/-- No character inside the quotes begins with the mark. -/
theorem escape_eq_cons (hmark : IsMark mark) (c : Char) :
    ∃ d ds, escape mark c = d :: ds ∧ d ≠ mark := by
  have hbackslash : '\\' ≠ mark := by rcases hmark with rfl | rfl <;> decide
  unfold escape
  split_ifs with hself
  -- a printable character stands for itself
  on_goal 5 => exact ⟨c, [], rfl, fun h => hself (.inl h)⟩
  all_goals exact ⟨_, _, rfl, hbackslash⟩

/-- The end of a quoted text is where its quotes are closed. -/
theorem cancels_quoteChars (cs ds : List Char) :
    Cancels quoteChars id (fun _ => false) cs ds := by
  intro x y _ _ h
  have hmark : quoteMark cs = quoteMark ds := (List.cons.inj h).1
  simp only [quoteChars, hmark, List.cons_append, List.append_assoc] at h
  have hopen : ∀ c, ∃ d es, escape (quoteMark ds) c = d :: es ∧
      false = false ∧ d ≠ quoteMark ds := by
    intro c
    obtain ⟨d, es, hd, hne⟩ := escape_eq_cons (isMark_quoteMark ds) c
    exact ⟨d, es, hd, rfl, hne⟩
  obtain ⟨hmap, hxy⟩ := map_eq_of_flatMap_append
    (fun c _ d _ => cancels_escape (isMark_quoteMark ds) c d)
    hopen rfl (List.cons.inj h).2
  exact ⟨by simpa using hmap, hxy⟩

theorem cancels_quote (s t : String) :
    Cancels (fun s : String => (quote s).toList) id (fun _ => false) s t := by
  intro x y hx hy h
  simp only [quote, String.toList_ofList] at h
  obtain ⟨hst, hxy⟩ := cancels_quoteChars s.toList t.toList hx hy h
  exact ⟨String.toList_inj.1 hst, hxy⟩

theorem isAlphanum_of_mem_hexDigits {width n : Nat} (h : c ∈ hexDigits width n) :
    c.isAlphanum = true := by
  have hdigit : ∀ k < 16, (Nat.digitChar k).isAlphanum = true := by decide
  induction width generalizing n with
  | zero => cases h
  | succ width ih =>
    rcases List.mem_append.1 h with h | h
    · exact ih h
    · obtain rfl := List.mem_singleton.1 h
      exact hdigit _ (Nat.mod_lt n (by decide))

/-- A character is escaped into itself, backslashes, letters and digits. A newline stays as it is
only where it is the mark. -/
theorem mem_escape (h : d ∈ escape mark c) :
    d = c ∧ (c = '\n' → c = mark) ∨ d = '\\' ∨ d.isAlphanum = true := by
  have hcode : ∀ {x : Char} {w n : Nat}, x.isAlphanum = true →
      d ∈ '\\' :: x :: hexDigits w n → d = '\\' ∨ d.isAlphanum = true := by
    intro x w n hx hd
    rcases List.mem_cons.1 hd with rfl | hd
    · exact .inl rfl
    · rcases List.mem_cons.1 hd with rfl | hd
      · exact .inr hx
      · exact .inr (isAlphanum_of_mem_hexDigits hd)
  unfold escape at h
  split_ifs at h with hself hnewline
  · rcases (by simpa using h : d = '\\' ∨ d = c) with rfl | rfl
    · exact .inr (.inl rfl)
    · refine .inl ⟨rfl, ?_⟩
      rintro rfl
      exact hself.resolve_right (by decide)
  -- the three letters are codes without digits
  · exact .inr (hcode (w := 0) (n := 0) (by decide) h)
  · exact .inr (hcode (w := 0) (n := 0) (by decide) h)
  · exact .inr (hcode (w := 0) (n := 0) (by decide) h)
  · obtain rfl := List.mem_singleton.1 h
    exact .inl ⟨rfl, fun h => absurd h hnewline⟩
  · exact .inr (hcode (by decide) h)
  · exact .inr (hcode (by decide) h)
  · exact .inr (hcode (by decide) h)

/-- The text between the marks of a quoted text without double quotes. -/
theorem not_mem_flatMap_escape (mark : Char) {cs : List Char} (hmark : mark ≠ '\n')
    (hcs : '"' ∉ cs) :
    '"' ∉ cs.flatMap (escape mark) ∧ '\n' ∉ cs.flatMap (escape mark) := by
  constructor
  · intro h
    obtain ⟨c, hc, h⟩ := List.mem_flatMap.1 h
    rcases mem_escape h with ⟨rfl, -⟩ | h | h
    · exact hcs hc
    · exact absurd h (by decide)
    · exact absurd h (by decide)
  · intro h
    obtain ⟨c, hc, h⟩ := List.mem_flatMap.1 h
    rcases mem_escape h with ⟨hself, h⟩ | h | h
    · exact hmark ((h hself.symm).symm.trans hself.symm)
    · exact absurd h (by decide)
    · exact absurd h (by decide)

end LetLang.Text
