import Mathlib

/-!
# Texts that cancel

Things are written one behind the other, so that a written text has to say by itself where it ends.
It may count on what does not follow: a number ends where no further digit stands.
-/

namespace LetLang.Text

variable {α β : Type} {code : α → List Char} {key : α → β} {p : Char → Bool} {a b : α}
  {c : Char} {cs rest x y : List Char}

/-- A run of characters of the class ends before `rest`. -/
def EndsRun (p : Char → Bool) (rest : List Char) : Prop := ∀ c ∈ rest.head?, p c = false

theorem endsRun_cons : EndsRun p (c :: rest) ↔ p c = false := by
  simp [EndsRun]

theorem takeWhile_append_of_endsRun (hcs : ∀ d ∈ cs, p d = true) (hrest : EndsRun p rest) :
    (cs ++ rest).takeWhile p = cs ∧ (cs ++ rest).dropWhile p = rest := by
  rw [List.takeWhile_append_of_pos hcs, List.dropWhile_append_of_pos hcs]
  cases rest with
  | nil => simp
  | cons d rest => simp [hrest d rfl]

theorem endsRun_dropWhile (p : Char → Bool) (cs : List Char) : EndsRun p (cs.dropWhile p) := by
  intro c hc
  have hnot := List.head?_dropWhile_not p cs
  rw [Option.mem_def.1 hc] at hnot
  exact hnot

/-- A text that begins with the text of `a` and with that of `b`, before no character of the class,
is split in one place only, and `a` and `b` have the same key. -/
def Cancels (code : α → List Char) (key : α → β) (p : Char → Bool) (a b : α) : Prop :=
  ∀ ⦃x y⦄, EndsRun p x → EndsRun p y → code a ++ x = code b ++ y → key a = key b ∧ x = y

theorem Cancels.key_eq (h : Cancels code key p a b) (heq : code a = code b) : key a = key b :=
  (h (x := []) (y := []) (by simp [EndsRun]) (by simp [EndsRun]) (by rw [heq])).1

theorem Cancels.mono {q : Char → Bool} (h : Cancels code key p a b)
    (hpq : ∀ c, p c = true → q c = true) : Cancels code key q a b := by
  have hends : ∀ x, EndsRun q x → EndsRun p x := by
    intro x hx c hc
    rw [Bool.eq_false_iff]
    intro hp
    exact absurd (hpq c hp) (by rw [hx c hc]; decide)
  exact fun x y hx hy heq => h (hends x hx) (hends y hy) heq

theorem Cancels.symm (h : Cancels code key p a b) : Cancels code key p b a := by
  intro x y hx hy heq
  obtain ⟨hkey, hxy⟩ := h hy hx heq.symm
  exact ⟨hkey.symm, hxy.symm⟩

theorem Cancels.behind (h : Cancels code key p a b) (before : List Char) :
    Cancels (fun a => before ++ code a) key p a b := by
  intro x y hx hy heq
  dsimp only at heq
  rw [List.append_assoc, List.append_assoc] at heq
  exact h hx hy (List.append_cancel_left heq)

/-- Whatever follows, the texts of `a` and `b` cancel if something that is read off the front of a
text, and what is left, are the key of each and what follows it. -/
theorem Cancels.of_read (read : List Char → Option (β × List Char))
    (hread : ∀ a x, read (code a ++ x) = some (key a, x)) : Cancels code key p a b := by
  intro x y _ _ h
  have hboth := (hread a x).symm.trans ((congrArg read h).trans (hread b y))
  exact Prod.mk.inj (Option.some.inj hboth)

/-- Texts that are told apart cancel where a run of the characters that they are made of ends. -/
theorem Cancels.of_run (hcode : ∀ a, ∀ c ∈ code a, p c = true)
    (hkey : code a = code b → key a = key b) : Cancels code key p a b := by
  intro x y hx hy h
  obtain ⟨ha, hax⟩ := takeWhile_append_of_endsRun (hcode a) hx
  obtain ⟨hb, hby⟩ := takeWhile_append_of_endsRun (hcode b) hy
  exact ⟨hkey (by rw [← ha, h, hb]), by rw [← hax, h, hby]⟩

theorem endsRun_flatMap_append {close : Char} (hopen : ∀ a, ∃ c cs, code a = c :: cs ∧ p c = false)
    (hclose : p close = false) (as : List α) (x : List Char) :
    EndsRun p (as.flatMap code ++ close :: x) := by
  cases as with
  | nil => exact endsRun_cons.2 hclose
  | cons a as =>
    obtain ⟨c, cs, hc, hp⟩ := hopen a
    rw [List.flatMap_cons, hc]
    exact endsRun_cons.2 hp

/-- A list is written item by item up to a closing character. Its items cancel if each does, none
begins with the closing character, and each may stand before the next one and before the end. -/
theorem map_eq_of_flatMap_append {close : Char} {as bs : List α}
    (hcode : ∀ a ∈ as, ∀ b ∈ bs, Cancels code key p a b)
    (hopen : ∀ a, ∃ c cs, code a = c :: cs ∧ p c = false ∧ c ≠ close) (hclose : p close = false)
    (h : as.flatMap code ++ close :: x = bs.flatMap code ++ close :: y) :
    as.map key = bs.map key ∧ x = y := by
  have hends := endsRun_flatMap_append (fun a => by
    obtain ⟨c, cs, hc, hp, -⟩ := hopen a
    exact ⟨c, cs, hc, hp⟩) hclose
  induction as generalizing bs with
  | nil =>
    cases bs with
    | nil => exact ⟨rfl, (List.cons.inj h).2⟩
    | cons b bs =>
      obtain ⟨c, cs, hc, -, hne⟩ := hopen b
      rw [List.flatMap_cons, hc] at h
      exact absurd (List.cons.inj h).1.symm hne
  | cons a as ih =>
    cases bs with
    | nil =>
      obtain ⟨c, cs, hc, -, hne⟩ := hopen a
      rw [List.flatMap_cons, hc] at h
      exact absurd (List.cons.inj h).1 hne
    | cons b bs =>
      rw [List.flatMap_cons, List.flatMap_cons, List.append_assoc, List.append_assoc] at h
      obtain ⟨hkey, hrest⟩ :=
        hcode a List.mem_cons_self b List.mem_cons_self (hends as x) (hends bs y) h
      obtain ⟨hkeys, hxy⟩ := ih (fun a ha b hb =>
        hcode a (List.mem_cons_of_mem _ ha) b (List.mem_cons_of_mem _ hb)) hrest
      exact ⟨by rw [List.map_cons, List.map_cons, hkey, hkeys], hxy⟩

theorem toList_intercalate_cons (sep s : String) (ss : List String) :
    (String.intercalate sep (s :: ss)).toList =
      s.toList ++ ss.flatMap fun t => sep.toList ++ t.toList := by
  rw [String.toList_intercalate, List.map_cons]
  induction ss generalizing s with
  | nil => simp
  | cons t ss ih =>
    rw [List.map_cons, List.intercalate_cons_cons, ih t]
    simp

theorem isDigit_of_mem_toDigits {n : Nat} : ∀ c ∈ Nat.toDigits 10 n, c.isDigit = true :=
  fun _ hc => Nat.isDigit_of_mem_toDigits (by decide) (by decide) hc

/-- A character that the text of a number can have. -/
def isNumeral (c : Char) : Bool := c.isDigit || c == '-'

theorem isNumeral_of_mem_toString (n : Int) : ∀ c ∈ (toString n).toList, isNumeral c = true := by
  have hdigits : ∀ (m : Nat), ∀ c ∈ (Nat.repr m).toList, isNumeral c = true := by
    intro m c hc
    rw [Nat.toList_repr] at hc
    exact Bool.or_eq_true_iff.2 (.inl (isDigit_of_mem_toDigits c hc))
  cases n with
  | ofNat m => exact hdigits m
  | negSucc m =>
    have hminus : toString (Int.negSucc m) = "-" ++ Nat.repr (m + 1) := rfl
    rw [hminus, String.toList_append]
    exact List.forall_mem_append.2 ⟨by simp [isNumeral], hdigits (m + 1)⟩

theorem cancels_toString (m n : Int) :
    Cancels (fun k : Int => (toString k).toList) id isNumeral m n :=
  .of_run isNumeral_of_mem_toString fun h => Int.repr_injective (String.toList_inj.1 h)

end LetLang.Text
