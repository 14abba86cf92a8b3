import LetLang.Proofs.Text.Cancel
import LetLang.Ty

/-!
# The texts of types

Where no function is the argument of another one, the text of a type says where it ends: a function
ends where no arrow follows, any other type ends by itself. Only the unit type and the product of
no types are written alike, so that two types with the same text are the same up to these two.
-/

namespace LetLang.Ty

open Text

variable {a b : Ty} {as bs : List Ty} {c : Char} {x y : List Char}

def isFunction : Ty → Bool
  | .function _ _ => true
  | _ => false

/-- The type is made without sums, foreign types and unknown ones, and no argument of a function in
it is itself a function. -/
inductive Ordinary : Ty → Prop
  | function {a b : Ty} : a.isFunction = false → Ordinary a → Ordinary b → Ordinary (.function a b)
  | product {as : List Ty} : (∀ a ∈ as, Ordinary a) → Ordinary (.product as)
  | array {a : Ty} {n : Int} : Ordinary a → Ordinary (.array a n)
  | atom (a : Atom) : Ordinary (.atom a)
  | unit : Ordinary .unit

mutual

/-- The type with the product of no types wherever the unit type stands in it. -/
def unitless : Ty → Ty
  | .function a b => .function a.unitless b.unitless
  | .product as => .product (unitlessList as)
  | .array a n => .array a.unitless n
  | .sum as => .sum (unitlessList as)
  | .unit => .product []
  | .atom a => .atom a
  | .foreign name => .foreign name
  | .unknown => .unknown

def unitlessList : List Ty → List Ty
  | [] => []
  | a :: as => a.unitless :: unitlessList as

end

theorem unitlessList_eq_map (as : List Ty) : unitlessList as = as.map unitless := by
  induction as with
  | nil => rfl
  | cons a as ih => rw [unitlessList, ih, List.map_cons]

theorem displayList_eq_map (as : List Ty) : displayList as = as.map display := by
  induction as with
  | nil => rfl
  | cons a as ih => rw [displayList, ih, List.map_cons]

mutual

theorem display_unitless : (a : Ty) → a.unitless.display = a.display
  | .function a b => by rw [unitless, display, display, display_unitless a, display_unitless b]
  | .product as => by rw [unitless, display, display, displayList_unitlessList as]
  | .array a n => by rw [unitless, display, display, display_unitless a]
  | .sum as => by rw [unitless, display, display, displayList_unitlessList as]
  | .unit => by decide
  | .atom _ => rfl
  | .foreign _ => rfl
  | .unknown => rfl

theorem displayList_unitlessList : (as : List Ty) → displayList (unitlessList as) = displayList as
  | [] => rfl
  | a :: as => by
    rw [unitlessList, displayList, displayList, display_unitless a, displayList_unitlessList as]

end

theorem display_array (a : Ty) (n : Int) :
    (array a n).display = "[" ++ a.display ++ ("; " ++ toString n ++ "]") := rfl

theorem display_product_nil : (product []).display = "()" := by decide

/-- An element of a product that is not the first one, behind its comma. -/
def laterElement (a : Ty) : List Char := ", ".toList ++ a.display.toList

theorem toList_display_product_cons (a : Ty) (as : List Ty) :
    (product (a :: as)).display.toList =
      '(' :: (a.display.toList ++ (as.flatMap laterElement ++ [')'])) := by
  have hlater : (as.map display).flatMap (fun s => ", ".toList ++ s.toList) =
      as.flatMap laterElement := List.flatMap_map ..
  have hinside : (String.intercalate ", " (displayList (a :: as))).toList =
      a.display.toList ++ as.flatMap laterElement := by
    rw [displayList_eq_map, ← hlater]
    exact toList_intercalate_cons ", " a.display (as.map display)
  simp [display, hinside]

/-- The text of an ordinary type does not begin with a closing bracket. -/
theorem Ordinary.display_append_ne (h : a.Ordinary) : a.display.toList ++ x ≠ ')' :: y := by
  induction h generalizing x with
  | function _ _ _ ih _ =>
    rw [display, String.toList_append, String.toList_append, List.append_assoc, List.append_assoc]
    exact ih
  | product => simp [display]
  | array => simp [display]
  | atom a => cases a <;> simp [display, Atom.name]
  | unit => simp [display]

/-- The texts of the two types cancel, if no space follows where one of them is a function. -/
def DisplayCancels (a b : Ty) : Prop :=
  Cancels (fun a : Ty => a.display.toList) unitless
    (fun c => (a.isFunction || b.isFunction) && c == ' ') a b

namespace DisplayCancels

/-- Before anything but a space all texts cancel. -/
theorem beforeOther (h : DisplayCancels a b) :
    Cancels (fun a : Ty => a.display.toList) unitless (fun c => c == ' ') a b :=
  h.mono fun _ hc => (Bool.and_eq_true_iff.1 hc).2

theorem symm (h : DisplayCancels a b) : DisplayCancels b a := by
  unfold DisplayCancels
  rw [Bool.or_comm]
  exact Cancels.symm h

/-- The texts of two types that are no functions cancel before anything. -/
theorem beforeAll (h : DisplayCancels a b) (ha : a.isFunction = false) (hb : b.isFunction = false) :
    Cancels (fun a : Ty => a.display.toList) unitless (fun _ => false) a b := by
  refine Cancels.mono h fun c hc => ?_
  rw [ha, hb] at hc
  exact hc

theorem atom (a b : Atom) : DisplayCancels (.atom a) (.atom b) := by
  intro x y _ _ h
  cases a <;> cases b <;> simp [display, Atom.name] at h <;> exact ⟨rfl, h⟩

theorem array {n m : Int} (h : DisplayCancels a b) : DisplayCancels (.array a n) (.array b m) := by
  intro x y _ _ heq
  have hinside : a.display.toList ++ ';' :: ' ' :: ((toString n).toList ++ ']' :: x) =
      b.display.toList ++ ';' :: ' ' :: ((toString m).toList ++ ']' :: y) := by
    simpa [display_array] using heq
  obtain ⟨hab, hrest⟩ := h.beforeOther (endsRun_cons.2 rfl) (endsRun_cons.2 rfl) hinside
  obtain ⟨hnm, hxy⟩ := cancels_toString n m (endsRun_cons.2 (by decide))
    (endsRun_cons.2 (by decide)) (List.cons.inj (List.cons.inj hrest).2).2
  have hnm : n = m := hnm
  refine ⟨?_, (List.cons.inj hxy).2⟩
  rw [unitless, unitless, hab, hnm]

theorem endsRun_laterElements (as : List Ty) (x : List Char) :
    EndsRun (fun c => c == ' ') (as.flatMap laterElement ++ ')' :: x) :=
  endsRun_flatMap_append (fun _ => ⟨',', _, rfl, rfl⟩) rfl as x

theorem map_eq_of_laterElements_append (h : ∀ a ∈ as, ∀ b ∈ bs, DisplayCancels a b)
    (heq : as.flatMap laterElement ++ ')' :: x = bs.flatMap laterElement ++ ')' :: y) :
    as.map unitless = bs.map unitless ∧ x = y :=
  map_eq_of_flatMap_append (fun a ha b hb => (h a ha b hb).beforeOther.behind ", ".toList)
    (fun _ => ⟨',', _, rfl, rfl, by decide⟩) rfl heq

theorem product (has : ∀ a ∈ as, a.Ordinary) (hbs : ∀ b ∈ bs, b.Ordinary)
    (h : ∀ a ∈ as, ∀ b ∈ bs, DisplayCancels a b) : DisplayCancels (.product as) (.product bs) := by
  intro x y _ _ heq
  cases as with
  | nil =>
    cases bs with
    | nil => exact ⟨rfl, List.append_cancel_left heq⟩
    | cons b bs =>
      have hinside : ')' :: x = b.display.toList ++ (bs.flatMap laterElement ++ ')' :: y) := by
        simpa [toList_display_product_cons, display_product_nil] using heq
      exact absurd hinside.symm (hbs b List.mem_cons_self).display_append_ne
  | cons a as =>
    cases bs with
    | nil =>
      have hinside : a.display.toList ++ (as.flatMap laterElement ++ ')' :: x) = ')' :: y := by
        simpa [toList_display_product_cons, display_product_nil] using heq
      exact absurd hinside (has a List.mem_cons_self).display_append_ne
    | cons b bs =>
      have hinside : a.display.toList ++ (as.flatMap laterElement ++ ')' :: x) =
          b.display.toList ++ (bs.flatMap laterElement ++ ')' :: y) := by
        simpa [toList_display_product_cons] using heq
      obtain ⟨hab, hrest⟩ := (h a List.mem_cons_self b List.mem_cons_self).beforeOther
        (endsRun_laterElements as x) (endsRun_laterElements bs y) hinside
      obtain ⟨hlists, hxy⟩ := map_eq_of_laterElements_append
        (fun a ha b hb => h a (List.mem_cons_of_mem _ ha) b (List.mem_cons_of_mem _ hb)) hrest
      refine ⟨?_, hxy⟩
      rw [unitless, unitless, unitlessList_eq_map, unitlessList_eq_map, List.map_cons,
        List.map_cons, hab, hlists]

theorem function {s t : Ty} (hs : s.isFunction = false) (ha : a.isFunction = false)
    (hsource : DisplayCancels a s) (htarget : DisplayCancels b t) :
    DisplayCancels (.function a b) (.function s t) := by
  intro x y hx hy heq
  have hparts : a.display.toList ++ (" -> ".toList ++ (b.display.toList ++ x)) =
      s.display.toList ++ (" -> ".toList ++ (t.display.toList ++ y)) := by
    simpa [display] using heq
  obtain ⟨has, hrest⟩ := hsource.beforeAll ha hs (fun _ _ => rfl) (fun _ _ => rfl) hparts
  obtain ⟨hbt, hxy⟩ := htarget.beforeOther hx hy (List.append_cancel_left hrest)
  refine ⟨?_, hxy⟩
  rw [unitless, unitless, has, hbt]

/-- A function is told from any other type by the arrow. -/
theorem function_link {s : Ty} (hs : s.isFunction = false) (ha : a.isFunction = false)
    (h : DisplayCancels a s) (b : Ty) : DisplayCancels (.function a b) s := by
  intro x y hx hy heq
  have hparts : a.display.toList ++ (" -> ".toList ++ (b.display.toList ++ x)) =
      s.display.toList ++ y := by
    simpa [display] using heq
  obtain ⟨-, hrest⟩ := h.beforeAll ha hs (fun _ _ => rfl) (fun _ _ => rfl) hparts
  have harrow : " -> ".toList = ' ' :: "-> ".toList := rfl
  rw [← hrest, harrow] at hy
  exact absurd (endsRun_cons.1 hy) (by simp [isFunction])

end DisplayCancels

/-- An ordinary type that cancels with all that are no functions cancels with all. -/
theorem displayCancels_of_links (ha : a.isFunction = false)
    (h : ∀ {b : Ty}, b.Ordinary → b.isFunction = false → DisplayCancels a b) (hb : b.Ordinary) :
    DisplayCancels a b := by
  cases hlink : b.isFunction with
  | false => exact h hb hlink
  | true =>
    cases hb with
    | function hs hsource _ =>
      exact (DisplayCancels.function_link ha hs (h hsource hs).symm _).symm
    | _ => cases hlink

/-- The unit type is written as the product of no types. -/
theorem displayCancels_unit (h : DisplayCancels (.product []) b) : DisplayCancels .unit b := by
  intro x y hx hy heq
  dsimp only at heq
  rw [← display_unitless .unit] at heq
  exact h hx hy heq

theorem displayCancels_product (has : ∀ a ∈ as, a.Ordinary)
    (h : ∀ a ∈ as, ∀ {b : Ty}, b.Ordinary → DisplayCancels a b) (hb : b.Ordinary) :
    DisplayCancels (.product as) b := by
  refine displayCancels_of_links rfl (fun hb hlink => ?_) hb
  cases hb with
  | function => cases hlink
  | product hbs => exact .product has hbs fun a ha b hb => h a ha (hbs b hb)
  | array => exact fun x y _ _ h => by simp [display] at h
  | atom b => exact fun x y _ _ h => by cases b <;> simp [display, Atom.name] at h
  | unit => exact (displayCancels_unit (.product (by simp) has (by simp))).symm

/-- The texts of ordinary types say where they end. -/
theorem Ordinary.displayCancels (ha : a.Ordinary) (hb : b.Ordinary) : DisplayCancels a b := by
  induction ha generalizing b with
  | function ha _ _ iha ihb =>
    cases hlink : b.isFunction with
    | false => exact .function_link hlink ha (iha hb) _
    | true =>
      cases hb with
      | function hs hsource htarget => exact .function hs ha (iha hsource) (ihb htarget)
      | _ => cases hlink
  | product has ih => exact displayCancels_product has (fun a ha _ hb => ih a ha hb) hb
  | array ha ih =>
    refine displayCancels_of_links rfl (fun hb hlink => ?_) hb
    cases hb with
    | function => cases hlink
    | array hb => exact .array (ih hb)
    | atom b => exact fun x y _ _ h => by cases b <;> simp [display, Atom.name] at h
    | _ => exact fun x y _ _ h => by simp [display] at h
  | atom a =>
    refine displayCancels_of_links rfl (fun hb hlink => ?_) hb
    cases hb with
    | function => cases hlink
    | atom b => exact .atom a b
    | _ => exact fun x y _ _ h => by cases a <;> simp [display, Atom.name] at h
  | unit => exact displayCancels_unit (displayCancels_product (by simp) (by simp) hb)

/-- Ordinary types with the same text are the same up to the unit type and the empty product. -/
theorem Ordinary.display_eq_iff (ha : a.Ordinary) (hb : b.Ordinary) :
    a.display = b.display ↔ a.unitless = b.unitless := by
  constructor
  · intro h
    exact Cancels.key_eq (ha.displayCancels hb) (congrArg String.toList h)
  · intro h
    rw [← display_unitless a, h, display_unitless b]

end LetLang.Ty
