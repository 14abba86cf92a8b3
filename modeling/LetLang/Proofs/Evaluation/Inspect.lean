import LetLang.Evaluation
import LetLang.Proofs.Step
import LetLang.Proofs.Text.Quoted

/-!
# Inspecting values

The inspected text of a value says by itself where it ends, whatever follows it. So no text or name
in a value can imitate the brackets and commas around it, and values with the same inspected text
are the same. Every value has such a text if its numbers can be written.
-/

namespace LetLang

open Text

namespace Value

variable {α : Type} {a b : α} {v w : Value} {vs ws : List Value} {x y : List Char}

@[simp] theorem inspect_number (n : Int) :
    (number n).inspect = "Number(value=" ++ toString n ++ ")" := rfl

@[simp] theorem inspect_boolean (b : Bool) :
    (boolean b).inspect = "Boolean(value=" ++ (if b then "True" else "False") ++ ")" := by
  cases b <;> rfl

@[simp] theorem inspect_tuple (vs : List Value) :
    (tuple vs).inspect = "Tuple(elements=(" ++ listing (inspectList vs) ++ "))" := rfl

@[simp] theorem inspect_function (name : String) :
    (function name).inspect = "Function(name=" ++ quote name ++ ")" := rfl

@[simp] theorem inspect_text (s : String) :
    (text s).inspect = "Text(text=" ++ quote s ++ ")" := rfl

@[simp] theorem inspect_array (vs : List Value) :
    (array vs).inspect = "Array(elements=(" ++ listing (inspectList vs) ++ "))" := rfl

@[simp] theorem inspect_foreign (vs : List Value) :
    (foreign vs).inspect = "ExternValue(elements=(" ++ listing (inspectList vs) ++ "))" := rfl

@[simp] theorem inspect_void : void.inspect = "VoidValue()" := rfl

theorem inspectList_eq_map (vs : List Value) : inspectList vs = vs.map inspect := by
  induction vs with
  | nil => rfl
  | cons v vs ih => rw [inspectList, ih, List.map_cons]

/-- The inspected texts of the two values cancel in front of anything. -/
def InspectCancels (v w : Value) : Prop :=
  Cancels (fun v : Value => v.inspect.toList) id (fun _ => false) v w

/-- An item of a list that is not the first one, behind its comma. -/
def laterItem (v : Value) : List Char := ", ".toList ++ v.inspect.toList

def laterItems : List Value → List Char
  | [] => [',']
  | vs => vs.flatMap laterItem

theorem toList_listing_cons (v : Value) (vs : List Value) :
    (listing (inspectList (v :: vs))).toList = v.inspect.toList ++ laterItems vs := by
  rw [inspectList_eq_map]
  cases vs with
  | nil => exact String.toList_append
  | cons w vs =>
    have htail : ((w :: vs).map inspect).flatMap (fun t => ", ".toList ++ t.toList) =
        (w :: vs).flatMap laterItem := List.flatMap_map ..
    have hlater : laterItems (w :: vs) = (w :: vs).flatMap laterItem := rfl
    rw [hlater, ← htail]
    exact toList_intercalate_cons ", " v.inspect ((w :: vs).map inspect)

theorem eq_of_laterItems_append (hvs : ∀ v ∈ vs, ∀ w, InspectCancels v w)
    (h : laterItems vs ++ ')' :: x = laterItems ws ++ ')' :: y) : vs = ws ∧ x = y := by
  have hcomma : ∀ v, ∃ c cs, laterItem v = c :: cs ∧ false = false ∧ c ≠ ')' :=
    fun v => ⟨',', _, rfl, rfl, by decide⟩
  cases vs with
  | nil =>
    cases ws with
    | nil => simpa [laterItems] using h
    | cons w ws => simp [laterItems, laterItem] at h
  | cons v vs =>
    cases ws with
    | nil => simp [laterItems, laterItem] at h
    | cons w ws =>
      obtain ⟨hlists, hxy⟩ := map_eq_of_flatMap_append
        (fun v hv w _ => (hvs v hv w).behind ", ".toList) hcomma rfl h
      exact ⟨by simpa using hlists, hxy⟩

theorem inspect_append_ne (v : Value) : v.inspect.toList ++ x ≠ ')' :: y := by
  cases v <;> simp

/-- The inspected items of a list cancel with the bracket behind them, if each item does. -/
theorem cancels_listing (hvs : ∀ v ∈ vs, ∀ w, InspectCancels v w) :
    Cancels (fun vs => (listing (inspectList vs) ++ ")").toList) id (fun _ => false) vs ws := by
  intro x y hx hy h
  simp only [String.toList_append, List.append_assoc] at h
  cases vs with
  | nil =>
    cases ws with
    | nil => exact ⟨rfl, (List.cons.inj h).2⟩
    | cons w ws =>
      rw [toList_listing_cons, List.append_assoc] at h
      exact absurd h.symm (inspect_append_ne w)
  | cons v vs =>
    cases ws with
    | nil =>
      rw [toList_listing_cons, List.append_assoc] at h
      exact absurd h (inspect_append_ne v)
    | cons w ws =>
      obtain ⟨hv, hrest⟩ := List.forall_mem_cons.1 hvs
      rw [toList_listing_cons, toList_listing_cons, List.append_assoc, List.append_assoc] at h
      obtain ⟨hvw, htail⟩ := hv w (fun _ _ => rfl) (fun _ _ => rfl) h
      obtain ⟨hlists, hxy⟩ := eq_of_laterItems_append hrest htail
      exact ⟨congrArg₂ List.cons hvw hlists, hxy⟩

/-- Values of one kind cancel if what is written between the name of the kind and the last bracket
does. -/
theorem inspectCancels_of_inside {make : α → Value} {inside : α → String} {p : Char → Bool}
    (kind : String) (hmake : ∀ a, (make a).inspect = kind ++ inside a ++ ")")
    (hclose : p ')' = false) (h : Cancels (fun a => (inside a).toList) id p a b) :
    InspectCancels (make a) (make b) := by
  intro x y _ _ heq
  simp only [hmake, String.toList_append, List.append_assoc] at heq
  obtain ⟨hab, hxy⟩ := h (endsRun_cons.2 hclose) (endsRun_cons.2 hclose)
    (List.append_cancel_left heq)
  exact ⟨congrArg make hab, (List.cons.inj hxy).2⟩

theorem inspectCancels_of_elements {make : List Value → Value} (kind : String)
    (hmake : ∀ vs, (make vs).inspect = kind ++ listing (inspectList vs) ++ "))")
    (hvs : ∀ v ∈ vs, ∀ w, InspectCancels v w) : InspectCancels (make vs) (make ws) := by
  have hinside : ∀ vs, (make vs).inspect = kind ++ (listing (inspectList vs) ++ ")") ++ ")" := by
    intro vs
    rw [hmake]
    simp [← String.toList_inj]
  exact inspectCancels_of_inside kind hinside rfl (cancels_listing hvs)

theorem cancels_truth (b b' : Bool) :
    Cancels (fun b => (if b then "True" else "False").toList) id (fun _ => false) b b' := by
  intro x y _ _ h
  cases b <;> cases b'
  · exact ⟨rfl, by simpa using h⟩
  · simp at h
  · simp at h
  · exact ⟨rfl, by simpa using h⟩

/-- The inspected text of a value ends by itself, and no other value has it. -/
theorem inspectCancels : (v : Value) → (w : Value) → InspectCancels v w
  | .number n => fun w => by
    cases w with
    | number m =>
      exact inspectCancels_of_inside "Number(value=" inspect_number (by decide)
        (cancels_toString n m)
    | _ => exact fun x y _ _ h => by simp at h
  | .boolean b => fun w => by
    cases w with
    | boolean b' =>
      exact inspectCancels_of_inside "Boolean(value=" inspect_boolean rfl (cancels_truth b b')
    | _ => exact fun x y _ _ h => by simp at h
  | .tuple vs => fun w => by
    cases w with
    | tuple ws =>
      exact inspectCancels_of_elements "Tuple(elements=(" inspect_tuple
        fun v _ w => inspectCancels v w
    | _ => exact fun x y _ _ h => by simp at h
  | .function name => fun w => by
    cases w with
    | function name' =>
      exact inspectCancels_of_inside "Function(name=" inspect_function rfl
        (cancels_quote name name')
    | _ => exact fun x y _ _ h => by simp at h
  | .text s => fun w => by
    cases w with
    | text t => exact inspectCancels_of_inside "Text(text=" inspect_text rfl (cancels_quote s t)
    | _ => exact fun x y _ _ h => by simp at h
  | .array vs => fun w => by
    cases w with
    | array ws =>
      exact inspectCancels_of_elements "Array(elements=(" inspect_array
        fun v _ w => inspectCancels v w
    | _ => exact fun x y _ _ h => by simp at h
  | .foreign vs => fun w => by
    cases w with
    | foreign ws =>
      exact inspectCancels_of_elements "ExternValue(elements=(" inspect_foreign
        fun v _ w => inspectCancels v w
    | _ => exact fun x y _ _ h => by simp at h
  | .void => fun w => by
    cases w with
    | void => exact fun x y _ _ h => ⟨rfl, List.append_cancel_left h⟩
    | _ => exact fun x y _ _ h => by simp at h

/-- Two values are the same if their inspected texts are. -/
theorem inspect_inj : v.inspect = w.inspect ↔ v = w :=
  ⟨fun h => (inspectCancels v w).key_eq (congrArg String.toList h), fun h => h ▸ rfl⟩

end Value

namespace Evaluation

variable {f f' : Frame} {v w : Value}

theorem perform_inspect (m : Machine) (h : f.environment.get? nativeParameter = some v) :
    perform m .inspect f =
      if v.hasText then .ok (some (.text v.inspect)) f else .error (.failed (.unwritten v)) f := by
  have hlook : look nativeParameter f = .ok (some v) f := by
    rw [← h]
    rfl
  have hargument : nativeArgument "std.to_string" f = .ok v f := bind_of_ok hlook
  refine (bind_of_ok hargument).trans ?_
  unfold inspected
  split <;> rfl

/-- `std.to_string` gives a text for every argument whose numbers can be written, and the same text
for two arguments only if they are the same value. -/
theorem perform_inspect_inj (m m' : Machine) (hv : f.environment.get? nativeParameter = some v)
    (hw : f'.environment.get? nativeParameter = some w) :
    ((∃ s, perform m .inspect f = .ok (some (.text s)) f) ↔ v.hasText = true) ∧
      ∀ s t g g', perform m .inspect f = .ok (some (.text s)) g →
        perform m' .inspect f' = .ok (some (.text t)) g' → (s = t ↔ v = w) := by
  rw [perform_inspect m hv, perform_inspect m' hw]
  refine ⟨by split <;> simp_all, fun s t g g' hs ht => ?_⟩
  split at hs
  · split at ht
    · cases hs
      cases ht
      exact Value.inspect_inj
    · cases ht
  · cases hs

/-- A text that holds what stands between two texts is told apart from the two texts. -/
theorem perform_inspect_imitation :
    let m : Machine := ⟨.empty, ∅, .empty⟩
    let f : Frame := ⟨.ofList [(nativeParameter, .tuple [.text "a", .text "b"])], ""⟩
    let f' : Frame := ⟨.ofList [(nativeParameter, .tuple [.text "a'), Text(text='b"])], ""⟩
    ∃ s t, perform m .inspect f = .ok (some (.text s)) f ∧
      perform m .inspect f' = .ok (some (.text t)) f' ∧ s ≠ t := by
  intro m f f'
  have hf : f.environment.get? nativeParameter = some (.tuple [.text "a", .text "b"]) := rfl
  have hf' : f'.environment.get? nativeParameter = some (.tuple [.text "a'), Text(text='b"]) := rfl
  obtain ⟨hgives, hinj⟩ := perform_inspect_inj m m hf hf'
  obtain ⟨s, hs⟩ := hgives.2 rfl
  obtain ⟨t, ht⟩ := (perform_inspect_inj m m hf' hf).1.2 rfl
  refine ⟨s, t, hs, ht, fun heq => ?_⟩
  exact absurd ((hinj s t f f' hs ht).1 heq) (by decide)

end Evaluation

end LetLang
