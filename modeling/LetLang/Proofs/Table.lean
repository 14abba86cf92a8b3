import LetLang.Table
import Mathlib.Data.List.Forall2

/-!
# Reading tables that were made from lists

A table made from a list of entries gives for every key the value of the last entry with that key.
-/

namespace LetLang.Table

variable {κ α β : Type} [DecidableEq κ]

def last? (key : κ) : List (κ × α) → Option α
  | [] => none
  | e :: es => (last? key es).or (if e.1 = key then some e.2 else none)

theorem last?_append (key : κ) (es fs : List (κ × α)) :
    last? key (es ++ fs) = (last? key fs).or (last? key es) := by
  induction es with
  | nil => simp [last?]
  | cons e es ih => rw [List.cons_append, last?, ih, last?, Option.or_assoc]

theorem get?_foldl_insert (t : Table κ α) (key : κ) (es : List (κ × α)) :
    (es.foldl (fun t e => t.insert e.1 e.2) t).get? key = (last? key es).or (t.get? key) := by
  induction es generalizing t with
  | nil => simp [last?]
  | cons e es ih =>
    rw [List.foldl_cons, ih, get?_insert, last?, Option.or_assoc]
    split <;> simp

@[simp] theorem get?_ofList (key : κ) (es : List (κ × α)) :
    (ofList es).get? key = last? key es := by
  rw [ofList, get?_foldl_insert, get?_empty, Option.or_none]

theorem last?_eq_none_iff {key : κ} {es : List (κ × α)} :
    last? key es = none ↔ ∀ e ∈ es, e.1 ≠ key := by
  induction es with
  | nil => simp [last?]
  | cons e es ih => simp [last?, Option.or_eq_none_iff, ih, and_comm]

theorem mem_of_last?_eq_some {key : κ} {a : α} {es : List (κ × α)} (h : last? key es = some a) :
    (key, a) ∈ es := by
  induction es with
  | nil => cases h
  | cons e es ih =>
    rw [last?, Option.or_eq_some_iff] at h
    rcases h with h | ⟨-, h⟩
    · exact List.mem_cons_of_mem _ (ih h)
    · split at h
      · next hk => cases h; cases hk; exact List.mem_cons_self
      · cases h

/-- Where no key comes twice, every entry is found. -/
theorem last?_eq_some_of_nodup {key : κ} {a : α} {es : List (κ × α)}
    (hn : (es.map Prod.fst).Nodup) (h : (key, a) ∈ es) : last? key es = some a := by
  induction es with
  | nil => cases h
  | cons e es ih =>
    rw [List.map_cons, List.nodup_cons] at hn
    rcases List.mem_cons.1 h with rfl | h
    · have hnone : last? key es = none := by
        rw [last?_eq_none_iff]
        intro e' he hkey
        exact hn.1 (List.mem_map.2 ⟨e', he, hkey⟩)
      simp [last?, hnone]
    · rw [last?, ih hn.2 h, Option.some_or]

/-- Where no key comes twice, the order of the entries does not matter. -/
theorem last?_eq_of_perm {es fs : List (κ × α)} (h : es.Perm fs) (hn : (es.map Prod.fst).Nodup)
    (key : κ) : last? key es = last? key fs := by
  cases hlast : last? key es with
  | none =>
    rw [last?_eq_none_iff] at hlast
    exact (last?_eq_none_iff.2 fun e he => hlast e (h.mem_iff.2 he)).symm
  | some a =>
    have hmem := h.mem_iff.1 (mem_of_last?_eq_some hlast)
    exact (last?_eq_some_of_nodup ((h.map Prod.fst).nodup_iff.1 hn) hmem).symm

section
variable {R : α → β → Prop} {a a' : Option α} {b b' : Option β}

theorem rel_eq_none_iff (h : Option.Rel R a b) : a = none ↔ b = none := by
  cases h <;> simp

/-- The alternatives have to agree only if there is nothing else. -/
theorem rel_or (h : Option.Rel R a b) (h' : a = none → b = none → Option.Rel R a' b') :
    Option.Rel R (a.or a') (b.or b') := by
  cases h with
  | some h => exact .some h
  | none => exact h' rfl rfl

end

/-- Entries that agree pair by pair give values that agree. -/
theorem rel_last? {R : α → β → Prop} {es : List (κ × α)} {fs : List (κ × β)}
    (h : List.Forall₂ (fun e f => e.1 = f.1 ∧ R e.2 f.2) es fs) (key : κ) :
    Option.Rel R (last? key es) (last? key fs) := by
  induction h with
  | nil => exact .none
  | @cons e f es fs hef _ ih =>
    obtain ⟨hk, hr⟩ := hef
    rw [last?, last?, ← hk]
    refine rel_or ih fun _ _ => ?_
    split
    · exact .some hr
    · exact .none

/-- A table of values that depend on the key alone. -/
theorem last?_map (key : κ) (ks : List κ) (f : κ → α) :
    last? key (ks.map fun k => (k, f k)) = if key ∈ ks then some (f key) else none := by
  induction ks with
  | nil => rfl
  | cons k ks ih =>
    rw [List.map_cons, last?, ih]
    by_cases hmem : key ∈ ks
    · simp [hmem]
    · by_cases hk : k = key
      · simp [hmem, hk]
      · simp [hmem, hk, Ne.symm hk]

theorem mem_keys_iff {t : Table κ α} {key : κ} : key ∈ t.keys ↔ (t.get? key).isSome := by
  obtain ⟨es⟩ := t
  unfold keys get?
  induction es with
  | nil => simp [lookup]
  | cons e es ih =>
    rw [List.map_cons, List.mem_cons, ih, lookup]
    split
    · next hk => simp [hk]
    · next hk => simp [Ne.symm hk]

/-- A table of values that depend on the keys of another table alone. -/
theorem get?_ofList_keys (t : Table κ α) (f : κ → β) (key : κ) :
    (ofList (t.keys.map fun k => (k, f k))).get? key = (t.get? key).map fun _ => f key := by
  rw [get?_ofList, last?_map]
  cases h : t.get? key with
  | none => rw [if_neg (by simp [mem_keys_iff, h]), Option.map_none]
  | some a => rw [if_pos (by simp [mem_keys_iff, h]), Option.map_some]

end LetLang.Table
