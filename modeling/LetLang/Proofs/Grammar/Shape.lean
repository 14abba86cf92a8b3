import LetLang.Grammar
import LetLang.Proofs.Token.Unread

/-!
# The shape of parsed trees

Not every tree is written by some source text. A parsed tree has names in the places of names, types
of a few simple forms, no listing of exactly one element in round or curly brackets, and neither a
file nor a type where an expression belongs. The main statement is that whatever the grammar reads
from scanned tokens has this shape.
-/

namespace LetLang

/-- A word that no keyword takes. -/
structure IsName (word : String) : Prop where
  written : ∃ c cs, word.toList = c :: cs ∧ Scan.startsWord c = true ∧
    ∀ d ∈ cs, Scan.continuesWord d = true
  free : keywords.lookup word = none

/-- The token is one that the scanner can make. -/
def Token.Scanned : Token String → Prop
  | .number n => 0 ≤ n
  | .identifier name => IsName name
  | .quoted text => '"' ∉ text.toList
  | _ => True

namespace Tree

/-- A type name, or an array type over one. -/
inductive IsTypeAtom : Tree String → Prop
  | name {n : String} : IsName n → IsTypeAtom (.typeName n)
  | array {n : String} {length : Int} : IsName n → 0 ≤ length →
      IsTypeAtom (.arrayType (.typeName n) length)

/-- What stands between the arrows of a function type. -/
inductive IsTypeLink : Tree String → Prop
  | atom {t : Tree String} : t.IsTypeAtom → IsTypeLink t
  | product {ts : List (Tree String)} : ts.length ≠ 1 → (∀ t ∈ ts, t.IsTypeAtom) →
      IsTypeLink (.productType ts)

/-- Links joined by arrows. -/
inductive IsTypeOption : Tree String → Prop
  | link {t : Tree String} : t.IsTypeLink → IsTypeOption t
  | function {s t : Tree String} : s.IsTypeLink → IsTypeOption t →
      IsTypeOption (.functionType s t)

/-- The type of a binding: an option, or a sum of several. -/
inductive IsTypeExpression : Tree String → Prop
  | option {t : Tree String} : t.IsTypeOption → IsTypeExpression t
  | sum {ts : List (Tree String)} : 2 ≤ ts.length → (∀ t ∈ ts, t.IsTypeOption) →
      IsTypeExpression (.sumType ts)

def IsParameter (t : Tree String) : Prop := ∃ n, t = .identifier n ∧ IsName n

/-- The trees of statements and expressions that source texts write. -/
inductive IsParsed : Tree String → Prop
  | identifier {n : String} : IsName n → IsParsed (.identifier n)
  | text {s : String} : '"' ∉ s.toList → IsParsed (.text s)
  | number {n : Int} : 0 ≤ n → IsParsed (.number n)
  | boolean (b : Bool) : IsParsed (.boolean b)
  | array {ts : List (Tree String)} : (∀ t ∈ ts, IsParsed t) → IsParsed (.array ts)
  | tuple {ts : List (Tree String)} : ts.length ≠ 1 → (∀ t ∈ ts, IsParsed t) →
      IsParsed (.tuple ts)
  | block {ts : List (Tree String)} : ts.length ≠ 1 → (∀ t ∈ ts, IsParsed t) →
      IsParsed (.block ts)
  | lambda {ps : List (Tree String)} {b : Tree String} : (∀ p ∈ ps, p.IsParameter) →
      IsParsed b → IsParsed (.lambda ps b)
  | apply {f a : Tree String} : IsParsed f → IsParsed a → IsParsed (.apply f a)
  | binary {l r : Tree String} (op : Operator) : IsParsed l → IsParsed r →
      IsParsed (.binary l r op)
  | bind {i t v : Tree String} : i.IsParameter → t.IsTypeExpression → IsParsed v →
      IsParsed (.bind i t v)

/-- An induction over parsed trees in which a lambda under a name counts by its body only. -/
theorem IsParsed.inductionOnBodies {motive : (t : Tree String) → t.IsParsed → Prop}
    (identifier : ∀ {n : String} (hn : IsName n), motive (.identifier n) (.identifier hn))
    (text : ∀ {s : String} (hs : '"' ∉ s.toList), motive (.text s) (.text hs))
    (number : ∀ {n : Int} (hn : 0 ≤ n), motive (.number n) (.number hn))
    (boolean : ∀ b : Bool, motive (.boolean b) (.boolean b))
    (array : ∀ {ts : List (Tree String)} (hts : ∀ t ∈ ts, IsParsed t),
      (∀ t (ht : t ∈ ts), motive t (hts t ht)) → motive (.array ts) (.array hts))
    (tuple : ∀ {ts : List (Tree String)} (hlen : ts.length ≠ 1) (hts : ∀ t ∈ ts, IsParsed t),
      (∀ t (ht : t ∈ ts), motive t (hts t ht)) → motive (.tuple ts) (.tuple hlen hts))
    (block : ∀ {ts : List (Tree String)} (hlen : ts.length ≠ 1) (hts : ∀ t ∈ ts, IsParsed t),
      (∀ t (ht : t ∈ ts), motive t (hts t ht)) → motive (.block ts) (.block hlen hts))
    (lambda : ∀ {ps : List (Tree String)} {b : Tree String} (hps : ∀ p ∈ ps, p.IsParameter)
      (hb : IsParsed b), motive b hb → motive (.lambda ps b) (.lambda hps hb))
    (apply : ∀ {f a : Tree String} (hf : IsParsed f) (ha : IsParsed a), motive f hf →
      motive a ha → motive (.apply f a) (.apply hf ha))
    (binary : ∀ {l r : Tree String} (op : Operator) (hl : IsParsed l) (hr : IsParsed r),
      motive l hl → motive r hr → motive (.binary l r op) (.binary op hl hr))
    (function : ∀ {i t b : Tree String} {ps : List (Tree String)} (hi : i.IsParameter)
      (ht : t.IsTypeExpression) (hps : ∀ p ∈ ps, p.IsParameter) (hb : IsParsed b), motive b hb →
      motive (.bind i t (.lambda ps b)) (.bind hi ht (.lambda hps hb)))
    (bind : ∀ {i t v : Tree String} (hi : i.IsParameter) (ht : t.IsTypeExpression)
      (hv : IsParsed v), (∀ ps b, v ≠ .lambda ps b) → motive v hv →
      motive (.bind i t v) (.bind hi ht hv))
    {t : Tree String} (h : t.IsParsed) : motive t h := by
  have hboth : motive t h ∧ ∀ ps b (hb : IsParsed b), t = .lambda ps b → motive b hb := by
    induction h with
    | identifier hn => exact ⟨identifier hn, by simp⟩
    | text hs => exact ⟨text hs, by simp⟩
    | number hn => exact ⟨number hn, by simp⟩
    | boolean b => exact ⟨boolean b, by simp⟩
    | array hts ih => exact ⟨array hts fun t ht => (ih t ht).1, by simp⟩
    | tuple hlen hts ih => exact ⟨tuple hlen hts fun t ht => (ih t ht).1, by simp⟩
    | block hlen hts ih => exact ⟨block hlen hts fun t ht => (ih t ht).1, by simp⟩
    | lambda hps hb ih =>
      refine ⟨lambda hps hb ih.1, ?_⟩
      rintro _ _ _ ⟨⟩
      exact ih.1
    | apply hf ha ihf iha => exact ⟨apply hf ha ihf.1 iha.1, by simp⟩
    | binary op hl hr ihl ihr => exact ⟨binary op hl hr ihl.1 ihr.1, by simp⟩
    | bind hi ht hv ih =>
      refine ⟨?_, by simp⟩
      cases hv with
      | lambda hps hb => exact function hi ht hps hb (ih.2 _ _ hb rfl)
      | _ => exact bind hi ht _ (by simp) ih.1
  exact hboth.1

/-- The binding of a lambda to a name. -/
def IsDefinition (t : Tree String) : Prop :=
  ∃ x type ps body, t = .bind (.identifier x) type (.lambda ps body)

def boundName? : Tree String → Option String
  | .bind (.identifier x) _ _ => some x
  | _ => none

end Tree

namespace Scan

theorem scanned_wordToken {c : Char} {cs : List Char} (hc : startsWord c = true)
    (hcs : ∀ d ∈ cs, continuesWord d = true) :
    (wordToken (String.ofList (c :: cs))).Scanned := by
  unfold wordToken
  split
  · exact trivial
  · next h => exact ⟨⟨c, cs, by simp, hc, hcs⟩, h⟩

theorem scanned_next {c : Char} {cs : List Char} {t : Token String}
    (h : (next c cs).1.token? = some t) : t.Scanned := by
  unfold next at h
  split at h
  · unfold numberPiece at h
    split at h
    · simp only [Piece.token?, Option.some.injEq] at h
      subst h
      simp [Token.Scanned]
    · cases h
  split at h
  · next hc =>
    simp only [Piece.token?, Option.some.injEq] at h
    subst h
    exact scanned_wordToken hc fun d hd =>
      List.all_eq_true.1 List.all_takeWhile d hd
  split at h
  · dsimp only at h
    split at h <;> simp only [Piece.token?, Option.some.injEq] at h <;> subst h <;>
      simp only [Token.Scanned, String.toList_ofList] <;>
      exact fun hq => by simpa using List.all_eq_true.1 List.all_takeWhile _ hq
  split at h
  · simp [Piece.token?] at h
  · split at h
    · simp only [Piece.token?, Option.some.injEq] at h
      subst h
      exact trivial
    · simp only [Piece.token?, Option.some.injEq] at h
      subst h
      exact trivial
    · split at h <;> simp only [Piece.token?, Option.some.injEq] at h <;> subst h <;>
        exact trivial

theorem scanned_pieces {cs : List Char} {p : Piece} (hp : p ∈ pieces cs) {t : Token String}
    (h : p.token? = some t) : t.Scanned := by
  fun_induction pieces cs with
  | case1 => simp at hp
  | case2 c cs ih =>
    rcases List.mem_cons.1 hp with rfl | hp
    · exact scanned_next h
    · exact ih hp

end Scan

/-- The scanner makes scanned tokens only. -/
theorem scanned_scan {source : String} {t : Token String} (h : t ∈ scan source) : t.Scanned := by
  simp only [scan, List.mem_filterMap] at h
  obtain ⟨p, hp, ht⟩ := h
  exact Scan.scanned_pieces hp ht

namespace Reading

variable {α β : Type} {ts us : List (Token String)} {P : α → Prop} {Q : β → Prop}

/-- What was read satisfies `P`, and the tokens left over are still scanned ones. -/
def Yields (P : α → Prop) : Reading α ts → Prop
  | .ok a rest _ => P a ∧ ∀ t ∈ rest, t.Scanned
  | .error .. => True

theorem Yields.map {r : Reading α ts} {f : α → β} (h : r.Yields P) (hf : ∀ a, P a → Q (f a)) :
    (r.map f).Yields Q := by
  cases r with
  | ok a rest _ => exact ⟨hf a h.1, h.2⟩
  | error => exact trivial

theorem Yields.mono {R : α → Prop} {r : Reading α ts} (h : r.Yields P)
    (hPR : ∀ a, P a → R a) : r.Yields R := by
  cases r with
  | ok a rest _ => exact ⟨hPR a h.1, h.2⟩
  | error => exact trivial

theorem Yields.widen {r : Reading α us} (h : r.Yields P) (hle : us.length ≤ ts.length) :
    (r.widen hle).Yields P := by
  cases r with
  | ok => exact h
  | error => exact trivial

theorem Yields.andThen {r : Reading α ts}
    {next : α → (us : List (Token String)) → us.length < ts.length → Reading β us}
    (h : r.Yields P)
    (hnext : ∀ a us hlt, P a → (∀ t ∈ us, t.Scanned) → (next a us hlt).Yields Q) :
    (r.andThen next).Yields Q := by
  cases r with
  | ok a rest hlt => exact (hnext a rest hlt h.1 h.2).widen (Nat.le_of_lt hlt)
  | error => exact trivial

theorem Yields.extend {R : α → Prop} {r : Reading α ts}
    {next : α → (us : List (Token String)) → us.length < ts.length → Option (Reading α us)}
    (h : r.Yields P) (hPR : ∀ a, P a → R a)
    (hnext : ∀ a us hlt r', P a → (∀ t ∈ us, t.Scanned) → next a us hlt = some r' →
      r'.Yields R) :
    (r.extend next).Yields R := by
  cases r with
  | ok a rest hlt =>
    cases hr : next a rest hlt with
    | none => simpa only [Reading.extend, hr] using ⟨hPR a h.1, h.2⟩
    | some r' =>
      simpa only [Reading.extend, hr] using
        (hnext a rest hlt r' h.1 h.2 hr).widen (Nat.le_of_lt hlt)
  | error => exact trivial

end Reading

namespace Grammar

open Reading

variable {ts : List (Token String)}

theorem yields_expect (m : Mark) (h : ∀ t ∈ ts, t.Scanned) :
    (expect m ts).Yields fun _ => True := by
  cases ts with
  | nil => exact trivial
  | cons t ts =>
    by_cases ht : t.is m = true
    · simpa [expect, ht, Yields] using fun u hu => h u (List.mem_cons_of_mem _ hu)
    · simp [expect, ht, Yields]

theorem yields_name (h : ∀ t ∈ ts, t.Scanned) : (name ts).Yields IsName := by
  unfold name
  split
  · exact trivial
  · next n _ => exact ⟨h (.identifier n) (by simp), fun u hu => h u (List.mem_cons_of_mem _ hu)⟩
  · exact trivial

theorem yields_arrayLength (h : ∀ t ∈ ts, t.Scanned) : (arrayLength ts).Yields (0 ≤ ·) := by
  unfold arrayLength
  split
  · exact trivial
  · next n _ => exact ⟨h (.number n) (by simp), fun u hu => h u (List.mem_cons_of_mem _ hu)⟩
  · exact trivial

theorem yields_arrayType (h : ∀ t ∈ ts, t.Scanned) :
    (arrayType ts).Yields Tree.IsTypeAtom := by
  refine (yields_expect _ h).andThen fun _ us _ _ hus => ?_
  refine (yields_name hus).andThen fun n us _ hn hus => ?_
  refine (yields_expect _ hus).andThen fun _ us _ _ hus => ?_
  refine (yields_arrayLength hus).andThen fun l us _ hl hus => ?_
  exact (yields_expect _ hus).map fun _ _ => .array hn hl

theorem yields_typeAtom (h : ∀ t ∈ ts, t.Scanned) : (typeAtom ts).Yields Tree.IsTypeAtom := by
  unfold typeAtom
  split
  · exact yields_arrayType h
  · exact (yields_name h).map fun n hn => .name hn

theorem yields_moreTypeAtoms (ts : List (Token String)) (h : ∀ t ∈ ts, t.Scanned) :
    (moreTypeAtoms ts).Yields fun us => ∀ t ∈ us, t.IsTypeAtom := by
  unfold moreTypeAtoms
  split
  · exact (yields_expect _ h).map fun _ _ => by simp
  · refine (yields_expect _ h).andThen fun _ us _ _ hus => ?_
    refine (yields_typeAtom hus).andThen fun t vs _ ht hvs => ?_
    refine (yields_moreTypeAtoms vs hvs).map fun rest hrest => ?_
    simpa using ⟨ht, hrest⟩
termination_by ts.length

theorem isTypeLink_productOf {t : Tree String} {rest : List (Tree String)} (ht : t.IsTypeAtom)
    (hrest : ∀ u ∈ rest, u.IsTypeAtom) : (productOf (t :: rest)).IsTypeLink := by
  cases rest with
  | nil => exact .atom ht
  | cons u rest => exact .product (by simp) (by simpa using ⟨ht, by simpa using hrest⟩)

theorem yields_productType (h : ∀ t ∈ ts, t.Scanned) :
    (productType ts).Yields Tree.IsTypeLink := by
  unfold productType
  split
  · refine (yields_expect _ h).andThen fun _ us _ _ hus => ?_
    split
    · exact (yields_expect _ hus).map fun _ _ => .product (by simp) (by simp)
    · refine (yields_typeAtom hus).andThen fun t vs _ ht hvs => ?_
      exact (yields_moreTypeAtoms vs hvs).map fun rest hrest => isTypeLink_productOf ht hrest
  · exact (yields_typeAtom h).mono fun t => .atom

theorem yields_functionType (ts : List (Token String)) (h : ∀ t ∈ ts, t.Scanned) :
    (functionType ts).Yields Tree.IsTypeOption := by
  unfold functionType
  refine (yields_productType h).extend (fun _ => .link) fun s us hus r hs hscanned hr => ?_
  split at hr
  · cases hr
    refine (yields_expect _ hscanned).andThen fun _ vs hvs _ hvs' => ?_
    exact (yields_functionType vs hvs').map fun t ht => .function hs ht
  · cases hr
termination_by ts.length

theorem yields_typeOptions (ts : List (Token String)) (h : ∀ t ∈ ts, t.Scanned) :
    (typeOptions ts).Yields fun os => os ≠ [] ∧ ∀ o ∈ os, o.IsTypeOption := by
  unfold typeOptions
  have first : ((functionType ts).map ([·])).Yields fun os => os ≠ [] ∧ ∀ o ∈ os, o.IsTypeOption :=
    (yields_functionType ts h).map fun t ht => by simpa using ht
  refine first.extend (fun _ => id) fun os us hus r hos hscanned hr => ?_
  split at hr
  · cases hr
    refine (yields_expect _ hscanned).andThen fun _ vs hvs _ hvs' => ?_
    refine (yields_typeOptions vs hvs').map fun rest hrest => ⟨by simp [hos.1], fun o ho => ?_⟩
    rcases List.mem_append.1 ho with ho | ho
    · exact hos.2 o ho
    · exact hrest.2 o ho
  · cases hr
termination_by ts.length

theorem isTypeExpression_sumOf {os : List (Tree String)} (hne : os ≠ [])
    (h : ∀ o ∈ os, o.IsTypeOption) : (sumOf os).IsTypeExpression := by
  match os with
  | [o] => exact .option (h o (by simp))
  | _ :: _ :: _ => exact .sum (by simp) h

theorem yields_type (h : ∀ t ∈ ts, t.Scanned) : (type ts).Yields Tree.IsTypeExpression := by
  unfold type
  split
  · exact (yields_arrayType h).mono fun t ht => .option (.link (.atom ht))
  · exact (yields_typeOptions ts h).map fun os hos => isTypeExpression_sumOf hos.1 hos.2

theorem yields_names (ts : List (Token String)) (h : ∀ t ∈ ts, t.Scanned) :
    (names ts).Yields fun ns => ∀ n ∈ ns, IsName n := by
  unfold names
  have first : ((name ts).map ([·])).Yields fun ns => ∀ n ∈ ns, IsName n :=
    (yields_name h).map fun n hn => by simpa using hn
  refine first.extend (fun _ => id) fun ns us hus r hns hscanned hr => ?_
  split at hr
  · cases hr
    refine (yields_expect _ hscanned).andThen fun _ vs hvs _ hvs' => ?_
    refine (yields_names vs hvs').map fun rest hrest n hn => ?_
    rcases List.mem_append.1 hn with hn | hn
    · exact hns n hn
    · exact hrest n hn
  · cases hr
termination_by ts.length

theorem yields_parameters (h : ∀ t ∈ ts, t.Scanned) :
    (parameters ts).Yields fun ps => ∀ p ∈ ps, p.IsParameter := by
  unfold parameters
  split
  · refine (yields_expect _ h).andThen fun _ us _ _ hus => ?_
    split
    · exact (yields_expect _ hus).map fun _ _ => by simp
    · refine (yields_names us hus).andThen fun ns vs _ hns hvs => ?_
      refine (yields_expect _ hvs).map fun _ _ p hp => ?_
      obtain ⟨n, hn, rfl⟩ := List.mem_map.1 hp
      exact ⟨n, rfl, hns n hn⟩
  · refine (yields_name h).map fun n hn p hp => ?_
    rw [List.mem_singleton.1 hp]
    exact ⟨n, rfl, hn⟩

theorem isParsed_build (l : Listing) {items : List (Tree String)}
    (h : ∀ t ∈ items, t.IsParsed) : (l.build items).IsParsed := by
  cases l with
  | array => exact .array h
  | tuple =>
    match items with
    | [] => exact .tuple (by simp) h
    | [t] => exact h t (by simp)
    | _ :: _ :: _ => exact .tuple (by simp) h
  | block =>
    match items with
    | [] => exact .block (by simp) h
    | [t] => exact h t (by simp)
    | _ :: _ :: _ => exact .block (by simp) h

-- The recursion is that of the rules themselves: fewer tokens, or as many and a lower rank.
mutual

theorem yields_expression (ts : List (Token String)) (h : ∀ t ∈ ts, t.Scanned) :
    (expression ts).Yields Tree.IsParsed := by
  unfold expression
  refine (yields_application ts h).extend (fun _ => id) fun l us hus r hl hscanned hr => ?_
  cases us with
  | nil => cases hr
  | cons t vs =>
    have hvs : vs.length < ts.length := Nat.lt_trans (by simp) hus
    dsimp only at hr
    split at hr
    · cases hr
      have hright := yields_expression vs fun u hu => hscanned u (List.mem_cons_of_mem _ hu)
      exact (hright.map fun r hr => .binary _ hl hr).widen _
    · cases hr
termination_by (ts.length, 4)

theorem yields_application (ts : List (Token String)) (h : ∀ t ∈ ts, t.Scanned) :
    (application ts).Yields Tree.IsParsed := by
  unfold application
  refine (yields_lambda ts h).extend (fun _ => id) fun f us hus r hf hscanned hr => ?_
  split at hr
  · split at hr
    · cases hr
      exact (yields_lambda us hscanned).map fun a ha => .apply hf ha
    · cases hr
  · cases hr
termination_by (ts.length, 3)

theorem yields_lambda (ts : List (Token String)) (h : ∀ t ∈ ts, t.Scanned) :
    (lambda ts).Yields Tree.IsParsed := by
  unfold lambda
  split
  · refine (yields_expect _ h).andThen fun _ us hus _ hscanned => ?_
    refine (yields_parameters hscanned).andThen fun ps vs hvs hps hscanned => ?_
    refine (yields_expect _ hscanned).andThen fun _ ws hws _ hscanned => ?_
    have hlt : ws.length < ts.length := by omega
    exact (yields_expression ws hscanned).map fun b hb => .lambda hps hb
  · exact yields_value ts h
termination_by (ts.length, 2)

theorem yields_value (ts : List (Token String)) (h : ∀ t ∈ ts, t.Scanned) :
    (value ts).Yields Tree.IsParsed := by
  match ts, h with
  | [], _ => unfold value; exact trivial
  | .identifier n :: us, h =>
    unfold value
    exact ⟨.identifier (h (.identifier n) (by simp)), fun u hu => h u (List.mem_cons_of_mem _ hu)⟩
  | .quoted s :: us, h =>
    unfold value
    exact ⟨.text (h (.quoted s) (by simp)), fun u hu => h u (List.mem_cons_of_mem _ hu)⟩
  | .number n :: us, h =>
    unfold value
    exact ⟨.number (h (.number n) (by simp)), fun u hu => h u (List.mem_cons_of_mem _ hu)⟩
  | .error s :: us, _ => unfold value; exact trivial
  | .mark m note :: us, h =>
    unfold value
    have hus : ∀ t ∈ us, t.Scanned := fun u hu => h u (List.mem_cons_of_mem _ hu)
    split
    · exact ⟨.boolean true, hus⟩
    split
    · exact ⟨.boolean false, hus⟩
    split
    · exact yields_listing .array _ h
    split
    · exact yields_listing .tuple _ h
    split
    · exact yields_listing .block _ h
    · exact trivial
termination_by (ts.length, 1)

theorem yields_listing (l : Listing) (ts : List (Token String)) (h : ∀ t ∈ ts, t.Scanned) :
    (listing l ts).Yields Tree.IsParsed := by
  unfold listing
  refine (yields_expect _ h).andThen fun _ us hus _ hscanned => ?_
  exact (yields_items l us hscanned).map fun ts hts => isParsed_build l hts
termination_by (ts.length, 0)

theorem yields_items (l : Listing) (ts : List (Token String)) (h : ∀ t ∈ ts, t.Scanned) :
    (items l ts).Yields fun us => ∀ t ∈ us, t.IsParsed := by
  unfold items
  split
  · exact (yields_expect _ h).map fun _ _ => by simp
  · refine (yields_item l ts h).andThen fun t us hus ht hscanned => ?_
    exact (yields_moreItems l us hscanned).map fun rest hrest => by simpa using ⟨ht, hrest⟩
termination_by (ts.length, 7)

theorem yields_moreItems (l : Listing) (ts : List (Token String)) (h : ∀ t ∈ ts, t.Scanned) :
    (moreItems l ts).Yields fun us => ∀ t ∈ us, t.IsParsed := by
  unfold moreItems
  split
  · exact (yields_expect _ h).map fun _ _ => by simp
  · refine (yields_expect _ h).andThen fun _ us hus _ hscanned => ?_
    refine (yields_item l us hscanned).andThen fun t vs hvs ht hscanned => ?_
    have hlt : vs.length < ts.length := Nat.lt_trans hvs hus
    exact (yields_moreItems l vs hscanned).map fun rest hrest => by simpa using ⟨ht, hrest⟩
termination_by (ts.length, 0)

theorem yields_item (l : Listing) (ts : List (Token String)) (h : ∀ t ∈ ts, t.Scanned) :
    (item l ts).Yields Tree.IsParsed := by
  unfold item
  cases l with
  | block => exact yields_statement ts h
  | array => exact yields_expression ts h
  | tuple => exact yields_expression ts h
termination_by (ts.length, 6)

theorem yields_statement (ts : List (Token String)) (h : ∀ t ∈ ts, t.Scanned) :
    (statement ts).Yields Tree.IsParsed := by
  unfold statement
  split
  · exact trivial
  split
  · exact yields_binding ts h
  · exact yields_expression ts h
termination_by (ts.length, 5)

theorem yields_binding (ts : List (Token String)) (h : ∀ t ∈ ts, t.Scanned) :
    (binding ts).Yields Tree.IsParsed := by
  unfold binding
  refine (yields_expect _ h).andThen fun _ us hus _ hscanned => ?_
  refine (yields_name hscanned).andThen fun n vs hvs hn hscanned => ?_
  refine (yields_expect _ hscanned).andThen fun _ ws hws _ hscanned => ?_
  refine (yields_type hscanned).andThen fun t xs hxs ht hscanned => ?_
  refine (yields_expect _ hscanned).andThen fun _ ys hys _ hscanned => ?_
  have hlt : ys.length < ts.length := by omega
  exact (yields_expression ys hscanned).map fun v hv => .bind ⟨n, rfl, hn⟩ ht hv
termination_by (ts.length, 0)

end

theorem isParsed_of_statements {trees : List (Tree String)} (ts : List (Token String))
    (h : ∀ t ∈ ts, t.Scanned) (hread : statements ts = .ok trees) : ∀ t ∈ trees, t.IsParsed := by
  unfold statements at hread
  split at hread
  · cases hread
    simp
  · split at hread
    · cases hread
    · next t us hus heq =>
      have hone : ((statement ts).andThen fun t us _ =>
          (expect .semicolon us).map fun _ => t).Yields Tree.IsParsed :=
        (yields_statement ts h).andThen fun t vs _ ht hvs =>
          (yields_expect _ hvs).map fun _ _ => ht
      rw [heq] at hone
      cases hrest : statements us with
      | error e => simp [hrest] at hread
      | ok rest =>
        simp only [hrest, Except.ok.injEq] at hread
        subst hread
        have htail := isParsed_of_statements us hone.2 hrest
        simpa using ⟨hone.1, htail⟩
termination_by ts.length

end Grammar

theorem parse_eq_ok_iff {ts : List (Token String)} {trees : List (Tree String)} :
    parse ts = .ok trees ↔ Grammar.statements ts = .ok trees := by
  unfold parse
  cases Grammar.statements ts <;> simp

/-- A source text has statements if it has tokens that are parsed. -/
theorem parseSource_eq_ok_iff {source : String} {trees : List (Tree String)} :
    parseSource source = .ok trees ↔ ∃ ts, tokenize source = .ok ts ∧ parse ts = .ok trees := by
  unfold parseSource
  cases tokenize source with
  | error e => simp
  | ok ts =>
    dsimp only
    cases hparse : parse ts with
    | error e =>
      change Except.error (SourceError.grammar e) = _ ↔ _
      simp [hparse]
    | ok us =>
      change Except.ok us = _ ↔ _
      simp [hparse]

theorem parseSource_eq_numeral_iff {source : String} {e : Text.UnreadNumeral} :
    parseSource source = .error (.numeral e) ↔ tokenize source = .error e := by
  unfold parseSource
  cases tokenize source with
  | error e => simp
  | ok ts =>
    dsimp only
    cases parse ts with
    | error e =>
      change Except.error (SourceError.grammar e) = _ ↔ _
      simp
    | ok us =>
      change Except.ok us = _ ↔ _
      simp

/-- Everything that is read from a source text has the shape of parsed trees. -/
theorem isParsed_of_parseSource {source : String} {trees : List (Tree String)}
    (h : parseSource source = .ok trees) : ∀ t ∈ trees, t.IsParsed := by
  obtain ⟨ts, htokens, hparse⟩ := parseSource_eq_ok_iff.1 h
  obtain ⟨-, rfl⟩ := tokenize_eq_ok_iff.1 htokens
  exact Grammar.isParsed_of_statements _ (fun t => scanned_scan) (parse_eq_ok_iff.1 hparse)

end LetLang
