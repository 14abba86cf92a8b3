import LetLang.Proofs.Lowering.Domain
import LetLang.Proofs.Lowering.Origin
import LetLang.Proofs.Typing.Visits

/-!
# Checked files lift nothing

In a file that passes the check nothing is applied but names. So lowering it makes no function but
those of its statements, and puts no name into it that was not written.
-/

namespace LetLang.Lowering

section
variable {ts : List (Tree String)} {t : Tree String} {is : List Int} {id : Int} {s s' : Lowered}

/-- A definition gets the next number, and what is below it gets later ones. -/
theorem lower_definition_eq_ok {p : Int} (ht : t.IsDefinition) (h : lower t p s = .ok id s') :
    id = s.arena.size ∧ s.arena.size < s'.arena.size := by
  obtain ⟨x, type, ps, body, rfl⟩ := ht
  have hid : id = s.arena.size := by
    rw [lower_of_layout rfl] at h
    obtain ⟨i, s₁, hadd, h₁⟩ := bind_eq_ok h
    obtain ⟨js, s₂, -, h₂⟩ := bind_eq_ok h₁
    obtain ⟨_, s₃, -, h₃⟩ := bind_eq_ok h₂
    cases h₃
    exact (add_eq_ok hadd).1
  obtain ⟨node, hnode, -⟩ := exists_node_of_lower h
  obtain ⟨n, slot, hn, hslot, -⟩ := Arena.exists_slot_of_node? hnode
  obtain ⟨hlt, -⟩ := Array.getElem?_eq_some_iff.1 hslot
  obtain rfl := Int.ofNat.inj (hid.symm.trans hn)
  exact ⟨hid, hlt⟩

/-- Definitions get increasing numbers. -/
theorem pairwise_of_mapM_lowerTopLevel (hts : ∀ t ∈ ts, t.IsDefinition)
    (h : ts.mapM lowerTopLevel s = .ok is s') :
    is.Pairwise (· < ·) ∧ ∀ i ∈ is, (s.arena.size : Int) ≤ i := by
  induction ts generalizing s is with
  | nil =>
    cases h
    simp
  | cons t ts ih =>
    obtain ⟨ht, hrest⟩ := List.forall_mem_cons.1 hts
    rw [List.mapM_cons] at h
    obtain ⟨i, s₁, hone, h₁⟩ := bind_eq_ok h
    obtain ⟨js, s₂, hothers, h₂⟩ := bind_eq_ok h₁
    cases h₂
    obtain ⟨rfl, hlt⟩ := lower_definition_eq_ok ht (lowerTopLevel_eq_ok hone).1
    obtain ⟨hjs, hle⟩ := ih hrest hothers
    refine ⟨List.pairwise_cons.2 ⟨fun j hj => ?_, hjs⟩, List.forall_mem_cons.2 ⟨Int.le_refl _, ?_⟩⟩
    · exact Int.lt_of_lt_of_le (Int.ofNat_lt.2 hlt) (hle j hj)
    · exact fun j hj => Int.le_trans (Int.ofNat_le.2 (Nat.le_of_lt hlt)) (hle j hj)

end

section
variable {ts : List (Tree String)} {l : Lowered} {ids : List Int} {tops made : List Function}

/-- The functions of the statements have increasing numbers. -/
theorem IsImage.pairwise (himage : IsImage ts l ids tops made)
    (h : LetLang.lower (.file ts) = .ok l) : ids.Pairwise (· < ·) := by
  obtain ⟨is, s, hmap, hlifted, hset⟩ := lowerFile_eq_ok h
  have hset' : s.arena.setValue (0 : Nat) (.file (is ++ s.lifted)) = .ok l.arena := hset
  obtain ⟨n, slot, hn, hslot, hlive, -⟩ := Arena.exists_slot_of_node? himage.root
  obtain rfl : 0 = n := Int.ofNat.inj hn
  obtain ⟨slot', hslot', hlive', -⟩ := Arena.exists_slot_of_setValue hset' hslot
  have hroot := Arena.node?_of_setValue hset' (Arena.node?_of_slot hslot' (hlive'.trans hlive))
  have hfile := himage.root.symm.trans hroot
  rw [hlifted, Option.some.injEq, Node.file.injEq, List.append_cancel_right_eq] at hfile
  rw [hfile]
  exact (pairwise_of_mapM_lowerTopLevel himage.definitions hmap).1

/-- Where no lambda is applied on the spot, none is lifted. -/
theorem liftingsAll_eq_nil (h : ¬ (Tree.file ts).AppliesLambda) : liftingsAll ts 0 = [] := by
  refine List.eq_nil_iff_forall_not_mem.2 fun m hm => h ?_
  obtain ⟨argument, hoccurs⟩ :=
    appliedIn_of_mem_liftingsAll (appliedIn_of_mem_liftingsEach ts)
      (fun u hu => Tree.occurs_of_mem_parts (t := .file ts) hu) 0 m hm
  exact ⟨m.parameters, m.body, argument, hoccurs⟩

/-- Where no lambda is applied on the spot, what is applied is a name that was written. -/
theorem callee_of_apply (h : LetLang.lower (.file ts) = .ok l)
    (happlies : ¬ (Tree.file ts).AppliesLambda) {id i a : Int}
    (hid : l.arena.node? id = some (.apply i a)) :
    ∃ x argument, l.arena.node? i = some (.identifier x) ∧
      (Tree.apply (.identifier x) argument).Occurs (.file ts) := by
  obtain ⟨n, slot, rfl, -⟩ := Arena.exists_slot_of_node? hid
  obtain ⟨ids, tops, made, himage⟩ := exists_image h
  have hpos : 0 < n := by
    refine Nat.pos_of_ne_zero ?_
    rintro rfl
    cases himage.root.symm.trans hid
  cases origin_of_node h n hpos hid with
  | tree hu hrep =>
    cases hrep with
    | apply hn hi =>
      cases hn.symm.trans hid
      exact ⟨_, _, hi, hu⟩
    | applyLambda => exact absurd ⟨_, _, _, hu⟩ happlies
    | _ => simp_all
  | lifted _ hlift =>
    obtain ⟨hn, -⟩ := hlift
    cases hn.symm.trans hid
  | madeName hn => cases hn.symm.trans hid

end

/-- A file that passes the check of a session, with whatever natives, passes a check. -/
theorem succeeds_of_session_check {ts : List (Tree String)} {natives : List Native}
    {t t' : Transcript} (h : Session.check ts natives t = .ok () t') :
    Typing.Succeeds (.file ts) := by
  cases hscope : Scope.ofPrelude natives with
  | ok scope =>
    obtain ⟨o, s, hcheck⟩ := (Session.check_eq_ok_iff hscope).1 ⟨t', h⟩
    exact ⟨_, _, _, _, hcheck⟩
  | error e =>
    obtain ⟨scope, _, hlift, -⟩ := bind_eq_ok h
    rw [hscope] at hlift
    cases hlift

/-- In a source text that passes the check, with whatever natives, no lambda literal is applied on
the spot. When it is lowered, no function is made besides those of its statements: the root lists
for each statement, in order and by increasing numbers, the function of its name that represents it,
and every application is one of a name that is applied in the source text. -/
theorem checked_file_lifts_nothing {source : String} {ts : List (Tree String)}
    {natives : List Native} {t t' : Transcript} (hp : parseSource source = .ok ts)
    (hc : Session.check ts natives t = .ok () t') :
    (∀ ps body argument, ¬ (Tree.apply (.lambda ps body) argument).Occurs (.file ts)) ∧
      ∀ l, LetLang.lower (.file ts) = .ok l →
        l.lifted = [] ∧
        (∃ ids, l.arena.node? rootId = some (.file ids) ∧ ids.Pairwise (· < ·) ∧
          List.Forall₂ (fun t id =>
            (∃ x is b, t.boundName? = some x ∧ l.arena.node? id = some (.function x is b)) ∧
              Represents l.arena.node? (fun _ _ => False) t id) ts ids) ∧
        ∀ id i a, l.arena.node? id = some (.apply i a) →
          ∃ x argument, l.arena.node? i = some (.identifier x) ∧
            (Tree.apply (.identifier x) argument).Occurs (.file ts) := by
  have hparsed := isParsed_of_parseSource hp
  have hstatements := (succeeds_of_session_check hc).file
  have happlies : ¬ (Tree.file ts).AppliesLambda :=
    Tree.not_appliesLambda (by simp) fun u hu =>
      (hstatements u hu).not_appliesLambda (hparsed u hu)
  refine ⟨fun ps body argument hoccurs => happlies ⟨ps, body, argument, hoccurs⟩, fun l hl => ?_⟩
  obtain ⟨ids, tops, made, himage⟩ := exists_image hl
  have hnone : l.lifted = [] := by
    have hlifted := (himage.represents (fun _ _ => True) fun _ _ _ _ => trivial).2
    rw [liftingsAll_eq_nil happlies] at hlifted
    exact List.forall₂_nil_left_iff.1 hlifted
  have hroot := himage.root
  rw [hnone, List.append_nil] at hroot
  refine ⟨hnone, ⟨ids, hroot, himage.pairwise hl, ?_⟩, fun id i a hid =>
    callee_of_apply hl happlies hid⟩
  have hrep := (himage.represents (fun _ _ => False) (by simp [hnone])).1
  refine List.forall₂_iff_get.2 ⟨hrep.length_eq, fun k hk hk' => ?_⟩
  have hone := hrep.get hk hk'
  obtain ⟨x, type, ps, body, heq⟩ := himage.definitions _ (List.get_mem ts ⟨k, hk⟩)
  refine ⟨?_, hone⟩
  rw [heq] at hone ⊢
  cases hone with
  | function hn => exact ⟨x, _, _, rfl, hn⟩
  | bind hne => exact absurd rfl (hne ps body)

/-- A file whose functions call a further native and each other: the root lists the two of them, and
nothing was lifted. -/
theorem calls_of_names_lift_nothing : ∃ ts l t',
    parseSource "let f : ui8 -> ui8 = \\y => same y; let main : ui8 -> ui8 = \\x => f (f x);" =
      .ok ts ∧
    Session.check ts [⟨"same", "UI8", "UI8", [nativeParameter], some .argument⟩] ⟨"", []⟩ =
      .ok () t' ∧
    LetLang.lower (.file ts) = .ok l ∧ l.lifted = [] ∧
    ∃ f main, l.arena.node? rootId = some (.file [f, main]) ∧ f < main := by
  let f : Tree String := .bind (.identifier "f") (.functionType (.typeName "ui8") (.typeName "ui8"))
    (.lambda [.identifier "y"] (.apply (.identifier "same") (.identifier "y")))
  let main : Tree String :=
    .bind (.identifier "main") (.functionType (.typeName "ui8") (.typeName "ui8"))
      (.lambda [.identifier "x"]
        (.apply (.identifier "f") (.apply (.identifier "f") (.identifier "x"))))
  have hp : parseSource
      "let f : ui8 -> ui8 = \\y => same y; let main : ui8 -> ui8 = \\x => f (f x);" =
        .ok [f, main] := by cbv
  obtain ⟨l, t', hc, hl⟩ : ∃ l t', Session.check [f, main]
      [⟨"same", "UI8", "UI8", [nativeParameter], some .argument⟩] ⟨"", []⟩ = .ok () t' ∧
        LetLang.lower (.file [f, main]) = .ok l := ⟨_, _, by cbv, by cbv⟩
  obtain ⟨-, hlower⟩ := checked_file_lifts_nothing hp hc
  obtain ⟨hnone, ⟨ids, hroot, hids, hstatements⟩, -⟩ := hlower l hl
  obtain ⟨i, j, rfl⟩ := List.length_eq_two.1 hstatements.length_eq.symm
  exact ⟨_, l, t', hp, hc, hl, hnone, i, j, hroot, by simpa using hids⟩

end LetLang.Lowering
