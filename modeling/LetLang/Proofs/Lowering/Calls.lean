import LetLang.Proofs.Lowering.Consistent
import LetLang.Proofs.Typing.Parameters

/-!
# Calls of lowered functions

A function of a lowered file is called with the parameters that its lambda was written with. Where
the check accepts the lambda, a call with a value of the argument type enters the body.
-/

namespace LetLang.Lowering

open Evaluation (Machine Frame evaluate identifiersAt inCall)

variable {ts ps : List (Tree String)} {body : Tree String} {l : Lowered} {x : String}

/-- The lambda is one that a program of the file can call by the name: it stands under the name in a
statement, or was lifted and the name was made for it. -/
inductive Callable (ts : List (Tree String)) (x : String) (ps : List (Tree String))
    (body : Tree String) : Prop
  | statement {type : Tree String} : .bind (.identifier x) type (.lambda ps body) ∈ ts →
      Callable ts x ps body
  | lifted {k : Nat} : x = liftedName k → ⟨k, ps, body⟩ ∈ liftingsAll ts 0 → Callable ts x ps body

/-- The root of a lowered file lists a function for each lambda that can be called. -/
theorem Callable.exists_function (h : Callable ts x ps body)
    (hl : LetLang.lower (.file ts) = .ok l) :
    ∃ fs f is b, l.arena.node? rootId = some (.file fs) ∧ f ∈ fs ∧
      l.arena.node? f = some (.function x is b) ∧
      List.Forall₂ (Represents l.arena.node? fun _ _ => True) ps is ∧
      Represents l.arena.node? (fun _ _ => True) body b := by
  obtain ⟨ids, tops, made, himage⟩ := exists_image hl
  obtain ⟨hids, hlifted⟩ := himage.represents (fun _ _ => True) fun _ _ _ _ => trivial
  cases h with
  | statement hmem =>
    obtain ⟨f, hf, hrep⟩ := exists_of_forall₂ hids.flip hmem
    cases hrep with
    | function hnode hps hb =>
      exact ⟨_, f, _, _, himage.root, List.mem_append_left _ hf, hnode, hps, hb⟩
    | bind hne => exact absurd rfl (hne ps body)
  | lifted hx hmem =>
    obtain ⟨f, hf, hnode, hps, hb⟩ := exists_of_forall₂ hlifted.flip hmem
    exact ⟨_, f, _, _, himage.root, List.mem_append_right _ hf, hx ▸ hnode, hps, hb⟩

section
variable {m : Machine} {is : List Int} {b : Int}

/-- A call of a body has the value that the body has. -/
theorem inCall_some (e : Environment) (run : Evaluation.Step Value) :
    (do return (← inCall e (do return some (← run))).getD .void) = inCall e run := by
  funext frame
  cases hrun : run { frame with environment := e } with
  | ok w f =>
    have hbody : (do return some (← run) : Evaluation.Step (Option Value))
        { frame with environment := e } = .ok (some w) f := bind_of_ok hrun
    have hcall : inCall e (do return some (← run) : Evaluation.Step (Option Value)) frame =
        .ok (some w) { frame with printed := f.printed } := by
      rw [inCall, hbody]
    rw [bind_of_ok hcall, inCall, hrun]
    rfl
  | error h f =>
    have hbody : (do return some (← run) : Evaluation.Step (Option Value))
        { frame with environment := e } = .error h f := bind_of_error hrun
    have hcall : inCall e (do return some (← run) : Evaluation.Step (Option Value)) frame =
        .error h { frame with printed := f.printed } := by
      rw [inCall, hbody]
    rw [bind_of_error hcall, inCall, hrun]

/-- An application whose arguments can be bound enters the body with them. -/
theorem evaluate_apply {id i a : Int} {names : List String} {v : Value} {e : Environment}
    {fuel : Nat} {frame frame' : Frame} (hid : m.arena.node? id = some (.apply i a))
    (hi : m.arena.node? i = some (.identifier x))
    (hget : m.program.get? x = some (.lowered x is b))
    (hnames : identifiersAt m x is = pure names) (hargs : Evaluation.arguments x names v = .ok e)
    (ha : evaluate m fuel a frame = .ok v frame') :
    evaluate m (fuel + 1) id frame = inCall e (evaluate m fuel b) frame' := by
  have hcall : Evaluation.call m (evaluate m fuel) x v = inCall e (evaluate m fuel b) := by
    unfold Evaluation.call
    simp only [hget, Evaluation.parameterNames, hnames, pure_bind]
    change Evaluation.lift (Evaluation.arguments x names v) >>= _ = _
    rw [hargs]
    exact inCall_some e (evaluate m fuel b)
  rw [Evaluation.evaluate_apply hid, bind_of_ok ha, Evaluation.applied_of_name hi, hcall]

end

/-- For every lambda with identifiers as parameters, every function type under which the check
accepts it in some context, and every value of the argument type: a call of the lowered function
with an argument that evaluates to the value is no failure of the count. It enters the body with
exactly the parameters bound, and each has got a value of the type that the check bound it to. There
are two exceptions. Of a product of one type the parameter gets the whole tuple, whose element has
the type; and of the unit type, which the check binds nothing to, a function with one parameter gets
the void value. -/
theorem call_binds_as_checked (hl : LetLang.lower (.file ts) = .ok l)
    (hlambda : Callable ts x ps body) (hps : ∀ p ∈ ps, p.IsIdentifier) {source target : Ty}
    {s s' : Typing.State} {o : Option Ty}
    (hc : Typing.check (.lambda ps body) (.exactly (.function source target)) s = .ok o s')
    (hunit : source = .unit → ps.length = 1) {v : Value} (hv : v.Inhabits source) :
    ∃ fs f is b s₁ e, l.arena.node? rootId = some (.file fs) ∧ f ∈ fs ∧
      l.arena.node? f = some (.function x is b) ∧
      Represents l.arena.node? (fun _ _ => True) body b ∧
      Typing.addLambdaParameters ps source s = .ok () s₁ ∧ (source = .unit → s₁ = s) ∧
      (∀ n, (e.get? n).isSome ↔ n ∈ Direct.names ps) ∧
      (∀ n w, e.get? n = some w → Typing.Gets source (s₁.context.own.bindings.get? n) w) ∧
      ∀ (m : Machine) (id i a : Int) (fuel : Nat) (frame frame' : Frame), m.arena = l.arena →
        m.program.get? x = some (.lowered x is b) → l.arena.node? id = some (.apply i a) →
        l.arena.node? i = some (.identifier x) → evaluate m fuel a frame = .ok v frame' →
        evaluate m (fuel + 1) id frame = inCall e (evaluate m fuel b) frame' := by
  obtain ⟨fs, f, is, b, hroot, hf, hnode, hrep, hb⟩ := hlambda.exists_function hl
  obtain ⟨s₁, hadd⟩ : ∃ s₁, Typing.addLambdaParameters ps source s = .ok () s₁ := by
    unfold Typing.check at hc
    obtain ⟨_, s₁, hadd, -⟩ := bind_eq_ok hc
    exact ⟨s₁, hadd⟩
  obtain ⟨e, hargs, hbound, hgets⟩ := Typing.arguments_of_accepted hps hadd hunit hv x
  refine ⟨fs, f, is, b, s₁, e, hroot, hf, hnode, hb, hadd, ?_, hbound, hgets, ?_⟩
  · rintro rfl
    cases hadd
    rfl
  · intro m id i a fuel frame frame' harena hget hid hi ha
    rw [← harena] at hid hi hrep
    exact evaluate_apply hid hi hget (identifiersAt_of_identifiers hrep hps x) hargs ha

/-- A pair is spread over the two parameters of a function, each of which gets a number of its
type. -/
theorem pair_spreads_over_parameters :
    let add : Tree String := .lambda [.identifier "a", .identifier "b"]
      (.binary (.identifier "a") (.identifier "b") .plus)
    let pair : Tree String := .tuple [.identifier "n", .identifier "n"]
    let ts : List (Tree String) := [.bind (.identifier "add") .unitType add,
      .bind (.identifier "main") .unitType (.lambda [.identifier "n"]
        (.apply (.identifier "add") pair))]
    let ui8 : Ty := .atom .ui8
    let frame : Frame := ⟨.ofList [("n", .number 3)], ""⟩
    ∃ l p, LetLang.lower (.file ts) = .ok l ∧ Program.build l.arena [] = .ok p ∧
      (∃ o s', Typing.check add (.exactly (.function (.product [ui8, ui8]) ui8))
        ⟨⟨.empty, []⟩, []⟩ = .ok o s') ∧
      (Value.tuple [.number 3, .number 3]).Inhabits (.product [ui8, ui8]) ∧
      ∃ e b, evaluate ⟨l.arena, p, .empty⟩ 3 9 frame =
          inCall e (evaluate ⟨l.arena, p, .empty⟩ 2 b) frame ∧
        ∀ n, (e.get? n).isSome ↔ n ∈ ["a", "b"] := by
  intro add pair ts ui8 frame
  have hc : ∃ o s', Typing.check add (.exactly (.function (.product [ui8, ui8]) ui8))
      ⟨⟨.empty, []⟩, []⟩ = .ok o s' := ⟨_, _, by cbv⟩
  have hnumber : (Value.number 3).Inhabits ui8 := .number rfl
  have hv : (Value.tuple [.number 3, .number 3]).Inhabits (.product [ui8, ui8]) :=
    .tuple (.cons hnumber (.cons hnumber .nil))
  obtain ⟨l, p, hl, hp, hroot, hadd, hmain, happly, hcallee, hpair, hget⟩ : ∃ l p,
      LetLang.lower (.file ts) = .ok l ∧ Program.build l.arena [] = .ok p ∧
        l.arena.node? rootId = some (.file [1, 7]) ∧
        l.arena.node? 1 = some (.function "add" [2, 3] 4) ∧
        l.arena.node? 7 = some (.function "main" [8] 9) ∧
        l.arena.node? 9 = some (.apply 10 11) ∧ l.arena.node? 10 = some (.identifier "add") ∧
        evaluate ⟨l.arena, p, .empty⟩ 2 11 frame = .ok (.tuple [.number 3, .number 3]) frame ∧
        p.get? "add" = some (.lowered "add" [2, 3] 4) :=
    ⟨_, _, by cbv, by cbv, by cbv, by cbv, by cbv, by cbv, by cbv, by cbv, by cbv⟩
  refine ⟨l, p, hl, hp, hc, hv, ?_⟩
  obtain ⟨o, s', hc⟩ := hc
  obtain ⟨fs, f, is, b, s₁, e, hfs, hf, hnode, -, -, -, hbound, -, henter⟩ :=
    call_binds_as_checked hl (.statement List.mem_cons_self) (by simp [Tree.IsIdentifier]) hc
      (by simp) hv
  cases hroot.symm.trans hfs
  have hone : f = 1 := by
    rcases List.mem_cons.1 hf with rfl | hf
    · rfl
    · obtain rfl := List.mem_singleton.1 hf
      exact absurd (hmain.symm.trans hnode) (by simp)
  subst hone
  cases hadd.symm.trans hnode
  exact ⟨e, 4, henter _ 9 10 11 2 frame frame rfl hget happly hcallee hpair, hbound⟩

/-- Where the two exceptions come from. A lambda without parameters is accepted under a function
type whose argument type is the unit type, but a call with the void value counts it as one argument.
A lambda with one parameter is accepted under a product of one type, and the parameter is bound to
this type, but in a call it gets a tuple. -/
theorem unit_and_single_product_disagree :
    let greeting : Tree String := .lambda [] (.text "hi")
    let only : Tree String := .lambda [.identifier "t"] (.identifier "t")
    let calling (target : String) (argument : Tree String) : Tree String :=
      .bind (.identifier "main") (.functionType (.typeName "ui8") (.typeName target))
        (.lambda [.identifier "n"] (.apply (.identifier "f") argument))
    let start : Typing.State := ⟨⟨.empty, []⟩, []⟩
    let ui8 : Ty := .atom .ui8
    (Typing.check greeting (.exactly (.function .unit (.atom .text))) start =
        .ok (some (.function .unit (.atom .text))) start ∧
      Value.void.Inhabits .unit ∧
      ∃ l p, LetLang.lower (.file [.bind (.identifier "f")
          (.functionType .unitType (.typeName "string")) greeting,
          calling "string" (.apply (.identifier "std.print") (.text ""))]) = .ok l ∧
        Program.build l.arena [] = .ok p ∧
        (Evaluation.run ⟨l.arena, p, .empty⟩ 5).result =
          .error (.failed (.argumentCount "f" 0 1))) ∧
    (∃ s, Typing.check only (.exactly (.function (.product [ui8]) ui8)) start =
        .ok (some (.function (.product [ui8]) ui8)) s ∧
      s.context.own.bindings.get? "t" = some ui8 ∧
      (Value.tuple [.number 3]).Inhabits (.product [ui8]) ∧
      (∃ e : Environment, Evaluation.arguments "f" ["t"] (.tuple [.number 3]) = .ok e ∧
        e.get? "t" = some (.tuple [.number 3])) ∧
      ¬ (Value.tuple [.number 3]).Inhabits ui8 ∧
      ∃ l p, LetLang.lower (.file [.bind (.identifier "f")
          (.functionType (.productType [.typeName "ui8"]) (.typeName "ui8")) only,
          calling "ui8" (.tuple [.identifier "n"])]) = .ok l ∧
        Program.build l.arena [] = .ok p ∧
        (Evaluation.run ⟨l.arena, p, .empty⟩ 5).result = .ok (some (.tuple [.number 3]))) := by
  intro greeting only calling start ui8
  constructor
  · exact ⟨by cbv, .void, _, _, by cbv, by cbv, by cbv⟩
  · refine ⟨_, by cbv, by cbv, .tuple (.cons (.number rfl) .nil), ⟨_, rfl, rfl⟩, ?_, _, _, by cbv,
      by cbv, by cbv⟩
    change ¬ (Value.tuple [.number 3]).Inhabits (.atom .ui8)
    rintro ⟨⟩

end LetLang.Lowering
