import LetLang.Lowering
import LetLang.Proofs.Grammar.Shape
import Mathlib.Data.List.Forall2

/-!
# Nodes that represent trees

A node represents a tree when the nodes that it refers to represent the parts of the tree. Two
things change their form on the way: a lambda under a name is a function node, and a lambda that is
applied on the spot is the application of a name that a function was made for. Which node a name
stands for is a parameter `R`, so that one relation serves for every way of reading names.
-/

namespace LetLang.Lowering

/-- A lambda that is applied on the spot, with the number in the name of its function. -/
structure Lifting where
  number : Nat
  parameters : List (Tree String)
  body : Tree String

/-- Liftings that are made one after the other, where `n` were made before. -/
def inTurn (first second : Nat → List Lifting) (n : Nat) : List Lifting :=
  first n ++ second (n + (first n).length)

mutual

/-- The lambdas that lowering a tree makes into functions, in the order in which the functions are
finished, where `n` were made before. The number is given out before the lambda's own body is
lowered. -/
def liftings : Tree String → Nat → List Lifting
  | .bind (.identifier _) _ (.lambda parameters body) =>
    inTurn (liftingsAll parameters) (liftings body)
  | .bind _ type value => inTurn (liftings type) (liftings value)
  | .apply (.lambda parameters body) argument => fun n =>
    inTurn (inTurn (inTurn (liftingsAll parameters) (liftings body))
      fun _ => [⟨n, parameters, body⟩]) (liftings argument) n
  | .apply _ argument => liftings argument
  | .block statements => liftingsAll statements
  | .binary left right _ => inTurn (liftings left) (liftings right)
  | .tuple elements => liftingsAll elements
  | .array elements => liftingsAll elements
  | .sumType options => liftingsAll options
  | .productType elements => liftingsAll elements
  | .functionType source target => inTurn (liftings source) (liftings target)
  | .arrayType element _ => liftings element
  | _ => fun _ => []

def liftingsAll : List (Tree String) → Nat → List Lifting
  | [] => fun _ => []
  | t :: ts => inTurn (liftings t) (liftingsAll ts)

end

section
variable (nodes : Int → Option Node) (R : String → Int → Prop)

inductive Represents : Tree String → Int → Prop
  | function {x : String} {type body : Tree String} {ps : List (Tree String)} {id b : Int}
      {is : List Int} : nodes id = some (.function x is b) → List.Forall₂ Represents ps is →
      Represents body b → Represents (.bind (.identifier x) type (.lambda ps body)) id
  | bind {x : String} {type value : Tree String} {id i t v : Int} :
      (∀ ps b, value ≠ .lambda ps b) → nodes id = some (.bind i t v) →
      nodes i = some (.identifier x) → Represents type t → Represents value v →
      Represents (.bind (.identifier x) type value) id
  | block {ts : List (Tree String)} {id : Int} {is : List Int} :
      nodes id = some (.sequence is) → List.Forall₂ Represents ts is → Represents (.block ts) id
  | identifier {x : String} {id : Int} : nodes id = some (.identifier x) →
      Represents (.identifier x) id
  | binary {left right : Tree String} {op : Operator} {id l r : Int} :
      nodes id = some (.binary op l r) → Represents left l → Represents right r →
      Represents (.binary left right op) id
  | applyLambda {k : Nat} {ps : List (Tree String)} {body argument : Tree String}
      {id i a f b : Int} {is : List Int} : nodes id = some (.apply i a) →
      nodes i = some (.identifier (liftedName k)) → R (liftedName k) f →
      nodes f = some (.function (liftedName k) is b) → List.Forall₂ Represents ps is →
      Represents body b → Represents argument a → Represents (.apply (.lambda ps body) argument) id
  | apply {x : String} {argument : Tree String} {id i a : Int} : nodes id = some (.apply i a) →
      nodes i = some (.identifier x) → Represents argument a →
      Represents (.apply (.identifier x) argument) id
  | number {n id : Int} : nodes id = some (.number n) → Represents (.number n) id
  | boolean {b : Bool} {id : Int} : nodes id = some (.boolean b) → Represents (.boolean b) id
  | text {s : String} {id : Int} : nodes id = some (.text s) → Represents (.text s) id
  | tuple {ts : List (Tree String)} {id : Int} {is : List Int} : nodes id = some (.tuple is) →
      List.Forall₂ Represents ts is → Represents (.tuple ts) id
  | array {ts : List (Tree String)} {id : Int} {is : List Int} : nodes id = some (.array is) →
      List.Forall₂ Represents ts is → Represents (.array ts) id
  | sumType {ts : List (Tree String)} {id : Int} {is : List Int} :
      nodes id = some (.sumType is) → List.Forall₂ Represents ts is →
      Represents (.sumType ts) id
  | productType {ts : List (Tree String)} {id : Int} {is : List Int} :
      nodes id = some (.productType is) → List.Forall₂ Represents ts is →
      Represents (.productType ts) id
  | typeName {x : String} {id : Int} : nodes id = some (.typeName x) →
      Represents (.typeName x) id
  | functionType {source target : Tree String} {id s t : Int} :
      nodes id = some (.functionType s t) → Represents source s → Represents target t →
      Represents (.functionType source target) id
  | arrayType {element : Tree String} {length id e : Int} :
      nodes id = some (.arrayType length e) → Represents element e →
      Represents (.arrayType element length) id
  | unitType {id : Int} : nodes id = some .unitType → Represents .unitType id

/-- The node is the function that was made of a lambda. -/
inductive IsLifted (l : Lifting) (f : Int) : Prop
  | intro {is : List Int} {b : Int} : nodes f = some (.function (liftedName l.number) is b) →
      List.Forall₂ (Represents nodes R) l.parameters is → Represents nodes R l.body b →
      IsLifted l f

end

variable {nodes : Int → Option Node} {R : String → Int → Prop}

theorem Represents.exists_node {t : Tree String} {id : Int} (h : Represents nodes R t id) :
    ∃ node, nodes id = some node := by
  cases h <;> exact ⟨_, by assumption⟩

/-- Only a lambda under a name is represented by a function. -/
theorem Represents.eq_bind_lambda {t : Tree String} {id b : Int} {x : String} {is : List Int}
    (h : Represents nodes R t id) (hid : nodes id = some (.function x is b)) :
    ∃ type ps body, t = .bind (.identifier x) type (.lambda ps body) ∧
      List.Forall₂ (Represents nodes R) ps is ∧ Represents nodes R body b := by
  cases h with
  | function hn hps hb =>
    rw [hn] at hid
    cases hid
    exact ⟨_, _, _, rfl, hps, hb⟩
  | _ => simp_all

end LetLang.Lowering
