import LetLang.Proofs.Evaluation.Direct
import LetLang.Proofs.Table
import LetLang.Proofs.Typing.Denote

/-!
# The rules of the check

The rules follow two accounts of the variables side by side: which types the check knows them to
have, where everything that was ever bound stays known, and which types they have where the
evaluation has bound them in the call at hand. At some sites a rule asks that a predicate holds;
with the predicate that always holds the rules say what the check says.
-/

namespace LetLang

def Table.insertAll {κ α : Type} [DecidableEq κ] (t : Table κ α) (es : List (κ × α)) : Table κ α :=
  es.foldl (fun t e => t.insert e.1 e.2) t

namespace Typing

/-- The variables that the check knows, and those that the call at hand has bound. -/
structure Names where
  known : Table String Ty
  bound : Table String Ty

/-- The places of a program where the check and the evaluation may see things differently. -/
inductive Site where
  /-- A variable is read; the check gives it a type, the call at hand has it bound at a type. -/
  | read (name : String) (type : Ty) (bound : Option Ty)
  /-- A name is applied; the check gives it a type. -/
  | applied (name : String) (type : Ty)
  /-- An empty array takes the type that is asked for. -/
  | emptyArray (type : Ty)
  /-- Both operands of a sum or a product have a type. -/
  | operands (type : Ty)
  /-- The position in an array has a type, or none. -/
  | position (type : Option Ty)
  /-- A function is bound inside the body of another one. -/
  | localFunction (name : String)

/-- The parameters of a lambda and their types, where the argument has the type `source`. -/
def parameterTypes (parameters : List String) (source : Ty) : Option (List (String × Ty)) :=
  match source, parameters with
  | .product elements, ps => if elements.length = ps.length then some (ps.zip elements) else none
  | .unit, _ => none
  | t, [p] => some [(p, t)]
  | _, _ => none

mutual

/-- Under a demand, the tree has a type or is a statement. -/
inductive Derives : (Site → Prop) → Names → Tree String → Demand → Option Ty → Names → Prop
  | localFunction {Q : Site → Prop} {s s' : Names} {x : String} {type body : Tree String}
      {ps : List (Tree String)} {d : Demand} {a b : Ty} {es : List (String × Ty)} :
      denote type = some (.function a b) → Q (.localFunction x) →
      parameterTypes (Direct.names ps) a = some es →
      Derives (fun _ => True) ⟨(s.known.insert x (.function a b)).insertAll es, ∅⟩ body (.exactly b)
        (some b) s' →
      Derives Q s (.bind (.identifier x) type (.lambda ps body)) d none ⟨s'.known, s.bound⟩
  | bind {Q : Site → Prop} {s s' : Names} {x : String} {type value : Tree String} {d : Demand}
      {u : Ty} : (∀ ps b, value ≠ .lambda ps b) → denote type = some u →
      Derives Q ⟨s.known.insert x u, s.bound⟩ value (.exactly u) (some u) s' →
      Derives Q s (.bind (.identifier x) type value) d none ⟨s'.known, s'.bound.insert x u⟩
  | block {Q : Site → Prop} {s s' : Names} {ts : List (Tree String)} {d : Demand}
      {o : Option Ty} : DerivesBlock Q s ts d o s' → Derives Q s (.block ts) d o s'
  | identifier {Q : Site → Prop} {s : Names} {x : String} {d : Demand} {u : Ty} :
      s.known.get? x = some u → Q (.read x u (s.bound.get? x)) →
      Derives Q s (.identifier x) d (some u) s
  | index {Q : Site → Prop} {s s₁ s' : Names} {left right : Tree String} {d : Demand} {e : Ty}
      {n : Int} {o : Option Ty} : Derives Q s left .nothing (some (.array e n)) s₁ →
      Derives Q s₁ right (.exactly (.atom .ui64)) o s' → Q (.position o) →
      Derives Q s (.binary left right .index) d (some e) s'
  | binary {Q : Site → Prop} {s s₁ s' : Names} {left right : Tree String} {op : Operator}
      {d : Demand} {u : Ty} : op ≠ .index → Derives Q s left d (some u) s₁ →
      Derives Q s₁ right d (some u) s' → Q (.operands u) →
      Derives Q s (.binary left right op) d (some u) s'
  | apply {Q : Site → Prop} {s s' : Names} {x : String} {argument : Tree String} {d : Demand}
      {a b : Ty} : s.known.get? x = some (.function a b) → Q (.applied x (.function a b)) →
      Derives Q s argument .nothing (some a) s' →
      Derives Q s (.apply (.identifier x) argument) d (some b) s'
  | number {Q : Site → Prop} {s : Names} {n : Int} {d : Demand} : d.type? = none →
      Derives Q s (.number n) d (some (.atom .i64)) s
  | numberAs {Q : Site → Prop} {s : Names} {n : Int} {d : Demand} {a : Atom} :
      d.type? = some (.atom a) → a.isInteger = true → Derives Q s (.number n) d (some (.atom a)) s
  | boolean {Q : Site → Prop} {s : Names} {b : Bool} {d : Demand} :
      Derives Q s (.boolean b) d (some (.atom .boolean)) s
  | text {Q : Site → Prop} {s : Names} {t : String} {d : Demand} :
      Derives Q s (.text t) d (some (.atom .text)) s
  | tuple {Q : Site → Prop} {s s' : Names} {ts : List (Tree String)} {d : Demand} {us : List Ty} :
      DerivesAll Q s .open ts us s' → Derives Q s (.tuple ts) d (some (.product us)) s'
  | emptyArray {Q : Site → Prop} {s : Names} {d : Demand} {u : Ty} : d.type? = some u →
      Q (.emptyArray u) → Derives Q s (.array []) d (some u) s
  | array {Q : Site → Prop} {s s' : Names} {t : Tree String} {ts : List (Tree String)}
      {d : Demand} {e : Ty} {us : List Ty} : d.type? = none →
      DerivesAll Q s .nothing (t :: ts) us s' → (∀ u ∈ us, u = e) →
      Derives Q s (.array (t :: ts)) d (some (.array e (ts.length + 1))) s'
  | arrayAs {Q : Site → Prop} {s s' : Names} {t : Tree String} {ts : List (Tree String)}
      {d : Demand} {e f : Ty} {n : Int} {us : List Ty} : d.type? = some (.array f n) →
      DerivesAll Q s (.exactly f) (t :: ts) us s' → (∀ u ∈ us, u = e) →
      Derives Q s (.array (t :: ts)) d (some (.array e (ts.length + 1))) s'

inductive DerivesBlock :
    (Site → Prop) → Names → List (Tree String) → Demand → Option Ty → Names → Prop
  | last {Q : Site → Prop} {s s' : Names} {t : Tree String} {d : Demand} {o : Option Ty} :
      Derives Q s t d o s' → DerivesBlock Q s [t] d o s'
  | cons {Q : Site → Prop} {s s₁ s' : Names} {t u : Tree String} {ts : List (Tree String)}
      {d : Demand} {o o' : Option Ty} : Derives Q s t .nothing o' s₁ →
      DerivesBlock Q s₁ (u :: ts) d o s' → DerivesBlock Q s (t :: u :: ts) d o s'

inductive DerivesAll :
    (Site → Prop) → Names → Demand → List (Tree String) → List Ty → Names → Prop
  | nil {Q : Site → Prop} {s : Names} {d : Demand} : DerivesAll Q s d [] [] s
  | cons {Q : Site → Prop} {s s₁ s' : Names} {d : Demand} {t : Tree String}
      {ts : List (Tree String)} {u : Ty} {us : List Ty} : Derives Q s t d (some u) s₁ →
      DerivesAll Q s₁ d ts us s' → DerivesAll Q s d (t :: ts) (u :: us) s'

end

def nativeTypes : List (String × Ty) := Native.standard.map fun n => (n.name, n.type)

/-- The type that a statement of a file declares for its function. -/
def signature? : Tree String → Option (String × Ty)
  | .bind (.identifier x) type (.lambda ..) => (denote type).map fun t => (x, t)
  | _ => none

/-- The types of the functions that a program keeps. The last definition of a name wins, and a
native wins over every definition. -/
def signatures (ts : List (Tree String)) : Table String Ty :=
  .ofList (ts.filterMap signature? ++ nativeTypes)

/-- No later statement and no native takes the name over. -/
def IsKept (x : String) (later : List (Tree String)) : Prop :=
  (∀ t ∈ later, t.boundName? ≠ some x) ∧ ∀ n ∈ Native.standard, n.name ≠ x

/-- The statements of a file. In a call of `x` the variables `base x` are bound from the start, and
over them the parameters. The predicate is asked for in functions that the program keeps. -/
inductive DerivesFile (Q : Site → Prop) (base : String → Table String Ty) :
    Table String Ty → List (Tree String) → Table String Ty → Prop
  | nil {k : Table String Ty} : DerivesFile Q base k [] k
  | cons {k k' : Table String Ty} {s : Names} {x : String} {type body : Tree String}
      {ps ts : List (Tree String)} {a b : Ty} {es : List (String × Ty)} :
      denote type = some (.function a b) → parameterTypes (Direct.names ps) a = some es →
      Derives (fun site => IsKept x ts → Q site)
        ⟨(k.insert x (.function a b)).insertAll es, (base x).insertAll es⟩ body (.exactly b)
        (some b) s →
      DerivesFile Q base s.known ts k' →
      DerivesFile Q base k (.bind (.identifier x) type (.lambda ps body) :: ts) k'

end Typing

end LetLang
