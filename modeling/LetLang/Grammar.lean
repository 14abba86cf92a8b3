import LetLang.Token.Scan
import LetLang.Tree

/-!
# The grammar

Tokens are read into surface trees by one function for each rule of the grammar. A rule that
succeeds uses up at least one token, and a rule that fails says where it stopped; the type `Reading`
keeps both facts, so every rule ends for lack of tokens.

The texts of tokens go into the leaves of the tree as they are, whatever their type is.

Operators have no precedence and group to the right; a function is applied to one argument, written
after it; a list of one element in round or curly brackets is that element.
-/

namespace LetLang

/-- Why a list of tokens does not follow the grammar. The token found is missing at the end. -/
inductive ParseError (τ : Type) where
  /-- Another mark belongs here. -/
  | expectedMark (mark : Mark) (found : Option (Token τ))
  /-- A name belongs here. -/
  | expectedName (found : Option (Token τ))
  /-- The length of an array type is not a number. -/
  | expectedLength
  /-- No expression begins here. -/
  | expectedValue (found : Option (Token τ))
  /-- A statement belongs at the end of the tokens. -/
  | expectedStatement
  deriving Repr, DecidableEq

def ParseError.found {τ : Type} [TokenText τ] : Option (Token τ) → String
  | none => "nothing"
  | some t => t.display

def ParseError.message {τ : Type} [TokenText τ] : ParseError τ → String
  | .expectedMark m t => "Expected " ++ m.name ++ ", got " ++ found t
  | .expectedName t => "Expected identifier, got " ++ found t
  | .expectedLength => "Expected array type length to be number"
  | .expectedValue t => "Expected value, got " ++ found t
  | .expectedStatement => "Expected let or expression, got end of stream"

/-- What a rule makes of the tokens `ts`: a result and the tokens after it, or a failure and the
tokens after the place where it was noticed. -/
inductive Reading {τ : Type} (α : Type) (ts : List (Token τ)) where
  | ok (value : α) (rest : List (Token τ)) (shorter : rest.length < ts.length)
  | error (cause : ParseError τ) (rest : List (Token τ)) (noLonger : rest.length ≤ ts.length)

namespace Reading

variable {τ α β : Type} {ts us : List (Token τ)}

def outcome : Reading α ts → Except (ParseError τ) α × List (Token τ)
  | .ok a rest _ => (.ok a, rest)
  | .error e rest _ => (.error e, rest)

def map (f : α → β) : Reading α ts → Reading β ts
  | .ok a rest h => .ok (f a) rest h
  | .error e rest h => .error e rest h

/-- A reading of the last tokens of a list, as a reading of the list. -/
def widen (h : us.length ≤ ts.length) : Reading α us → Reading α ts
  | .ok a rest h' => .ok a rest (Nat.lt_of_lt_of_le h' h)
  | .error e rest h' => .error e rest (Nat.le_trans h' h)

def andThen (r : Reading α ts)
    (next : α → (us : List (Token τ)) → us.length < ts.length → Reading β us) : Reading β ts :=
  match r with
  | .ok a rest h => (next a rest h).widen (Nat.le_of_lt h)
  | .error e rest h => .error e rest h

/-- Reads on after a success where `next` finds something to read, and else keeps the value. -/
def extend (r : Reading α ts)
    (next : α → (us : List (Token τ)) → us.length < ts.length → Option (Reading α us)) :
    Reading α ts :=
  match r with
  | .ok a rest h =>
    match next a rest h with
    | some r' => r'.widen (Nat.le_of_lt h)
    | none => .ok a rest h
  | .error e rest h => .error e rest h

end Reading

namespace Grammar

variable {τ : Type}

def nextIs (m : Mark) : List (Token τ) → Bool
  | [] => false
  | t :: _ => t.is m

def expect (m : Mark) : (ts : List (Token τ)) → Reading Unit ts
  | [] => .error (.expectedMark m none) [] (Nat.le_refl _)
  | t :: ts =>
    if t.is m then .ok () ts (by simp)
    else .error (.expectedMark m (some t)) ts (by simp)

def name : (ts : List (Token τ)) → Reading τ ts
  | [] => .error (.expectedName none) [] (Nat.le_refl _)
  | .identifier n :: ts => .ok n ts (by simp)
  | t :: ts => .error (.expectedName (some t)) ts (by simp)

/-- Reads the length of an array type. -/
def arrayLength : (ts : List (Token τ)) → Reading Int ts
  | [] => .error .expectedLength [] (Nat.le_refl _)
  | .number n :: ts => .ok n ts (by simp)
  | _ :: ts => .error .expectedLength ts (by simp)

/-- An array type: a name and a length in square brackets. -/
def arrayType (ts : List (Token τ)) : Reading (Tree τ) ts :=
  (expect .leftSquare ts).andThen fun _ ts _ =>
  (name ts).andThen fun element ts _ =>
  (expect .semicolon ts).andThen fun _ ts _ =>
  (arrayLength ts).andThen fun length ts _ =>
  (expect .rightSquare ts).map fun _ => .arrayType (.typeName element) length

/-- A type name or an array type. -/
def typeAtom (ts : List (Token τ)) : Reading (Tree τ) ts :=
  if nextIs .leftSquare ts then arrayType ts else (name ts).map .typeName

/-- The further elements of a product type and its closing bracket. -/
def moreTypeAtoms (ts : List (Token τ)) : Reading (List (Tree τ)) ts :=
  if nextIs .rightRound ts then (expect .rightRound ts).map fun _ => []
  else
    (expect .comma ts).andThen fun _ us _ =>
    (typeAtom us).andThen fun t vs _ =>
    (moreTypeAtoms vs).map (t :: ·)
termination_by ts.length

/-- The product of some types; the product of one type is that type. -/
def productOf : List (Tree τ) → Tree τ
  | [t] => t
  | ts => .productType ts

/-- A type atom, or type atoms in round brackets. -/
def productType (ts : List (Token τ)) : Reading (Tree τ) ts :=
  if nextIs .leftRound ts then
    (expect .leftRound ts).andThen fun _ us _ =>
    if nextIs .rightRound us then (expect .rightRound us).map fun _ => .productType []
    else
      (typeAtom us).andThen fun t vs _ =>
      (moreTypeAtoms vs).map fun rest => productOf (t :: rest)
  else typeAtom ts

/-- Product types joined by arrows, which group to the right. -/
def functionType (ts : List (Token τ)) : Reading (Tree τ) ts :=
  (productType ts).extend fun source us _ =>
    if nextIs .rightArrow us then
      some ((expect .rightArrow us).andThen fun _ vs _ =>
        (functionType vs).map (.functionType source))
    else none
termination_by ts.length

def typeOptions (ts : List (Token τ)) : Reading (List (Tree τ)) ts :=
  ((functionType ts).map ([·])).extend fun first us _ =>
    if nextIs .pipe us then
      some ((expect .pipe us).andThen fun _ vs _ => (typeOptions vs).map (first ++ ·))
    else none
termination_by ts.length

/-- The sum of some types; the sum of one type is that type. -/
def sumOf : List (Tree τ) → Tree τ
  | [t] => t
  | ts => .sumType ts

/-- A type. An array type that stands first is the whole type. -/
def type (ts : List (Token τ)) : Reading (Tree τ) ts :=
  if nextIs .leftSquare ts then arrayType ts else (typeOptions ts).map sumOf

def names (ts : List (Token τ)) : Reading (List τ) ts :=
  ((name ts).map ([·])).extend fun first us _ =>
    if nextIs .comma us then
      some ((expect .comma us).andThen fun _ vs _ => (names vs).map (first ++ ·))
    else none
termination_by ts.length

/-- The parameters of a lambda: one name, or names in round brackets. -/
def parameters (ts : List (Token τ)) : Reading (List (Tree τ)) ts :=
  if nextIs .leftRound ts then
    (expect .leftRound ts).andThen fun _ us _ =>
    if nextIs .rightRound us then (expect .rightRound us).map fun _ => []
    else
      (names us).andThen fun ns vs _ =>
      (expect .rightRound vs).map fun _ => ns.map .identifier
  else (name ts).map fun n => [.identifier n]

def operator? (t : Token τ) : Option Operator :=
  if t.is .times then some .times
  else if t.is .plus then some .plus
  else if t.is .index then some .index
  else none

/-- The token can begin the argument of an application. -/
def startsArgument : Token τ → Bool
  | .number _ => true
  | .identifier _ => true
  | .quoted _ => true
  | .error _ => false
  | .mark m _ => m = .leftRound || m = .leftSquare || m = .trueWord || m = .falseWord

/-- The three ways of listing in brackets. -/
inductive Listing where
  | array
  | tuple
  | block
  deriving Repr, DecidableEq

namespace Listing

def opening : Listing → Mark
  | .array => .leftSquare
  | .tuple => .leftRound
  | .block => .leftCurly

def closing : Listing → Mark
  | .array => .rightSquare
  | .tuple => .rightRound
  | .block => .rightCurly

def separator : Listing → Mark
  | .array => .comma
  | .tuple => .comma
  | .block => .semicolon

/-- The node for some items. A tuple or a block of one item is that item. -/
def build : Listing → List (Tree τ) → Tree τ
  | .array, items => .array items
  | .tuple, [item] => item
  | .tuple, items => .tuple items
  | .block, [item] => item
  | .block, items => .block items

end Listing

mutual

/-- Applications joined by operators, which group to the right. -/
def expression (ts : List (Token τ)) : Reading (Tree τ) ts :=
  (application ts).extend fun left us h =>
    match us, h with
    | [], _ => none
    | t :: vs, h =>
      have : vs.length < ts.length := Nat.lt_trans (by simp) h
      match operator? t with
      | some op => some (((expression vs).map fun right => .binary left right op).widen (by simp))
      | none => none
termination_by (ts.length, 4)

/-- A function and its argument, or an expression that is not applied. -/
def application (ts : List (Token τ)) : Reading (Tree τ) ts :=
  (lambda ts).extend fun f us _ =>
    match us.head? with
    | some t => if startsArgument t then some ((lambda us).map (.apply f)) else none
    | none => none
termination_by (ts.length, 3)

/-- A lambda, whose body reaches as far as it can, or a value. -/
def lambda (ts : List (Token τ)) : Reading (Tree τ) ts :=
  if nextIs .backslash ts then
    (expect .backslash ts).andThen fun _ us _ =>
    (parameters us).andThen fun ps vs _ =>
    (expect .fatRightArrow vs).andThen fun _ ws _ =>
    (expression ws).map (.lambda ps)
  else value ts
termination_by (ts.length, 2)

/-- A name, a literal or a listing. -/
def value (ts : List (Token τ)) : Reading (Tree τ) ts :=
  match ts with
  | [] => .error (.expectedValue none) [] (Nat.le_refl _)
  | .identifier n :: us => .ok (.identifier n) us (by simp)
  | .quoted s :: us => .ok (.text s) us (by simp)
  | .number n :: us => .ok (.number n) us (by simp)
  | .error s :: us => .error (.expectedValue (some (.error s))) (.error s :: us) (Nat.le_refl _)
  | .mark m note :: us =>
    if m = .trueWord then .ok (.boolean true) us (by simp)
    else if m = .falseWord then .ok (.boolean false) us (by simp)
    else if m = .leftSquare then listing .array (.mark m note :: us)
    else if m = .leftRound then listing .tuple (.mark m note :: us)
    else if m = .leftCurly then listing .block (.mark m note :: us)
    else .error (.expectedValue (some (.mark m note))) (.mark m note :: us) (Nat.le_refl _)
termination_by (ts.length, 1)

/-- Items in brackets. -/
def listing (l : Listing) (ts : List (Token τ)) : Reading (Tree τ) ts :=
  (expect l.opening ts).andThen fun _ us _ => (items l us).map l.build
termination_by (ts.length, 0)

/-- The items of a listing and its closing mark. -/
def items (l : Listing) (ts : List (Token τ)) : Reading (List (Tree τ)) ts :=
  if nextIs l.closing ts then (expect l.closing ts).map fun _ => []
  else (item l ts).andThen fun t us _ => (moreItems l us).map (t :: ·)
termination_by (ts.length, 7)

/-- The further items of a listing and its closing mark. -/
def moreItems (l : Listing) (ts : List (Token τ)) : Reading (List (Tree τ)) ts :=
  if nextIs l.closing ts then (expect l.closing ts).map fun _ => []
  else
    (expect l.separator ts).andThen fun _ us _ =>
    (item l us).andThen fun t vs _ =>
    (moreItems l vs).map (t :: ·)
termination_by (ts.length, 0)

/-- One item of a listing: a statement in a block, else an expression. -/
def item (l : Listing) (ts : List (Token τ)) : Reading (Tree τ) ts :=
  match l with
  | .block => statement ts
  | _ => expression ts
termination_by (ts.length, 6)

def statement (ts : List (Token τ)) : Reading (Tree τ) ts :=
  if ts.isEmpty then .error .expectedStatement ts (Nat.le_refl _)
  else if nextIs .letWord ts then binding ts
  else expression ts
termination_by (ts.length, 5)

/-- A name bound at a type to the value of an expression. -/
def binding (ts : List (Token τ)) : Reading (Tree τ) ts :=
  (expect .letWord ts).andThen fun _ us _ =>
  (name us).andThen fun n vs _ =>
  (expect .colon vs).andThen fun _ ws _ =>
  (type ws).andThen fun t xs _ =>
  (expect .equals xs).andThen fun _ ys _ =>
  (expression ys).map (.bind (.identifier n) t)
termination_by (ts.length, 0)

end

/-- Statements, each followed by a semicolon, up to the end of the tokens. A failure comes with the
tokens after the place where it was noticed. -/
def statements (ts : List (Token τ)) : Except (ParseError τ × List (Token τ)) (List (Tree τ)) :=
  if ts.isEmpty then .ok []
  else
    match (statement ts).andThen fun t us _ => (expect .semicolon us).map fun _ => t with
    | .error e us _ => .error (e, us)
    | .ok t us _ =>
      match statements us with
      | .ok rest => .ok (t :: rest)
      | .error e => .error e
termination_by ts.length

/-- The rules of the grammar that can be asked for by themselves. -/
inductive Rule where
  | file | type | expression | statement | value | lambda | application
  | arrayType | productType | functionType | binding | block | tuple | array
  deriving Repr, DecidableEq

/-- What a rule makes of some tokens, and the tokens after the place where it stopped. -/
def Rule.read (rule : Rule) (ts : List (Token τ)) :
    Except (ParseError τ) (Tree τ) × List (Token τ) :=
  match rule with
  | .file =>
    match statements ts with
    | .ok trees => (.ok (.file trees), [])
    | .error (e, rest) => (.error e, rest)
  | .type => (Grammar.type ts).outcome
  | .expression => (Grammar.expression ts).outcome
  | .statement => (Grammar.statement ts).outcome
  | .value => (Grammar.value ts).outcome
  | .lambda => (Grammar.lambda ts).outcome
  | .application => (Grammar.application ts).outcome
  | .arrayType => (Grammar.arrayType ts).outcome
  | .productType => (Grammar.productType ts).outcome
  | .functionType => (Grammar.functionType ts).outcome
  | .binding => (Grammar.binding ts).outcome
  | .block => (Grammar.listing .block ts).outcome
  | .tuple => (Grammar.listing .tuple ts).outcome
  | .array => (Grammar.listing .array ts).outcome

end Grammar

def parse {τ : Type} (ts : List (Token τ)) : Except (ParseError τ) (List (Tree τ)) :=
  match Grammar.statements ts with
  | .ok trees => .ok trees
  | .error (e, _) => .error e

/-- Why a source text has no statements: a number of it cannot be read, or the grammar refuses its
tokens. -/
inductive SourceError where
  | numeral (e : Text.UnreadNumeral)
  | grammar (e : ParseError String)
  deriving Repr, DecidableEq

instance : Coe (ParseError String) SourceError := ⟨.grammar⟩

def SourceError.message : SourceError → String
  | .numeral e => e.message
  | .grammar e => e.message

def parseSource (source : String) : Except SourceError (List (Tree String)) :=
  match tokenize source with
  | .error e => .error (.numeral e)
  | .ok ts => (parse ts).mapError .grammar

end LetLang
