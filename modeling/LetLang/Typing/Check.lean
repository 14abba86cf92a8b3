import LetLang.Tree
import LetLang.Typing.Context

/-!
# Type checking

A node is checked under a demand, which its parent makes: nothing, or a type that it has to have. It
yields a type, or none where it is a statement. Bindings go into one context as the check walks on,
and they stay when it fails; the first failure ends the check.
-/

namespace LetLang

/-- The places whose node has to yield a type. -/
inductive TypedPlace where
  | indexedArray | leftOperand | rightOperand | lambdaBody | tupleElement | arrayElement
  | productElement | functionSource | functionTarget | arrayTypeElement
  deriving Repr, DecidableEq

def TypedPlace.name : TypedPlace → String
  | .indexedArray => "array index lhs"
  | .leftOperand => "binop lhs"
  | .rightOperand => "binop rhs"
  | .lambdaBody => "lambda body"
  | .tupleElement => "tuple element"
  | .arrayElement => "array element"
  | .productElement => "product element"
  | .functionSource => "function type lhs"
  | .functionTarget => "function type rhs"
  | .arrayTypeElement => "array value type"

inductive TypeError where
  | noType (place : TypedPlace)
  | bindingWithoutType
  | bindingWithoutValue
  | bindingMismatch (declared actual : Ty)
  | notAName (kind : String)
  | emptyBlock
  | unknownVariable (name : String)
  | unknownType (name : String)
  | indexIntoNonArray
  | operandMismatch (left right : Ty)
  | lambdaWithoutDemand
  | lambdaWithOpenDemand
  | lambdaAgainst (demanded : Ty)
  | parameterCount
  | severalParameters
  | bodyMismatch (actual declared : Ty)
  | applyNonFunction
  | argumentWithoutType
  | argumentMismatch (parameter argument : Ty)
  | numberAgainst (demanded : Ty)
  | emptyArrayWithoutDemand
  | arrayAgainst
  | arrayMismatch
  deriving Repr, DecidableEq

def TypeError.message : TypeError → String
  | .noType place => "Expected " ++ place.name ++ " to yield a type"
  | .bindingWithoutType => "Expected let rhs to return a type"
  | .bindingWithoutValue => "Expected let expression to yield type"
  | .bindingMismatch declared actual =>
    "Let type " ++ declared.display ++ " does not match expression type " ++ actual.display
  | .notAName kind => "Expected a name to bind, got " ++ kind
  | .emptyBlock => "Expected block to end in a statement yielding its type"
  | .unknownVariable name => "Unknown variable " ++ name
  | .unknownType name => "Unknown type identifier: " ++ name
  | .indexIntoNonArray => "Lhs of array index operation must have array type"
  | .operandMismatch left right =>
    "BinOp types must be equal, got " ++ left.display ++ " and " ++ right.display
  | .lambdaWithoutDemand => "Expected constraints"
  | .lambdaWithOpenDemand => "Expected equality constraints"
  | .lambdaAgainst demanded => "Expected function constraint, got " ++ demanded.display
  | .parameterCount => "Product type constraint not the same length as function parameter list"
  | .severalParameters => "Lambda has multiple parameters but single type was given"
  | .bodyMismatch actual declared =>
    "Lambda body type " ++ actual.display ++ " does not match return type " ++ declared.display
  | .applyNonFunction => "Expected function type result"
  | .argumentWithoutType => "Expected parameters to evaluate to type"
  | .argumentMismatch parameter argument =>
    "Param type " ++ parameter.display ++ " does not match argument type " ++ argument.display
  | .numberAgainst demanded => "Expected integer constraint, got " ++ demanded.display
  | .emptyArrayWithoutDemand => "Empty array requires type constraint to determine array type"
  | .arrayAgainst => "Cannot satisfy non-array type constraint when checking array"
  | .arrayMismatch => "Array values must be of equal type"

/-- What the place of a node asks of its type. An open demand asks for nothing, as no demand does;
only a lambda tells the two apart, in its failure. -/
inductive Demand where
  | nothing
  | open
  | exactly (type : Ty)
  deriving Repr, DecidableEq

def Demand.type? : Demand → Option Ty
  | .exactly t => some t
  | _ => none

namespace Typing

/-- The state of a check: the context, and the bindings whose value was found to fit, the last one
first. -/
structure State where
  context : Context
  fitted : List (String × Ty)

/-- A step of a check. The state reached is kept when the step fails. -/
abbrev Step := EStateM TypeError State

/-- Insists that a node yielded a type. -/
def yielded (place : TypedPlace) : Option Ty → Step Ty
  | some t => pure t
  | none => throw (.noType place)

def addVariable (name : String) (type : Ty) : Step Unit :=
  modify fun s => { s with context := s.context.addVariable name type }

def addParameter (parameter : Tree String) (type : Ty) : Step Unit :=
  match parameter.name? with
  | some name => addVariable name type
  | none => throw (.notAName parameter.kind)

/-- Binds parameters to types, pair by pair. -/
def addParameters : List (Tree String) → List Ty → Step Unit
  | p :: ps, t :: ts => do
    addParameter p t
    addParameters ps ts
  | _, _ => pure ()

/-- Binds the parameters of a lambda whose argument has the type `source`. A product is spread over
the parameters, the unit type binds none of them, and any other type needs one parameter. -/
def addLambdaParameters (parameters : List (Tree String)) (source : Ty) : Step Unit :=
  match source with
  | .product elements =>
    if elements.length = parameters.length then addParameters parameters elements
    else throw .parameterCount
  | .unit => pure ()
  | t =>
    match parameters with
    | [p] => addParameter p t
    | _ => throw .severalParameters

def numberType : Option Ty → Step Ty
  | none => pure (.atom .i64)
  | some (.atom a) => if a.isInteger then pure (.atom a) else throw (.numberAgainst (.atom a))
  | some t => throw (.numberAgainst t)

def elementDemand : Option Ty → Step Demand
  | none => pure .nothing
  | some (.array element _) => pure (.exactly element)
  | some _ => throw .arrayAgainst

mutual

/-- Checks a node under a demand. -/
def check : Tree String → Demand → Step (Option Ty)
  | .file statements, _ => do
    checkStatements statements
    return none
  | .bind id type value, _ => do
    match ← check type .nothing with
    | none => throw .bindingWithoutType
    | some declared =>
      match id.name? with
      | none => throw (.notAName id.kind)
      | some name =>
        addVariable name declared
        match ← check value (.exactly declared) with
        | none => throw .bindingWithoutValue
        | some actual =>
          if actual = declared then
            modify fun s => { s with fitted := (name, declared) :: s.fitted }
            return none
          else throw (.bindingMismatch declared actual)
  | .block statements, d => checkBlock statements d
  | .identifier name, _ => do
    match (← get).context.typeOf? name with
    | some t => return some t
    | none => throw (.unknownVariable name)
  | .binary left right .index, _ => do
    match ← yielded .indexedArray (← check left .nothing) with
    | .array element _ =>
      let _ ← check right (.exactly (.atom .ui64))
      return some element
    | _ => throw .indexIntoNonArray
  | .binary left right _, d => do
    let t ← yielded .leftOperand (← check left d)
    let u ← yielded .rightOperand (← check right d)
    if t = u then return some t else throw (.operandMismatch t u)
  | .lambda parameters body, d =>
    match d with
    | .nothing => throw .lambdaWithoutDemand
    | .open => throw .lambdaWithOpenDemand
    | .exactly (.function source target) => do
      addLambdaParameters parameters source
      let actual ← yielded .lambdaBody (← check body (.exactly target))
      if actual = target then return some (.function source target)
      else throw (.bodyMismatch actual target)
    | .exactly t => throw (.lambdaAgainst t)
  | .apply callee argument, _ => do
    match ← check callee .nothing with
    | some (.function source target) =>
      match ← check argument .nothing with
      | none => throw .argumentWithoutType
      | some t => if t = source then return some target else throw (.argumentMismatch source t)
    | _ => throw .applyNonFunction
  | .number _, d => return some (← numberType d.type?)
  | .boolean _, _ => return some (.atom .boolean)
  | .text _, _ => return some (.atom .text)
  | .tuple elements, _ => return some (.product (← checkAll .tupleElement .open elements))
  | .array [], d =>
    match d.type? with
    | some t => return some t
    | none => throw .emptyArrayWithoutDemand
  | .array (first :: rest), d => do
    let demand ← elementDemand d.type?
    let t ← yielded .arrayElement (← check first demand)
    checkEqual t demand rest
    return some (.array t (rest.length + 1))
  | .sumType _, _ => return none
  | .productType elements, _ =>
    return some (.product (← checkAll .productElement .nothing elements))
  | .typeName name, _ => do
    match (← get).context.typeNamed? name with
    | some t => return some t
    | none => throw (.unknownType name)
  | .functionType source target, _ => do
    let s ← yielded .functionSource (← check source .nothing)
    let t ← yielded .functionTarget (← check target .nothing)
    return some (.function s t)
  | .arrayType element length, _ => do
    let t ← yielded .arrayTypeElement (← check element .nothing)
    return some (.array t length)
  | .unitType, _ => return some .unit

def checkStatements : List (Tree String) → Step Unit
  | [] => pure ()
  | t :: ts => do
    let _ ← check t .nothing
    checkStatements ts

/-- Checks the statements of a block. The last one is under the block's demand and gives the block
its type. -/
def checkBlock : List (Tree String) → Demand → Step (Option Ty)
  | [], _ => throw .emptyBlock
  | [t], d => check t d
  | t :: ts, d => do
    let _ ← check t .nothing
    checkBlock ts d

/-- Checks nodes under one demand; each has to yield a type. -/
def checkAll (place : TypedPlace) (d : Demand) : List (Tree String) → Step (List Ty)
  | [] => return []
  | t :: ts => do
    let first ← yielded place (← check t d)
    let rest ← checkAll place d ts
    return first :: rest

/-- Checks the further elements of an array; each has to have the type of the first. -/
def checkEqual (first : Ty) (d : Demand) : List (Tree String) → Step Unit
  | [] => pure ()
  | t :: ts => do
    let u ← yielded .arrayElement (← check t d)
    if u = first then checkEqual first d ts else throw .arrayMismatch

end

/-- Checks a node in a context: the type or the failure, and the state reached. -/
def run (tree : Tree String) (d : Demand) (context : Context) :
    Except TypeError (Option Ty) × State :=
  match check tree d ⟨context, []⟩ with
  | .ok t s => (.ok t, s)
  | .error e s => (.error e, s)

/-- What a check reports of the bindings that fit. -/
def State.notes (s : State) : List String :=
  s.fitted.reverse.map fun b => "bound " ++ b.1 ++ " : " ++ b.2.display

end Typing

end LetLang
