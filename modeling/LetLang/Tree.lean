/-!
# The surface tree

The tree of a source text, before any stage has looked at it. A node may stand in any child place;
which places are sensible is for the later stages to say. Names and texts are of any type: the
grammar does not look at them, and the later stages work on trees of strings.
-/

namespace LetLang

inductive Operator where
  | times
  | plus
  | index
  deriving Repr, DecidableEq

def Operator.sign : Operator → String
  | .times => "*"
  | .plus => "+"
  | .index => "!!"

/-- A node of the surface tree. Expressions, statements, type expressions and whole files are nodes
of one kind. -/
inductive Tree (τ : Type) where
  | file (statements : List (Tree τ))
  | bind (id type value : Tree τ)
  | identifier (name : τ)
  | binary (left right : Tree τ) (operator : Operator)
  | lambda (parameters : List (Tree τ)) (body : Tree τ)
  | apply (callee argument : Tree τ)
  | number (value : Int)
  | boolean (value : Bool)
  | text (text : τ)
  | tuple (elements : List (Tree τ))
  | array (elements : List (Tree τ))
  | block (statements : List (Tree τ))
  | sumType (options : List (Tree τ))
  | productType (elements : List (Tree τ))
  | typeName (name : τ)
  | functionType (source target : Tree τ)
  | arrayType (element : Tree τ) (length : Int)
  | unitType
  deriving Repr, Inhabited

def Tree.kind {τ : Type} : Tree τ → String
  | .file _ => "File"
  | .bind .. => "Let"
  | .identifier _ => "Identifier"
  | .binary .. => "BinOp"
  | .lambda .. => "Lambda"
  | .apply .. => "App"
  | .number _ => "Number"
  | .boolean _ => "Boolean"
  | .text _ => "Text"
  | .tuple _ => "Tuple"
  | .array _ => "Array"
  | .block _ => "Block"
  | .sumType _ => "SumType"
  | .productType _ => "ProductType"
  | .typeName _ => "IdentifierType"
  | .functionType .. => "FunctionType"
  | .arrayType .. => "ArrayType"
  | .unitType => "UnitType"

/-- The name that a node carries, if it is a name of a variable or of a type. -/
def Tree.name? {τ : Type} : Tree τ → Option τ
  | .identifier name => some name
  | .typeName name => some name
  | _ => none

end LetLang
