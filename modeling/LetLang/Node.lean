import LetLang.Arena
import LetLang.Text.Quoted
import LetLang.Tree

/-!
# Arena nodes

The nodes of a lowered program. Where a surface node holds its children, an arena node holds their
numbers, and functions stand by themselves under a name.
-/

namespace LetLang

/-- A node of a lowered program. A `native` node declares a function that has no body here. -/
inductive Node where
  | file (functions : List Int)
  | bind (id type value : Int)
  | sequence (elements : List Int)
  | identifier (name : String)
  | binary (operator : Operator) (left right : Int)
  | number (value : Int)
  | boolean (value : Bool)
  | text (text : String)
  | tuple (elements : List Int)
  | array (elements : List Int)
  | function (name : String) (parameters : List Int) (body : Int)
  | native (name : String) (parameters : List String)
  | apply (callee argument : Int)
  | sumType (options : List Int)
  | productType (elements : List Int)
  | typeName (name : String)
  | functionType (source target : Int)
  | arrayType (length : Int) (element : Int)
  | unitType
  deriving Repr, DecidableEq

namespace Node

/-- The name of a node's kind. Functions of both sorts are of one kind. -/
def kind : Node → String
  | .file _ => "File"
  | .bind .. => "Let"
  | .sequence _ => "Seq"
  | .identifier _ => "Identifier"
  | .binary .. => "BinOp"
  | .number _ => "Number"
  | .boolean _ => "Boolean"
  | .text _ => "Text"
  | .tuple _ => "Tuple"
  | .array _ => "Array"
  | .function .. => "Function"
  | .native .. => "Function"
  | .apply .. => "Apply"
  | .sumType _ => "SumType"
  | .productType _ => "ProductType"
  | .typeName _ => "IdentifierType"
  | .functionType .. => "FunctionType"
  | .arrayType .. => "ArrayType"
  | .unitType => "UnitType"

/-- What a node carries of its own, as its label shows it. -/
def detail : Node → Option String
  | .identifier name => some name
  | .typeName name => some name
  | .function name _ _ => some name
  | .native name _ => some name
  | .number n => some s!"{n}"
  | .boolean true => some "True"
  | .boolean false => some "False"
  | .text s => some (Text.quote s)
  | .binary op _ _ => some op.sign
  | .arrayType length _ => some s!";{length}"
  | _ => none

/-- The label of a node: its kind, and what it carries in brackets. -/
def label (n : Node) : String :=
  match n.detail with
  | some d => n.kind ++ "(" ++ d ++ ")"
  | none => n.kind

def references : Node → List Int
  | .file functions => functions
  | .bind id type value => [id, type, value]
  | .sequence elements => elements
  | .binary _ left right => [left, right]
  | .tuple elements => elements
  | .array elements => elements
  | .function _ parameters body => parameters ++ [body]
  | .apply callee argument => [callee, argument]
  | .sumType options => options
  | .productType elements => elements
  | .functionType source target => [source, target]
  | .arrayType _ element => [element]
  | _ => []

/-- The node belongs to a type expression. -/
def isType : Node → Bool
  | .sumType _ | .productType _ | .typeName _ | .functionType .. | .arrayType .. | .unitType => true
  | _ => false

end Node

end LetLang
