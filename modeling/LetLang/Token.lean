import LetLang.Text.Quoted

/-!
# Tokens

A token is a number, a word of the writer's own, a quoted text, a character that means nothing, or a
mark: a keyword or a piece of punctuation, known by its kind alone.
-/

namespace LetLang

/-- The kinds of tokens that carry no text of their own. Keywords end in `Word`. A `foreign` mark
belongs to no rule of the grammar; the scanner makes none, a token list from elsewhere may. -/
inductive Mark where
  | typeWord | trueWord | falseWord | matchWord | moduleWord | publicWord | refWord | importWord
  | ifWord | whileWord | functionWord | letWord | elseIfWord | elseWord
  | rightArrow | fatRightArrow | leftSquare | rightSquare | leftRound | rightRound
  | leftCurly | rightCurly | colon | semicolon | comma | pipe | doubleEquals | equals | backslash
  | smallerThan | greaterThan | modulo | or | plus | times | minus | index | not
  | foreign (name : String)
  deriving Repr, DecidableEq

def Mark.name : Mark → String
  | .typeWord => "TYPE"
  | .trueWord => "TRUE"
  | .falseWord => "FALSE"
  | .matchWord => "MATCH"
  | .moduleWord => "MODULE"
  | .publicWord => "PUBLIC"
  | .refWord => "REF"
  | .importWord => "IMPORT"
  | .ifWord => "IF"
  | .whileWord => "WHILE"
  | .functionWord => "FUNCTION"
  | .letWord => "LET"
  | .elseIfWord => "ELSEIF"
  | .elseWord => "ELSE"
  | .rightArrow => "RIGHT_ARROW"
  | .fatRightArrow => "FAT_RIGHT_ARROW"
  | .leftSquare => "LEFT_SQUARE"
  | .rightSquare => "RIGHT_SQUARE"
  | .leftRound => "LEFT_ROUND"
  | .rightRound => "RIGHT_ROUND"
  | .leftCurly => "LEFT_CURLY"
  | .rightCurly => "RIGHT_CURLY"
  | .colon => "COLON"
  | .semicolon => "SEMICOLON"
  | .comma => "COMMA"
  | .pipe => "PIPE"
  | .doubleEquals => "DOUBLE_EQUALS"
  | .equals => "EQUALS"
  | .backslash => "BACKSLASH"
  | .smallerThan => "SMALLER_THAN"
  | .greaterThan => "GREATER_THAN"
  | .modulo => "MODULO"
  | .or => "OR"
  | .plus => "PLUS"
  | .times => "MUL"
  | .minus => "MINUS"
  | .index => "ARR_INDEX"
  | .not => "NOT"
  | .foreign name => name

def keywords : List (String × Mark) :=
  [("type", .typeWord), ("true", .trueWord), ("false", .falseWord), ("match", .matchWord),
   ("module", .moduleWord), ("public", .publicWord), ("ref", .refWord), ("import", .importWord),
   ("if", .ifWord), ("while", .whileWord), ("fn", .functionWord), ("let", .letWord),
   ("elseif", .elseIfWord), ("else", .elseWord)]

def singleMarks : List (Char × Mark) :=
  [('[', .leftSquare), (']', .rightSquare), ('(', .leftRound), (')', .rightRound),
   ('\x7b', .leftCurly), ('\x7d', .rightCurly), (':', .colon), (';', .semicolon), (',', .comma),
   ('|', .pipe), ('=', .equals), ('\\', .backslash), ('<', .smallerThan), ('>', .greaterThan),
   ('%', .modulo), ('+', .plus), ('*', .times), ('-', .minus), ('!', .not)]

/-- The marks that are written with two characters. Each begins with a mark of one character. -/
def doubleMarks : List ((Char × Char) × Mark) :=
  [(('-', '>'), .rightArrow), (('=', '>'), .fatRightArrow), (('=', '='), .doubleEquals),
   (('|', '|'), .or), (('!', '!'), .index)]

/-- The marks of the grammar with the text that writes each. -/
def spellings : List (String × Mark) :=
  keywords ++ singleMarks.map (fun e => (String.singleton e.1, e.2)) ++
    doubleMarks.map (fun e => (String.ofList [e.1.1, e.1.2], e.2))

/-- A type of the texts that tokens carry. -/
class TokenText (τ : Type) where
  /-- The text as messages show it, if they show one. -/
  shown : τ → Option String

instance : TokenText String := ⟨some⟩

/-- A token that was made by hand may come without its text. -/
instance : TokenText (Option String) := ⟨id⟩

/-- The smallest units of a source text. A mark may carry a note that its maker put there; the
grammar does not look at it, messages show it. -/
inductive Token (τ : Type) where
  | number (value : Int)
  | identifier (name : τ)
  | quoted (text : τ)
  | error (text : τ)
  | mark (mark : Mark) (note : Option String)
  deriving Repr, DecidableEq

namespace Token

variable {τ : Type}

def kind : Token τ → String
  | .number _ => "NUMBER"
  | .identifier _ => "IDENTIFIER"
  | .quoted _ => "QUOTED"
  | .error _ => "ERROR"
  | .mark m _ => m.name

def content [TokenText τ] : Token τ → Option String
  | .number value => some s!"{value}"
  | .identifier name => (TokenText.shown name).map Text.quote
  | .quoted text => (TokenText.shown text).map Text.quote
  | .error text => (TokenText.shown text).map Text.quote
  | .mark _ note => note.map Text.quote

/-- A token in a message: its kind, and what it carries in brackets. -/
def display [TokenText τ] (t : Token τ) : String :=
  match t.content with
  | some s => t.kind ++ "(" ++ s ++ ")"
  | none => t.kind

/-- The token is this mark, whatever its note. -/
def is (m : Mark) : Token τ → Bool
  | .mark m' _ => m' = m
  | _ => false

end Token

end LetLang
