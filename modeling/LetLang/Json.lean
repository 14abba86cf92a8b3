import LetLang.Text.Quoted

/-!
# JSON text

A printer for JSON values that keeps to ASCII: a character above it is written by its UTF-16 code
units. Items stand on lines of their own, two blanks further in than what they belong to.
-/

namespace LetLang

inductive Json where
  | number (n : Int)
  | string (s : String)
  | list (items : List Json)
  | object (fields : List (String × Json))
  deriving Repr

namespace Json

/-- One UTF-16 code unit, written by its number. -/
def unit16 (n : Nat) : List Char := '\\' :: 'u' :: Text.hexDigits 4 n

def escape (c : Char) : List Char :=
  if c = '"' ∨ c = '\\' then ['\\', c]
  else if c = '\n' then ['\\', 'n']
  else if c = '\r' then ['\\', 'r']
  else if c = '\t' then ['\\', 't']
  else if c = '\x08' then ['\\', 'b']
  else if c = '\x0c' then ['\\', 'f']
  else if 0x20 ≤ c.toNat ∧ c.toNat < 0x7f then [c]
  else if c.toNat < 0x10000 then unit16 c.toNat
  else
    unit16 (0xd800 + (c.toNat - 0x10000) / 0x400) ++ unit16 (0xdc00 + (c.toNat - 0x10000) % 0x400)

def quote (s : String) : String := "\"" ++ String.ofList (s.toList.flatMap escape) ++ "\""

def indent (depth : Nat) : String := String.ofList (List.replicate (2 * depth) ' ')

def enclose (opening closing : String) (depth : Nat) : List String → String
  | [] => opening ++ closing
  | items =>
    opening ++ "\n" ++ String.intercalate ",\n" (items.map fun s => indent (depth + 1) ++ s) ++
      "\n" ++ indent depth ++ closing

mutual

def render (depth : Nat) : Json → String
  | .number n => s!"{n}"
  | .string s => quote s
  | .list items => enclose "[" "]" depth (renderItems (depth + 1) items)
  | .object fields => enclose "\x7b" "\x7d" depth (renderFields (depth + 1) fields)

def renderItems (depth : Nat) : List Json → List String
  | [] => []
  | v :: vs => render depth v :: renderItems depth vs

def renderFields (depth : Nat) : List (String × Json) → List String
  | [] => []
  | (k, v) :: rest => (quote k ++ ": " ++ render depth v) :: renderFields depth rest

end

end Json

end LetLang
