import LetLang.Text.Quoted

/-!
# Reading UTF-8

Bytes become characters, or the first ill-formed sequence is reported with its place. An ill-formed
sequence reaches as far as its bytes could still start a character. Line ends of two other kinds
become newlines.
-/

namespace LetLang.Text

inductive Utf8Fault where
  /-- No character starts with this byte. -/
  | start
  /-- A byte that does not continue the character follows. -/
  | continuation
  /-- The bytes end inside the character. -/
  | ending
  deriving Repr, DecidableEq

/-- An ill-formed sequence: its first byte, its place and its length. -/
structure Utf8Error where
  fault : Utf8Fault
  byte : UInt8
  position : Nat
  length : Nat
  deriving Repr, DecidableEq

def Utf8Fault.message : Utf8Fault → String
  | .start => "invalid start byte"
  | .continuation => "invalid continuation byte"
  | .ending => "unexpected end of data"

/-- The report of an ill-formed sequence: one byte is shown, of several the places. -/
def Utf8Error.message (e : Utf8Error) : String :=
  let what :=
    if e.length = 1 then
      "byte 0x" ++ String.ofList (hexDigits 2 e.byte.toNat) ++ s!" in position {e.position}"
    else s!"bytes in position {e.position}-{e.position + e.length - 1}"
  "'utf-8' codec can't decode " ++ what ++ ": " ++ e.fault.message

/-- How many bytes continue the character that a byte starts. -/
def continuationCount (lead : Nat) : Option Nat :=
  if lead < 0x80 then some 0
  else if lead < 0xc2 then none
  else if lead < 0xe0 then some 1
  else if lead < 0xf0 then some 2
  else if lead < 0xf5 then some 3
  else none

/-- The bytes that may follow a first byte. The narrower ranges leave out overlong forms, surrogates
and code points above the last one. -/
def secondByteRange (lead : Nat) : CharRange :=
  if lead = 0xe0 then (0xa0, 0xbf)
  else if lead = 0xed then (0x80, 0x9f)
  else if lead = 0xf0 then (0x90, 0xbf)
  else if lead = 0xf4 then (0x80, 0x8f)
  else (0x80, 0xbf)

def leadBits (lead : Nat) : Nat :=
  if lead < 0x80 then lead
  else if lead < 0xe0 then lead % 0x20
  else if lead < 0xf0 then lead % 0x10
  else lead % 0x08

/-- Up to `count` continuation bytes, of which the first lies in `range`: the code point with their
bits, how many are missing, and the bytes after them. -/
def continueCode : (count : Nat) → (range : CharRange) → (code : Nat) → List UInt8 →
    Nat × Nat × List UInt8
  | 0, _, code, bytes => (code, 0, bytes)
  | count + 1, _, code, [] => (code, count + 1, [])
  | count + 1, range, code, b :: bytes =>
    if range.1 ≤ b.toNat ∧ b.toNat ≤ range.2 then
      continueCode count (0x80, 0xbf) (code * 0x40 + b.toNat % 0x40) bytes
    else (code, count + 1, b :: bytes)

theorem length_continueCode_le (count : Nat) (range : CharRange) (code : Nat)
    (bytes : List UInt8) : (continueCode count range code bytes).2.2.length ≤ bytes.length := by
  induction count generalizing range code bytes with
  | zero => simp [continueCode]
  | succ count ih =>
    cases bytes with
    | nil => simp [continueCode]
    | cons b bytes =>
      unfold continueCode
      split
      · exact Nat.le_succ_of_le (ih _ _ _)
      · simp

/-- The characters of the bytes that begin at `position`. -/
def decodeFrom (position : Nat) : (bytes : List UInt8) → Except Utf8Error (List Char)
  | [] => .ok []
  | b :: bytes =>
    match continuationCount b.toNat with
    | none => .error ⟨.start, b, position, 1⟩
    | some count =>
      let next := continueCode count (secondByteRange b.toNat) (leadBits b.toNat) bytes
      if next.2.1 = 0 then
        match decodeFrom (position + 1 + count) next.2.2 with
        | .ok cs => .ok (Char.ofNat next.1 :: cs)
        | .error e => .error e
      else
        let fault := if next.2.2.isEmpty then Utf8Fault.ending else .continuation
        .error ⟨fault, b, position, 1 + count - next.2.1⟩
termination_by bytes => bytes.length
decreasing_by
  have := length_continueCode_le count (secondByteRange b.toNat) (leadBits b.toNat) bytes
  simp only [List.length_cons]
  omega

/-- A carriage return, alone or before a newline, becomes a newline. -/
def unifyLineEnds : List Char → List Char
  | [] => []
  | '\r' :: '\n' :: cs => '\n' :: unifyLineEnds cs
  | '\r' :: cs => '\n' :: unifyLineEnds cs
  | c :: cs => c :: unifyLineEnds cs

def decodeText (bytes : List UInt8) : Except Utf8Error String :=
  (decodeFrom 0 bytes).map fun cs => String.ofList (unifyLineEnds cs)

end LetLang.Text
