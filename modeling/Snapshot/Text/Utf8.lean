/-!
# UTF-8

Decoding reads a byte at a time and carries at most one unfinished character. A byte that cannot
continue the unfinished character ends it as one invalid part and is then read afresh; so is each
byte that cannot start a character. Every invalid part is thus as long as possible, and an ASCII
byte is never swallowed by one.
-/

namespace Snapshot.Utf8

/-- A character of several bytes under way: its bits so far, the bounds of the next byte, and how
many continuation bytes follow that one. -/
structure Unfinished where
  bits : Nat
  low : UInt8
  high : UInt8
  more : Nat
deriving DecidableEq, Repr

/-- What reading one byte leads to: a character, an invalid part (`none`), or an unfinished
character. -/
inductive Progress where
  | done (char? : Option Char)
  | unfinished (state : Unfinished)
deriving DecidableEq, Repr

/-- Reads a byte where a character starts. The bounds of the second byte exclude overlong forms,
surrogates and code points above `0x10FFFF`. -/
def start (byte : UInt8) : Progress :=
  if byte < 0x80 then
    .done (some (Char.ofNat byte.toNat))
  else if byte < 0xC2 then
    .done none
  else if byte < 0xE0 then
    .unfinished ⟨byte.toNat - 0xC0, 0x80, 0xBF, 0⟩
  else if byte < 0xF0 then
    .unfinished ⟨byte.toNat - 0xE0, if byte = 0xE0 then 0xA0 else 0x80,
      if byte = 0xED then 0x9F else 0xBF, 1⟩
  else if byte < 0xF5 then
    .unfinished ⟨byte.toNat - 0xF0, if byte = 0xF0 then 0x90 else 0x80,
      if byte = 0xF4 then 0x8F else 0xBF, 2⟩
  else
    .done none

/-- Adds a continuation byte that lies within the bounds. -/
def Unfinished.extend (state : Unfinished) (byte : UInt8) : Progress :=
  let bits := 64 * state.bits + (byte.toNat - 0x80)
  match state.more with
  | 0 => .done (some (Char.ofNat bits))
  | more + 1 => .unfinished ⟨bits, 0x80, 0xBF, more⟩

def Unfinished.accepts (state : Unfinished) (byte : UInt8) : Bool :=
  state.low ≤ byte && byte ≤ state.high

/-- What stands in the decoded text once the step is made. -/
def Progress.decoded : Progress → List (Option Char)
  | .done char? => [char?]
  | .unfinished _ => []

/-- The unfinished character that the step leaves behind. -/
def Progress.pending : Progress → Option Unfinished
  | .done _ => none
  | .unfinished state => some state

/-- Decodes the bytes after an unfinished character, if there is one. -/
def decodeFrom : Option Unfinished → List UInt8 → List (Option Char)
  | none, [] => []
  | some _, [] => [none]
  | none, byte :: rest =>
      (start byte).decoded ++ decodeFrom (start byte).pending rest
  | some state, byte :: rest =>
      if state.accepts byte then
        (state.extend byte).decoded ++ decodeFrom (state.extend byte).pending rest
      else
        none :: (start byte).decoded ++ decodeFrom (start byte).pending rest

/-- The characters of a byte sequence, with `none` for each invalid part. -/
def decode (bytes : List UInt8) : List (Option Char) :=
  decodeFrom none bytes

def text? (bytes : List UInt8) : Option (List Char) :=
  (decode bytes).mapM id

/-- The text that bytes stand for, with U+FFFD in place of each invalid part. -/
def lossyText (bytes : List UInt8) : List Char :=
  (decode bytes).map (·.getD '\uFFFD')

def encode (text : List Char) : List UInt8 :=
  text.flatMap String.utf8EncodeChar

@[simp] theorem encode_nil : encode [] = [] := rfl

@[simp] theorem encode_cons (c : Char) (text : List Char) :
    encode (c :: text) = String.utf8EncodeChar c ++ encode text := rfl

@[simp] theorem encode_append (left right : List Char) :
    encode (left ++ right) = encode left ++ encode right :=
  List.flatMap_append

end Snapshot.Utf8
