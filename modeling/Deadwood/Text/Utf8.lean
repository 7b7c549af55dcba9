import Deadwood.Text.Quoted

/-!
# UTF-8

Files are bytes; texts are characters. Writing a text always succeeds. Reading bytes as a text cuts
them into characters and into the longest beginnings of characters that cannot be completed; a
strict reading stops at the first such fault and says where it stands, a lenient one puts the
replacement character in its place.
-/

set_option autoImplicit false

namespace Deadwood.Text.Utf8

/-- The bytes of a text. -/
def encode (text : List Char) : List UInt8 := text.flatMap String.utf8EncodeChar

/-- Why bytes cannot be read as a character. -/
inductive Fault where
  /-- The byte begins no character. -/
  | start
  /-- A byte inside the character is no continuation of it. -/
  | continuation
  /-- The bytes end inside the character. -/
  | truncated
  deriving DecidableEq, Repr

/-- A fault with its place: the position of the first byte concerned, that byte, and how many bytes
are concerned. -/
structure DecodeError where
  position : Nat
  byte : UInt8
  width : Nat
  fault : Fault
  deriving DecidableEq, Repr

/-- The wording of a fault. -/
def Fault.message : Fault → String
  | .start => "invalid start byte"
  | .continuation => "invalid continuation byte"
  | .truncated => "unexpected end of data"

/-- The wording of a fault with its place: one byte is shown, several are counted. -/
def DecodeError.message (e : DecodeError) : String :=
  let place :=
    if e.width = 1 then
      "byte 0x" ++ String.ofList (hexDigits 2 e.byte.toNat) ++ " in position " ++
        toString e.position
    else
      "bytes in position " ++ toString e.position ++ "-" ++ toString (e.position + e.width - 1)
  "'utf-8' codec can't decode " ++ place ++ ": " ++ e.fault.message

/-- How many bytes follow the first byte of a character, with the bounds of the second byte; the
bounds keep out overlong forms, surrogates and values beyond the last code point. -/
def lead? (byte : UInt8) : Option (Nat × UInt8 × UInt8) :=
  if byte < 0x80 then some (0, 0x80, 0xbf)
  else if byte < 0xc2 then none
  else if byte < 0xe0 then some (1, 0x80, 0xbf)
  else if byte = 0xe0 then some (2, 0xa0, 0xbf)
  else if byte = 0xed then some (2, 0x80, 0x9f)
  else if byte < 0xf0 then some (2, 0x80, 0xbf)
  else if byte = 0xf0 then some (3, 0x90, 0xbf)
  else if byte < 0xf4 then some (3, 0x80, 0xbf)
  else if byte = 0xf4 then some (3, 0x80, 0x8f)
  else none

/-- The bits that the first byte of a character with `owed` further bytes contributes. -/
def leadBits (owed : Nat) (byte : UInt8) : Nat :=
  if owed = 0 then byte.toNat else byte.toNat % Nat.pow 2 (6 - owed)

/-- Read `owed` continuation bytes onto `value`, the first of them within the bounds; `taken` of
them have been read before. -/
def readTail (value taken : Nat) :
    (owed : Nat) → (low high : UInt8) → List UInt8 → Except (Fault × Nat) (Nat × Nat)
  | 0, _, _, _ => .ok (value, taken)
  | _ + 1, _, _, [] => .error (.truncated, taken)
  | owed + 1, low, high, byte :: bytes =>
    if low ≤ byte ∧ byte ≤ high then
      readTail (value * 64 + byte.toNat % 64) (taken + 1) owed 0x80 0xbf bytes
    else .error (.continuation, taken)

/-- Read one character: it, or the fault, with the number of bytes it takes beyond the first. -/
def readChar (byte : UInt8) (bytes : List UInt8) : Except (Fault × Nat) (Char × Nat) :=
  match lead? byte with
  | none => .error (.start, 0)
  | some (owed, low, high) =>
    (readTail (leadBits owed byte) 0 owed low high bytes).map fun (value, taken) =>
      (Char.ofNat value, taken)

/-- The characters and faults of the bytes from `position` on. -/
def pieces (position : Nat) : List UInt8 → List (Except DecodeError Char)
  | [] => []
  | byte :: bytes =>
    match readChar byte bytes with
    | .ok (c, taken) => .ok c :: pieces (position + 1 + taken) (bytes.drop taken)
    | .error (fault, taken) =>
      .error ⟨position, byte, 1 + taken, fault⟩ :: pieces (position + 1 + taken) (bytes.drop taken)
termination_by bytes => bytes.length
decreasing_by all_goals simp only [List.length_cons, List.length_drop]; omega

/-- The text of the bytes, or the first fault. -/
def decode (bytes : List UInt8) : Except DecodeError (List Char) := (pieces 0 bytes).mapM id

/-- The text of the bytes with one replacement character for every fault. -/
def decodeLenient (bytes : List UInt8) : List Char :=
  (pieces 0 bytes).map fun
    | .ok c => c
    | .error _ => '�'

end Deadwood.Text.Utf8
