/-! Strict UTF-8 with the exact place and reason of the first malformed
sequence, and the folding of line ends. -/

namespace ApiSurface.Text

/-- Why a byte sequence is no UTF-8. -/
inductive Utf8Reason where
  | startByte | continuationByte | endOfData
deriving DecidableEq

/-- The first malformed sequence: where it begins, its lead byte, and how many
bytes belong to it. -/
structure Utf8Fault where
  position : Nat
  lead : UInt8
  length : Nat
  reason : Utf8Reason
deriving DecidableEq

/-- What a lead byte announces: the bits it carries, the number of continuation
bytes, and the range of the first of them. -/
structure Utf8Lead where
  bits : Nat
  count : Nat
  low : UInt8
  high : UInt8

def utf8Lead? (b : UInt8) : Option Utf8Lead :=
  if b < 0x80 then some ⟨b.toNat, 0, 0x80, 0xBF⟩
  else if b < 0xC2 then none
  else if b < 0xE0 then some ⟨b.toNat - 0xC0, 1, 0x80, 0xBF⟩
  else if b = 0xE0 then some ⟨0, 2, 0xA0, 0xBF⟩
  else if b = 0xED then some ⟨0xD, 2, 0x80, 0x9F⟩
  else if b < 0xF0 then some ⟨b.toNat - 0xE0, 2, 0x80, 0xBF⟩
  else if b = 0xF0 then some ⟨0, 3, 0x90, 0xBF⟩
  else if b = 0xF4 then some ⟨4, 3, 0x80, 0x8F⟩
  else if b < 0xF4 then some ⟨b.toNat - 0xF0, 3, 0x80, 0xBF⟩
  else none

/-- The continuation bytes at the front of a byte sequence, at most `count`, the
first of them in its own range. -/
def utf8Tail (low high : UInt8) : Nat → List UInt8 → List UInt8
  | count + 1, b :: rest =>
    if low ≤ b && b ≤ high then b :: utf8Tail 0x80 0xBF count rest else []
  | _, _ => []

/-- Decode from a position on, going over the bytes of a sequence already read. -/
def utf8From (position : Nat) : Nat → List UInt8 → Except Utf8Fault (List Char)
  | _, [] => .ok []
  | skip + 1, _ :: rest => utf8From (position + 1) skip rest
  | 0, b :: rest =>
    match utf8Lead? b with
    | none => .error ⟨position, b, 1, .startByte⟩
    | some lead =>
      let tail := utf8Tail lead.low lead.high lead.count rest
      if tail.length = lead.count then do
        let code := tail.foldl (fun n x => n * 64 + (x.toNat - 0x80)) lead.bits
        let cs ← utf8From (position + 1) lead.count rest
        return Char.ofNat code :: cs
      else if rest.length = tail.length then .error ⟨position, b, 1 + tail.length, .endOfData⟩
      else .error ⟨position, b, 1 + tail.length, .continuationByte⟩

def utf8Decode (bytes : List UInt8) : Except Utf8Fault (List Char) := utf8From 0 0 bytes

/-- Every line end, of one or two characters, becomes one line feed. -/
def foldLineEnds : List Char → List Char
  | [] => []
  | '\r' :: '\n' :: rest => '\n' :: foldLineEnds rest
  | '\r' :: rest => '\n' :: foldLineEnds rest
  | c :: rest => c :: foldLineEnds rest

end ApiSurface.Text
