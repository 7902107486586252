import WireSchema.Text.Numeral
import WireSchema.Text.Quoted
/-!
# UTF-8

Texts as bytes. A text with a surrogate has no bytes. Bytes are read strictly:
no code point is spelled longer than it has to be, and none is a surrogate. The
first bytes that cannot be read are told with their place.
-/

namespace WireSchema

namespace CodePoint

/-- The bytes of a code point that is not a surrogate. -/
def utf8? (c : CodePoint) : Option (List UInt8) :=
  let tail (unit : Nat) : UInt8 := UInt8.ofNat (0x80 + c.val / unit % 0x40)
  if c.isSurrogate then none
  else if c.val < 0x80 then some [UInt8.ofNat c.val]
  else if c.val < 0x800 then some [UInt8.ofNat (0xC0 + c.val / 0x40), tail 1]
  else if c.val < 0x10000 then some [UInt8.ofNat (0xE0 + c.val / 0x1000), tail 0x40, tail 1]
  else some [UInt8.ofNat (0xF0 + c.val / 0x40000), tail 0x1000, tail 0x40, tail 1]

end CodePoint

namespace Utf8

/-- What is wrong with bytes. -/
inductive Problem where
  /-- No code point begins with this byte. -/
  | start
  /-- The byte that follows does not go on with the code point. -/
  | continuation
  /-- The bytes end inside a code point. -/
  | cut
deriving DecidableEq

/-- Bytes that cannot be read: `count` of them from `offset` on, the first one
being `byte`. -/
structure DecodeError where
  problem : Problem
  byte : UInt8
  offset : Nat
  count : Nat
deriving DecidableEq

def Problem.label : Problem → Text
  | .start => "invalid start byte"
  | .continuation => "invalid continuation byte"
  | .cut => "unexpected end of data"

/-- The text of a decoding error. -/
def DecodeError.message (e : DecodeError) : Text :=
  let place : Text :=
    if e.count = 1 then
      "byte 0x" ++ Text.hex 2 e.byte.toNat ++ " in position " ++ Text.ofNat e.offset
    else
      "bytes in position " ++ Text.ofNat e.offset ++ "-" ++ Text.ofNat (e.offset + e.count - 1)
  "'utf-8' codec can't decode " ++ place ++ ": " ++ e.problem.label

/-- What may follow a first byte: how many bytes, between which limits the first
of them lies, and what the first byte contributes to the code point. -/
def lead? (b : Nat) : Option (Nat × Nat × Nat × Nat) :=
  if b < 0x80 then some (0, 0, 0, b)
  else if 0xC2 ≤ b ∧ b ≤ 0xDF then some (1, 0x80, 0xBF, b - 0xC0)
  else if b = 0xE0 then some (2, 0xA0, 0xBF, 0)
  else if b = 0xED then some (2, 0x80, 0x9F, 0xD)
  else if 0xE1 ≤ b ∧ b ≤ 0xEF then some (2, 0x80, 0xBF, b - 0xE0)
  else if b = 0xF0 then some (3, 0x90, 0xBF, 0)
  else if 0xF1 ≤ b ∧ b ≤ 0xF3 then some (3, 0x80, 0xBF, b - 0xF0)
  else if b = 0xF4 then some (3, 0x80, 0x8F, 4)
  else none

/-- The number of a code point whose further bytes are `count` of `rest`, the
first of which lies between `low` and `high`. A problem comes with the number
of further bytes that were good. -/
def continued (low high value : Nat) :
    (count : Nat) → (rest : List UInt8) → Except (Problem × Nat) Nat
  | 0, _ => .ok value
  | _ + 1, [] => .error (.cut, 0)
  | count + 1, b :: rest =>
    if low ≤ b.toNat ∧ b.toNat ≤ high then
      (continued 0x80 0xBF (value * 64 + b.toNat % 64) count rest).mapError
        fun (problem, good) => (problem, good + 1)
    else .error (.continuation, 0)

/-- The code point that bytes begin with, and how many bytes follow its first. -/
def first (b : UInt8) (rest : List UInt8) : Except (Problem × Nat) (CodePoint × Nat) :=
  match lead? b.toNat with
  | none => .error (.start, 0)
  | some (count, low, high, value) => do
    let n ← continued low high value count rest
    match CodePoint.ofNat? n with
    | some c => return (c, count)
    | none => .error (.start, 0)

/-- The text that bytes spell. `offset` is where they begin and `skip` of them
belong to a code point that was read. -/
def decodeFrom (offset skip : Nat) : List UInt8 → Except DecodeError Text
  | [] => .ok []
  | b :: rest =>
    match skip with
    | skip + 1 => decodeFrom (offset + 1) skip rest
    | 0 =>
      match first b rest with
      | .error (problem, good) => .error ⟨problem, b, offset, good + 1⟩
      | .ok (c, more) => do
        let t ← decodeFrom (offset + 1) more rest
        return c :: t

def decode (bytes : List UInt8) : Except DecodeError Text := decodeFrom 0 0 bytes

def decode? (bytes : List UInt8) : Option Text := (decode bytes).toOption

/-- The bytes of a text without surrogates. -/
def encode? : Text → Option (List UInt8)
  | [] => some []
  | c :: rest => do
    let bytes ← c.utf8?
    let more ← encode? rest
    return bytes ++ more

end Utf8

end WireSchema
