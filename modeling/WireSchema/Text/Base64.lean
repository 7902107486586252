import WireSchema.Text.Basic
/-!
# Base 64

Bytes written in base 64. Code points outside the alphabet are passed over, and
so are pad signs that close no group; the first pad signs that close one end
the bytes.
-/

namespace WireSchema.Base64

/-- The value of a digit. -/
def digit? (c : CodePoint) : Option Nat :=
  if c.isBetween 'A' 'Z' then some (c.val - 'A'.toNat)
  else if c.isBetween 'a' 'z' then some (c.val - 'a'.toNat + 26)
  else if c.isBetween '0' '9' then some (c.val - '0'.toNat + 52)
  else if c = '+' then some 62
  else if c = '/' then some 63
  else none

/-- The bytes of a text, none if it ends inside a group. `count` is how many
digits of the present group came before, `bits` the bits of these that are in
no byte yet, and `pads` how many pad signs came last. -/
def decodeFrom (count bits pads : Nat) : Text → Option (List UInt8)
  | [] => if count = 0 then some [] else none
  | c :: rest =>
    if c = '=' then
      if 2 ≤ count then
        if 4 ≤ count + pads + 1 then some [] else decodeFrom count bits (pads + 1) rest
      else decodeFrom count bits pads rest
    else
      match digit? c with
      | none => decodeFrom count bits pads rest
      | some d =>
        match count with
        | 0 => decodeFrom 1 d 0 rest
        | 1 => (decodeFrom 2 (d % 16) 0 rest).map (UInt8.ofNat (bits * 4 + d / 16) :: ·)
        | 2 => (decodeFrom 3 (d % 4) 0 rest).map (UInt8.ofNat (bits * 16 + d / 4) :: ·)
        | _ => (decodeFrom 0 0 0 rest).map (UInt8.ofNat (bits * 64 + d) :: ·)

/-- The bytes that a text spells. -/
def decode? (t : Text) : Option (List UInt8) := decodeFrom 0 0 0 t

end WireSchema.Base64
