/-!
# Code points and text

A TypeScript string is a sequence of code points in which the halves of a
surrogate pair may stand alone or side by side, so `Char`, which has no
surrogates, is too small. `Text` is a list of code points; a `Char` or a
`String` is read as text where one is expected.

`Text.toString` reads a pair of halves as the one character they spell, and
`Text.scalars?` gives the characters of a text that holds no surrogate at all,
which is what can be written as UTF-8.
-/

namespace WireSchema

/-- A Unicode code point, surrogates included. -/
structure CodePoint where
  val : Nat
  isLt : val < 0x110000
deriving DecidableEq

namespace CodePoint

theorem ext_val {a b : CodePoint} (h : a.val = b.val) : a = b := by
  cases a; cases b; cases h; rfl

/-- A character is a code point below the surrogates or above them. -/
theorem toNat_lt_limit (c : Char) : c.toNat < 0x110000 :=
  match c.valid with
  | .inl below => Nat.lt_trans below (by decide)
  | .inr above => above.2

/-- The code point of a character. -/
def ofChar (c : Char) : CodePoint := ⟨c.toNat, toNat_lt_limit c⟩

@[simp] theorem ofChar_inj {a b : Char} : ofChar a = ofChar b ↔ a = b := by
  refine ⟨fun h => ?_, congrArg ofChar⟩
  exact Char.ext (UInt32.toNat_inj.1 (congrArg CodePoint.val h))

instance : Coe Char CodePoint := ⟨ofChar⟩

instance : Inhabited CodePoint := ⟨ofChar 'A'⟩

/-- The code point with the number `n`, if there is one. -/
def ofNat? (n : Nat) : Option CodePoint :=
  if h : n < 0x110000 then some ⟨n, h⟩ else none

/-- The first half of a surrogate pair. -/
def isHighHalf (c : CodePoint) : Bool := 0xD800 ≤ c.val && c.val < 0xDC00

/-- The second half of a surrogate pair. -/
def isLowHalf (c : CodePoint) : Bool := 0xDC00 ≤ c.val && c.val < 0xE000

/-- Either half of a surrogate pair. -/
def isSurrogate (c : CodePoint) : Bool := 0xD800 ≤ c.val && c.val < 0xE000

/-- The character of a code point that is not a surrogate. -/
def toChar? (c : CodePoint) : Option Char :=
  if c.isSurrogate then none else some (Char.ofNat c.val)

/-- Between `lo` and `hi`, ends included. -/
def isBetween (c : CodePoint) (lo hi : Char) : Bool := lo.toNat ≤ c.val && c.val ≤ hi.toNat

end CodePoint

/-- A sequence of code points. -/
abbrev Text := List CodePoint

namespace Text

/-- The code points of a string. -/
def ofString (s : String) : Text := s.toList.map CodePoint.ofChar

@[simp] theorem ofString_inj {s t : String} : ofString s = ofString t ↔ s = t := by
  refine ⟨fun h => String.toList_inj.1 ?_, congrArg ofString⟩
  exact List.map_inj_right (fun _ _ => CodePoint.ofChar_inj.1) |>.1 h

instance : Coe String Text := ⟨ofString⟩

/-- The characters of a text without surrogates. -/
def scalars? (t : Text) : Option (List Char) := t.mapM CodePoint.toChar?

/-- The characters a text spells: two halves side by side spell the character
of their pair, and a half that stands alone is replaced. -/
def characters : Text → List Char
  | [] => []
  | [c] => [c.toChar?.getD '\uFFFD']
  | c :: d :: rest =>
    if c.isHighHalf && d.isLowHalf then
      Char.ofNat (0x10000 + (c.val - 0xD800) * 0x400 + (d.val - 0xDC00)) :: characters rest
    else
      c.toChar?.getD '\uFFFD' :: characters (d :: rest)

/-- The string a text spells. -/
def toString (t : Text) : String := String.ofList t.characters

/-- `n` lies in one of the ranges, ends included. A class of code points is given so. -/
def inRanges (ranges : List (Nat × Nat)) (n : Nat) : Bool :=
  ranges.any fun r => r.1 ≤ n && n ≤ r.2

end Text

end WireSchema
