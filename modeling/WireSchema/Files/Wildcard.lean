import WireSchema.Text.Basic
/-!
# Wildcards

A pattern for names: `*` stands for any text, `?` for any code point, and a set
in brackets for one of its members, or for any other code point behind `!`. A
bracket that nothing closes stands for itself.
-/

namespace WireSchema

/-- A set of code points. -/
structure CodePointSet where
  isNegated : Bool
  /-- The first and the last code points of ranges. -/
  ranges : List (CodePoint × CodePoint)

/-- The code point belongs to the set. -/
def CodePointSet.contains (s : CodePointSet) (c : CodePoint) : Bool :=
  s.isNegated != s.ranges.any fun (low, high) => low.val ≤ c.val && c.val ≤ high.val

/-- A part of a pattern. -/
inductive Wildcard where
  | literal (c : CodePoint)
  | one
  | any
  | member (set : CodePointSet)

namespace Wildcard

/-! ## Sets in brackets -/

/-- Where a set in brackets ends: the number of code points before its closing
bracket. One that comes first, or right behind `!`, belongs to the set. -/
def setLength? (t : Text) : Option Nat :=
  let skipped := if Text.startsWith t "!" then 1 else 0
  let skipped := if Text.startsWith (t.drop skipped) "]" then skipped + 1 else skipped
  (Text.indexOf? "]" (t.drop skipped)).map (· + skipped)

/-- The parts of a set between the hyphens that make ranges. A hyphen needs a
code point before it and one behind it, and the next one needs two more. `gap`
is how many code points have to come before the next such hyphen. -/
def hyphenParts (gap : Nat) : Text → List Text
  | [] => [[]]
  | c :: rest =>
    if c = '-' ∧ gap = 0 then [] :: hyphenParts 2 rest
    else
      match hyphenParts (gap - 1) rest with
      | [] => [[c]]
      | part :: parts => (c :: part) :: parts

/-- The parts of a set, where a hyphen at the end makes no range. -/
def setParts (t : Text) : List Text :=
  let parts := hyphenParts (if Text.startsWith t "!" then 2 else 1) t
  match parts.reverse with
  | [] :: last :: before => ((last ++ "-") :: before).reverse
  | _ => parts

/-- The parts without the ranges that are empty. -/
def dropEmptyRanges : List Text → List Text
  | [] => []
  | part :: parts =>
    match part.getLast?, dropEmptyRanges parts with
    | some last, (first :: others) :: rest =>
      if first.val < last.val then (part.dropLast ++ others) :: rest
      else part :: (first :: others) :: rest
    | _, parts => part :: parts

/-- A code point of a set, or a hyphen that makes a range. -/
abbrev SetSign := Option CodePoint

/-- The signs of parts with hyphens between them. -/
def signs : List Text → List SetSign
  | [] => []
  | [part] => part.map some
  | part :: parts => part.map some ++ none :: signs parts

/-- The ranges that signs stand for. A hyphen with nothing before it stands for itself. -/
def rangesOf : List SetSign → List (CodePoint × CodePoint)
  | [] => []
  | some low :: none :: some high :: rest => (low, high) :: rangesOf rest
  | some c :: rest => (c, c) :: rangesOf rest
  | none :: rest => ('-', '-') :: rangesOf rest

/-- The set that is written in brackets. -/
def set (t : Text) : CodePointSet :=
  match signs (dropEmptyRanges (setParts t)) with
  | some c :: rest =>
    if c = '!' then { isNegated := true, ranges := rangesOf rest }
    else { isNegated := false, ranges := rangesOf (some c :: rest) }
  | others => { isNegated := false, ranges := rangesOf others }

/-! ## Patterns -/

/-- The parts of a pattern. `skip` code points belong to a set that was read. -/
def parse (skip : Nat) : Text → List Wildcard
  | [] => []
  | c :: rest =>
    match skip with
    | skip + 1 => parse skip rest
    | 0 =>
      if c = '*' then any :: parse 0 rest
      else if c = '?' then one :: parse 0 rest
      else if c = '[' then
        match setLength? rest with
        | some n => member (set (rest.take n)) :: parse (n + 1) rest
        | none => literal c :: parse 0 rest
      else literal c :: parse 0 rest

/-- The whole text is of the form of a pattern. -/
def isMatch : List Wildcard → Text → Bool
  | [], t => t.isEmpty
  | any :: ws, [] => isMatch ws []
  | any :: ws, c :: rest => isMatch ws (c :: rest) || isMatch (any :: ws) rest
  | _ :: _, [] => false
  | literal d :: ws, c :: rest => c == d && isMatch ws rest
  | one :: ws, _ :: rest => isMatch ws rest
  | member s :: ws, c :: rest => s.contains c && isMatch ws rest
termination_by ws t => ws.length + t.length

/-- The text has a sign that patterns give a meaning. -/
def isPattern (t : Text) : Bool := t.any fun c => c == '*' || c == '?' || c == '['

end Wildcard

end WireSchema
