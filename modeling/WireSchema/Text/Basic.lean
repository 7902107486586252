import WireSchema.Text.CodePoint
/-!
# Cutting and joining text

Rows are what stands between line feeds: a text with `n` line feeds has `n + 1`
rows, and `unrows` puts the line feeds back. `dropEndWhile`, `indexOf?` and
`replace` complete the list operations of core.
-/

namespace WireSchema.Text

/-- The parts of a text between the code points `sep`. -/
def splitOn (sep : CodePoint) : Text → List Text
  | [] => [[]]
  | c :: rest =>
    if c = sep then
      [] :: splitOn sep rest
    else
      match splitOn sep rest with
      | [] => [[c]]
      | part :: parts => (c :: part) :: parts

/-- The parts of a text between line feeds. -/
def rows (t : Text) : List Text := splitOn '\n' t

/-- Texts joined by a separator. -/
def join (sep : Text) : List Text → Text
  | [] => []
  | [t] => t
  | t :: u :: rest => t ++ sep ++ join sep (u :: rest)

/-- Texts joined by line feeds. -/
def unrows (parts : List Text) : Text := join "\n" parts

/-- The text begins with `start`. -/
def startsWith (t start : Text) : Bool := start.isPrefixOf t

/-- The text ends with `ending`. -/
def endsWith (t ending : Text) : Bool := ending.isSuffixOf t

/-- The text without the longest end whose code points satisfy `p`. -/
def dropEndWhile (p : CodePoint → Bool) (t : Text) : Text := (t.reverse.dropWhile p).reverse

/-- The text without the longest start and the longest end whose code points
satisfy `p`. -/
def trimWhile (p : CodePoint → Bool) (t : Text) : Text := dropEndWhile p (t.dropWhile p)

/-- Where `pattern` first occurs. -/
def indexOf? (pattern : Text) : Text → Option Nat
  | [] => if pattern.isEmpty then some 0 else none
  | c :: rest =>
    if startsWith (c :: rest) pattern then some 0 else (indexOf? pattern rest).map (· + 1)

/-- What stands before the first `sep` and what stands after it, if there is one. -/
def splitFirst (sep : CodePoint) (t : Text) : Text × Text :=
  (t.takeWhile (· ≠ sep), (t.dropWhile (· ≠ sep)).drop 1)

/-- The text with each occurrence of `old`, from left to right and without
overlap, replaced by `new`. -/
def replace (old new : Text) (t : Text) : Text :=
  go 0 t
where
  /-- Goes on after `skip` code points that belong to a replaced occurrence. -/
  go (skip : Nat) : Text → Text
    | [] => []
    | c :: rest =>
      match skip with
      | skip + 1 => go skip rest
      | 0 =>
        if startsWith (c :: rest) old then new ++ go (old.length - 1) rest else c :: go 0 rest

/-- The text with a line feed for each carriage return, and for each carriage
return and line feed together. -/
def normalizeLines : Text → Text
  | [] => []
  | c :: rest =>
    if c = '\r' then
      match rest with
      | [] => ['\n']
      | d :: after =>
        if d = '\n' then d :: normalizeLines after else '\n' :: normalizeLines (d :: after)
    else c :: normalizeLines rest

/-- Comparison code point by code point, a text coming after its beginnings. -/
def le : Text → Text → Bool
  | [], _ => true
  | _ :: _, [] => false
  | c :: s, d :: t => c.val < d.val || (c.val == d.val && le s t)

/-- The text repeated `n` times. -/
def times (t : Text) : Nat → Text
  | 0 => []
  | n + 1 => t ++ times t n

@[simp] theorem rows_nil : rows [] = [[]] := rfl

theorem splitOn_ne_nil (sep : CodePoint) (t : Text) : splitOn sep t ≠ [] := by
  cases t with
  | nil => simp [splitOn]
  | cons c rest =>
    rw [splitOn]
    split
    · simp
    · split <;> simp

theorem unrows_rows (t : Text) : unrows (rows t) = t := by
  unfold unrows rows
  induction t with
  | nil => rfl
  | cons c rest ih =>
    rw [splitOn]
    split
    next h =>
      subst h
      cases hp : splitOn (CodePoint.ofChar '\n') rest with
      | nil => exact absurd hp (splitOn_ne_nil _ _)
      | cons part parts =>
        rw [hp] at ih
        rw [join, ih]
        rfl
    next h =>
      cases hp : splitOn (CodePoint.ofChar '\n') rest with
      | nil => exact absurd hp (splitOn_ne_nil _ _)
      | cons part parts =>
        rw [hp] at ih
        rw [← ih]
        cases parts <;> rfl

end WireSchema.Text
