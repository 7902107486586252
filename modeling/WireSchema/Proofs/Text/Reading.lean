import WireSchema.Text.Quoted
/-!
# Replacing and reading from the left

Replacing goes through a text from the left, one occurrence after the other.
Reading a literal goes from the left too: a backslash takes the next code point
with it, whatever that is.
-/

namespace WireSchema.Text

theorem startsWith_cons_cons (c d : CodePoint) (s rest : Text) :
    startsWith (c :: rest) (d :: s) = (d == c && startsWith rest s) := rfl

theorem startsWith_cons {s : Text} {c d : CodePoint} (h : c ≠ d) (rest : Text) :
    startsWith (c :: rest) (d :: s) = false := by
  simp [startsWith, List.isPrefixOf, beq_eq_false_iff_ne.2 (Ne.symm h)]

theorem startsWith_append (old t : Text) : startsWith (old ++ t) old = true := by
  induction old with
  | nil => rfl
  | cons c old ih => simp [startsWith]

theorem eq_append_of_startsWith {t start : Text} (h : startsWith t start = true) : ∃ rest, t = start ++ rest := by
  obtain ⟨rest, rfl⟩ := List.isPrefixOf_iff_prefix.1 h
  exact ⟨rest, rfl⟩

/-- A piece that begins otherwise stands only behind the first place. -/
theorem infix_cons_of_ne {α : Type} {a b : α} (h : a ≠ b) (piece whole : List α) :
    a :: piece <:+: b :: whole ↔ a :: piece <:+: whole := by
  rw [List.infix_cons_iff, List.cons_prefix_cons]
  exact ⟨fun hor => hor.resolve_left fun hand => h hand.1, .inr⟩

theorem infix_append_of_not_mem {α : Type} {a : α} {front : List α} (h : a ∉ front) (piece whole : List α) :
    a :: piece <:+: front ++ whole ↔ a :: piece <:+: whole := by
  induction front with
  | nil => rfl
  | cons b front ih =>
    rw [List.mem_cons, not_or] at h
    rw [List.cons_append, infix_cons_of_ne h.1, ih h.2]

/-! ## Replacing -/

section
variable {old new t : Text} {c : CodePoint}

theorem replace_go_skip (piece t : Text) : replace.go old new piece.length (piece ++ t) = replace.go old new 0 t := by
  induction piece with
  | nil => rfl
  | cons c piece ih => rw [List.length_cons, List.cons_append, replace.go, ih]

/-- An occurrence is replaced, and the search goes on behind it. -/
theorem replace_append (h : old ≠ []) (t : Text) : replace old new (old ++ t) = new ++ replace old new t := by
  obtain ⟨c, rest, rfl⟩ := List.exists_cons_of_ne_nil h
  have hstart := startsWith_append (c :: rest) t
  rw [List.cons_append] at hstart ⊢
  rw [replace, replace.go, if_pos hstart, List.length_cons, Nat.add_sub_cancel, replace_go_skip, replace]

/-- A code point at which no occurrence begins is kept. -/
theorem replace_cons (h : startsWith (c :: t) old = false) : replace old new (c :: t) = c :: replace old new t := by
  rw [replace, replace.go, h]
  rfl

theorem mem_replace_go {skip : Nat} (h : c ∈ replace.go old new skip t) : c ∈ new ∨ c ∈ t := by
  induction t generalizing skip with
  | nil => exact absurd h List.not_mem_nil
  | cons d t ih =>
    cases skip with
    | succ skip => exact (ih h).imp_right (List.mem_cons_of_mem d)
    | zero =>
      rw [replace.go] at h
      split at h
      · rcases List.mem_append.1 h with h | h
        · exact .inl h
        · exact (ih h).imp_right (List.mem_cons_of_mem d)
      · rcases List.mem_cons.1 h with h | h
        · exact .inr (h ▸ List.mem_cons_self)
        · exact (ih h).imp_right (List.mem_cons_of_mem d)

/-- Replacing adds no code point but those of the new piece. -/
theorem mem_replace (h : c ∈ replace old new t) : c ∈ new ∨ c ∈ t := mem_replace_go h

end

/-! ## Reading from the left -/

/-- The code points of the inside of a literal, each with whether a backslash
before it takes it along. A backslash at the very end stands for itself. -/
def readings : Text → List (CodePoint × Bool)
  | [] => []
  | [c] => [(c, false)]
  | c :: d :: rest =>
    if c = '\\' then (d, true) :: readings rest else (c, false) :: readings (d :: rest)

/-- The inside of a literal without the backslashes that take a code point along. -/
def withoutEscapes (t : Text) : Text := (readings t).map (·.1)

/-- The code points stand in the inside of a literal one after the other, and no
backslash takes any of them along. -/
def Bare (pattern t : Text) : Prop := pattern.map (·, false) <:+: readings t

theorem readings_slash (c : CodePoint) (t : Text) : readings ('\\' :: c :: t) = (c, true) :: readings t := by
  rw [readings, if_pos rfl]

theorem readings_cons {c : CodePoint} (h : c ≠ '\\') (t : Text) : readings (c :: t) = (c, false) :: readings t := by
  cases t with
  | nil => rfl
  | cons d t => rw [readings, if_neg h]

end WireSchema.Text
