import Mathlib.Data.List.DropRight
import Mathlib.Data.List.TakeWhile
import WireSchema.Proofs.Layout.Outline
/-!
# Taking off the ends

A text without the white space at its ends, and rows without the blank ones at
their ends, are the same operation on lists. What is taken off there does not
matter for what is left, and nothing is taken off twice.
-/

namespace WireSchema

/-- The list without the longest start and the longest end that satisfy `p`. -/
def dropEnds {α : Type} (p : α → Bool) (l : List α) : List α := (l.dropWhile p).rdropWhile p

section
variable {α : Type} {p : α → Bool} {a : α} {l s t : List α}

theorem rdropWhile_append_of_pos (ht : ∀ a ∈ t, p a = true) : (s ++ t).rdropWhile p = s.rdropWhile p := by
  rw [List.rdropWhile, List.reverse_append, List.dropWhile_append_of_pos fun a ha => ht a (List.mem_reverse.1 ha)]
  rfl

theorem dropWhile_append_of_exists (hs : ∃ a ∈ s, p a = false) : (s ++ t).dropWhile p = s.dropWhile p ++ t := by
  rw [List.dropWhile_append, if_neg]
  rw [List.isEmpty_iff, List.dropWhile_eq_nil_iff]
  obtain ⟨a, ha, hp⟩ := hs
  intro hall
  rw [hall a ha] at hp
  cases hp

theorem rdropWhile_append_of_exists (ht : ∃ a ∈ t, p a = false) : (s ++ t).rdropWhile p = s ++ t.rdropWhile p := by
  obtain ⟨a, ha, hp⟩ := ht
  rw [List.rdropWhile, List.reverse_append, dropWhile_append_of_exists ⟨a, List.mem_reverse.2 ha, hp⟩,
    List.reverse_append, List.reverse_reverse]
  rfl

theorem all_or_exists (p : α → Bool) (l : List α) : (∀ a ∈ l, p a = true) ∨ ∃ a ∈ l, p a = false := by
  by_cases h : ∀ a ∈ l, p a = true
  · exact .inl h
  · push Not at h
    simpa using Or.inr h

theorem not_of_dropWhile_eq_cons (h : l.dropWhile p = a :: t) : p a = false := by
  have hne : l.dropWhile p ≠ [] := h ▸ List.cons_ne_nil a t
  simpa only [h, List.head_cons] using List.head_dropWhile_not p hne

/-- A run goes up to what does not satisfy `p`. -/
theorem takeWhile_of_stop (hs : ∀ a ∈ s, p a = true) (ht : ∀ a ∈ t.head?, p a = false) : (s ++ t).takeWhile p = s := by
  rw [List.takeWhile_append_of_pos hs]
  cases t with
  | nil => rw [List.takeWhile_nil, List.append_nil]
  | cons a t => rw [List.takeWhile_cons_of_neg (by simp [ht a rfl]), List.append_nil]

theorem dropWhile_of_stop (hs : ∀ a ∈ s, p a = true) (ht : ∀ a ∈ t.head?, p a = false) : (s ++ t).dropWhile p = t := by
  rw [List.dropWhile_append_of_pos hs]
  cases t with
  | nil => rfl
  | cons a t => exact List.dropWhile_cons_of_neg (by simp [ht a rfl])

theorem dropWhile_append_cons_of_neg (h : p a = false) (s t : List α) :
    (s ++ a :: t).dropWhile p = s.dropWhile p ++ a :: t := by
  rcases all_or_exists p s with hs | hs
  · rw [List.dropWhile_append_of_pos hs, List.dropWhile_eq_nil_iff.2 hs, List.nil_append,
      List.dropWhile_cons_of_neg (by rw [h]; exact Bool.false_ne_true)]
  · exact dropWhile_append_of_exists hs

theorem rdropWhile_cons_of_neg (h : p a = false) (l : List α) : (a :: l).rdropWhile p = a :: l.rdropWhile p := by
  rcases all_or_exists p l with hl | hl
  · rw [← List.singleton_append, rdropWhile_append_of_pos hl, List.rdropWhile_eq_nil_iff.2 hl,
      List.rdropWhile_singleton, if_neg (by rw [h]; exact Bool.false_ne_true)]
  · rw [← List.singleton_append, rdropWhile_append_of_exists hl]
    rfl

theorem dropEnds_eq_nil_iff : dropEnds p l = [] ↔ ∀ a ∈ l, p a = true := by
  rw [dropEnds, List.rdropWhile_eq_nil_iff]
  constructor
  · intro h
    cases hrest : l.dropWhile p with
    | nil => exact List.dropWhile_eq_nil_iff.1 hrest
    | cons a t =>
      have ha := not_of_dropWhile_eq_cons hrest
      rw [h a (hrest ▸ List.mem_cons_self)] at ha
      cases ha
  · exact fun h a ha => h a ((List.dropWhile_suffix p).mem ha)

/-- What satisfies `p` at the ends does not matter. -/
theorem dropEnds_append (hs : ∀ a ∈ s, p a = true) (ht : ∀ a ∈ t, p a = true) :
    dropEnds p (s ++ l ++ t) = dropEnds p l := by
  rcases all_or_exists p l with hl | hl
  · rw [dropEnds_eq_nil_iff.2 hl, dropEnds_eq_nil_iff]
    simp only [List.mem_append]
    rintro a ((ha | ha) | ha)
    · exact hs a ha
    · exact hl a ha
    · exact ht a ha
  · rw [dropEnds, List.append_assoc, List.dropWhile_append_of_pos hs, dropWhile_append_of_exists hl,
      rdropWhile_append_of_pos ht]
    rfl

theorem exists_ends (p : α → Bool) (l : List α) :
    ∃ s t, (∀ a ∈ s, p a = true) ∧ (∀ a ∈ t, p a = true) ∧ l = s ++ dropEnds p l ++ t := by
  refine ⟨l.takeWhile p, (l.dropWhile p).rtakeWhile p, fun a => List.mem_takeWhile_imp,
    fun a => List.mem_rtakeWhile_imp, ?_⟩
  rw [dropEnds, List.append_assoc, List.rdropWhile_append_rtakeWhile, List.takeWhile_append_dropWhile]

@[simp] theorem dropEnds_dropEnds (l : List α) : dropEnds p (dropEnds p l) = dropEnds p l := by
  obtain ⟨s, t, hs, ht, heq⟩ := exists_ends p l
  rw [← dropEnds_append hs ht, ← heq]

@[simp] theorem dropEnds_rdropWhile (l : List α) : dropEnds p (l.rdropWhile p) = dropEnds p l := by
  have heq := dropEnds_append (s := []) (l := l.rdropWhile p) (t := l.rtakeWhile p) (p := p) (by simp)
    fun a => List.mem_rtakeWhile_imp
  rw [← heq, List.nil_append, List.rdropWhile_append_rtakeWhile]

@[simp] theorem rdropWhile_dropEnds (l : List α) : (dropEnds p l).rdropWhile p = dropEnds p l :=
  List.rdropWhile_idempotent p _

theorem dropEnds_cons_of_neg (h : p a = false) (l : List α) : dropEnds p (a :: l) = a :: l.rdropWhile p := by
  rw [dropEnds, List.dropWhile_cons_of_neg (by rw [h]; exact Bool.false_ne_true), rdropWhile_cons_of_neg h]

theorem dropEnds_sublist (l : List α) : (dropEnds p l).Sublist l :=
  (List.rdropWhile_prefix p _).sublist.trans (List.dropWhile_suffix p).sublist

/-- What is left begins and ends with something that does not satisfy `p`. -/
theorem not_of_mem_head?_dropEnds (h : a ∈ (dropEnds p l).head?) : p a = false := by
  obtain ⟨rest, hrest⟩ := List.head?_eq_some_iff.1 h
  obtain ⟨behind, hbehind⟩ := List.rdropWhile_prefix p (l.dropWhile p)
  rw [← dropEnds, hrest] at hbehind
  exact not_of_dropWhile_eq_cons hbehind.symm

theorem not_of_mem_getLast?_dropEnds (h : a ∈ (dropEnds p l).getLast?) : p a = false := by
  have hne : (l.dropWhile p).rdropWhile p ≠ [] := List.ne_nil_of_mem (List.mem_of_mem_getLast? h)
  have hlast := List.rdropWhile_last_not p _ hne
  rw [Option.mem_def, dropEnds, List.getLast?_eq_some_getLast hne, Option.some_inj] at h
  rwa [h, Bool.not_eq_true] at hlast

/-- What is taken off the ends is not kept by a filter that keeps none of it. -/
theorem filter_dropEnds {q : α → Bool} (h : ∀ a, p a = true → q a = false) (l : List α) :
    (dropEnds p l).filter q = l.filter q := by
  obtain ⟨s, t, hs, ht, heq⟩ := exists_ends p l
  have hnone {u : List α} (hu : ∀ a ∈ u, p a = true) : u.filter q = [] :=
    List.filter_eq_nil_iff.2 fun a ha => by simp [h a (hu a ha)]
  conv_rhs => rw [heq, List.filter_append, List.filter_append, hnone hs, hnone ht, List.nil_append, List.append_nil]

end

namespace Text

variable {s t : Text} {rows parts : List Text}

theorem trim_eq (t : Text) : trim t = dropEnds CodePoint.isBlank t := rfl

theorem dropEmptyEnds_eq_dropEnds (parts : List Text) : dropEmptyEnds parts = dropEnds List.isEmpty parts := rfl

theorem trimEnd_eq (t : Text) : trimEnd t = t.rdropWhile CodePoint.isBlank := rfl

theorem isBlank_iff : isBlank t = true ↔ ∀ c ∈ t, c.isBlank = true := List.all_eq_true

theorem not_isBlank_iff : isBlank t = false ↔ ∃ c ∈ t, c.isBlank = false := by
  simp [isBlank]

@[simp] theorem trim_trim (t : Text) : trim (trim t) = trim t := dropEnds_dropEnds t

@[simp] theorem trimEnd_trim (t : Text) : trimEnd (trim t) = trim t := rdropWhile_dropEnds t

@[simp] theorem trim_trimEnd (t : Text) : trim (trimEnd t) = trim t := dropEnds_rdropWhile t

@[simp] theorem trimEnd_trimEnd (t : Text) : trimEnd (trimEnd t) = trimEnd t := List.rdropWhile_idempotent _ t

theorem trim_eq_nil_iff : trim t = [] ↔ isBlank t = true := dropEnds_eq_nil_iff.trans isBlank_iff.symm

theorem trimEnd_eq_nil_iff : trimEnd t = [] ↔ isBlank t = true := (List.rdropWhile_eq_nil_iff).trans isBlank_iff.symm

@[simp] theorem isBlank_trim (t : Text) : isBlank (trim t) = isBlank t := by
  cases h : isBlank t with
  | true => rw [trim_eq_nil_iff.2 h]; rfl
  | false =>
    refine Bool.eq_false_iff.2 fun htrim => ?_
    rw [← trim_eq_nil_iff, trim_trim, trim_eq_nil_iff, h] at htrim
    cases htrim

theorem trim_blank_append (hs : isBlank s = true) (t : Text) : trim (s ++ t) = trim t := by
  have h := dropEnds_append (l := t) (t := []) (isBlank_iff.1 hs) (by simp)
  rwa [List.append_nil] at h

theorem trim_append_blank (s : Text) (ht : isBlank t = true) : trim (s ++ t) = trim s :=
  dropEnds_append (s := []) (by simp) (isBlank_iff.1 ht)

theorem trimEnd_append_blank (s : Text) (ht : isBlank t = true) : trimEnd (s ++ t) = trimEnd s :=
  rdropWhile_append_of_pos (isBlank_iff.1 ht)

theorem trimEnd_append (s : Text) (ht : isBlank t = false) : trimEnd (s ++ t) = s ++ trimEnd t :=
  rdropWhile_append_of_exists (not_isBlank_iff.1 ht)

theorem trim_cons {c : CodePoint} (hc : c.isBlank = false) (t : Text) : trim (c :: t) = c :: trimEnd t :=
  dropEnds_cons_of_neg hc t

theorem trimEnd_cons {c : CodePoint} (hc : c.isBlank = false) (t : Text) : trimEnd (c :: t) = c :: trimEnd t :=
  rdropWhile_cons_of_neg hc t

theorem isBlank_append : isBlank (s ++ t) = (isBlank s && isBlank t) := List.all_append

theorem not_isBlank_of_trimEnd (h : trimEnd t = t) (hne : t ≠ []) : isBlank t = false := by
  rw [← Bool.not_eq_true, ← trimEnd_eq_nil_iff, h]
  exact hne

theorem not_isBlank_of_trim (h : trim t = t) (hne : t ≠ []) : isBlank t = false := by
  rw [← Bool.not_eq_true, ← trim_eq_nil_iff, h]
  exact hne

theorem trimEnd_of_trim (h : trim t = t) : trimEnd t = t := by
  rw [← h, trimEnd_trim]

/-! ## Rows -/

theorem isBlank_newline : isBlank "\n" = true := by decide

theorem unrows_append (hne : parts ≠ []) (hne' : rows ≠ []) :
    unrows (parts ++ rows) = unrows parts ++ "\n" ++ unrows rows := by
  induction parts with
  | nil => exact absurd rfl hne
  | cons t rest ih =>
    cases rest with
    | nil => exact unrows_cons t hne'
    | cons u rest =>
      rw [List.cons_append, unrows_cons t (by simp), ih (by simp), unrows_cons t (List.cons_ne_nil u rest)]
      simp only [List.append_assoc]

/-- Blank rows put behind others are white space behind them. -/
theorem trim_unrows_append (parts : List Text) (h : ∀ row ∈ rows, isBlank row = true) :
    trim (unrows (parts ++ rows)) = trim (unrows parts) := by
  have hblank : isBlank (unrows rows) = true := by
    induction rows with
    | nil => rfl
    | cons row rest ih =>
      cases rest with
      | nil => exact h row List.mem_cons_self
      | cons next rest =>
        rw [unrows_cons row (by simp), isBlank_append, isBlank_append, h row List.mem_cons_self, isBlank_newline,
          ih fun row hrow => h row (List.mem_cons_of_mem _ hrow)]
        rfl
  cases parts with
  | nil =>
    rw [List.nil_append, trim_eq_nil_iff.2 hblank]
    rfl
  | cons t rest =>
    cases rows with
    | nil => rw [List.append_nil]
    | cons row others =>
      rw [unrows_append (by simp) (by simp), List.append_assoc, trim_append_blank]
      rw [isBlank_append, isBlank_newline, hblank]
      rfl

theorem dropWhile_unrows {row : Text} (hrows : ∀ row ∈ rows, isBlank row = true) (hrow : isBlank row = false) :
    (unrows (rows ++ row :: parts)).dropWhile CodePoint.isBlank =
      unrows (row.dropWhile CodePoint.isBlank :: parts) := by
  induction rows with
  | nil =>
    cases parts with
    | nil => rfl
    | cons u rest =>
      rw [List.nil_append, unrows_cons row (by simp), unrows_cons _ (List.cons_ne_nil u rest), List.append_assoc,
        dropWhile_append_of_exists (not_isBlank_iff.1 hrow), List.append_assoc]
  | cons t rest ih =>
    have hblank : isBlank (t ++ "\n") = true := by
      rw [isBlank_append, hrows t List.mem_cons_self, isBlank_newline]
      rfl
    rw [List.cons_append, unrows_cons t (by simp), List.dropWhile_append_of_pos (isBlank_iff.1 hblank),
      ih fun row hrow => hrows row (List.mem_cons_of_mem _ hrow)]

theorem trimEnd_unrows (h : ∀ row ∈ parts, trimEnd row = row) :
    trimEnd (unrows parts) = unrows (parts.rdropWhile isBlank) := by
  induction parts using List.reverseRecOn with
  | nil => rfl
  | append_singleton parts row ih =>
    have ih := ih fun row hrow => h row (List.mem_append_left _ hrow)
    cases hblank : isBlank row with
    | true =>
      rw [List.rdropWhile_concat_pos _ _ _ hblank, ← ih]
      cases parts with
      | nil => exact trimEnd_eq_nil_iff.2 hblank
      | cons t rest =>
        rw [unrows_append (by simp) (by simp), List.append_assoc, trimEnd_append_blank]
        rw [isBlank_append, isBlank_newline]
        exact hblank
    | false =>
      rw [List.rdropWhile_concat_neg _ _ _ (by rw [hblank]; exact Bool.false_ne_true)]
      have hrow : trimEnd row = row := h row (by simp)
      cases parts with
      | nil => exact hrow
      | cons t rest =>
        rw [unrows_append (by simp) (by simp)]
        show trimEnd (_ ++ row) = _ ++ row
        rw [trimEnd_append _ hblank, hrow]

/-- White space taken off the start leaves the end as it is. -/
theorem trimEnd_dropWhile (h : trimEnd t = t) (hblank : isBlank t = false) :
    trimEnd (t.dropWhile CodePoint.isBlank) = t.dropWhile CodePoint.isBlank ∧
      isBlank (t.dropWhile CodePoint.isBlank) = false := by
  have hfront : isBlank (t.takeWhile CodePoint.isBlank) = true := isBlank_iff.2 fun c => List.mem_takeWhile_imp
  have hrest : isBlank (t.dropWhile CodePoint.isBlank) = false := by
    rw [← List.takeWhile_append_dropWhile (p := CodePoint.isBlank) (l := t), isBlank_append, hfront] at hblank
    exact hblank
  refine ⟨?_, hrest⟩
  rw [← List.takeWhile_append_dropWhile (p := CodePoint.isBlank) (l := t), trimEnd_append _ hrest] at h
  exact List.append_cancel_left h

/-- The rows of a text without the white space at its ends. The first of them has
lost its indentation. -/
theorem trim_unrows (h : ∀ row ∈ parts, trimEnd row = row) (hne : trim (unrows parts) ≠ []) :
    ∃ front row back, parts = front ++ row :: back ∧ isBlank row = false ∧
      trim (unrows parts) = unrows (row.dropWhile CodePoint.isBlank :: back.rdropWhile isBlank) := by
  have hsome : parts.dropWhile isBlank ≠ [] := by
    intro hall
    have htrim := trim_unrows_append [] (List.dropWhile_eq_nil_iff.1 hall)
    exact hne htrim
  obtain ⟨row, back, hback⟩ := List.exists_cons_of_ne_nil hsome
  have hparts : parts = parts.takeWhile isBlank ++ row :: back := by
    rw [← hback, List.takeWhile_append_dropWhile]
  have hrow : isBlank row = false := not_of_dropWhile_eq_cons hback
  refine ⟨parts.takeWhile isBlank, row, back, hparts, hrow, ?_⟩
  have hmem {r : Text} (hr : r ∈ row :: back) : trimEnd r = r := h r (by rw [hparts]; exact List.mem_append_right _ hr)
  obtain ⟨hend, hfirst⟩ := trimEnd_dropWhile (hmem List.mem_cons_self) hrow
  calc trim (unrows parts)
      = trimEnd ((unrows (parts.takeWhile isBlank ++ row :: back)).dropWhile CodePoint.isBlank) := by rw [← hparts]; rfl
    _ = trimEnd (unrows (row.dropWhile CodePoint.isBlank :: back)) := by
      rw [dropWhile_unrows (fun row => List.mem_takeWhile_imp) hrow]
    _ = unrows ((row.dropWhile CodePoint.isBlank :: back).rdropWhile isBlank) :=
      trimEnd_unrows (List.forall_mem_cons.2 ⟨hend, fun r hr => hmem (List.mem_cons_of_mem _ hr)⟩)
    _ = unrows (row.dropWhile CodePoint.isBlank :: back.rdropWhile isBlank) := by rw [rdropWhile_cons_of_neg hfirst]

end Text

end WireSchema
