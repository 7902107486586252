import WireSchema.Proofs.Lexing.Faults
/-!
# The scan of a hole

Looking for the brace that closes a hole of a template literal takes one code
point after the other. All it keeps is the quote that is open and the number of
braces that are, so where the brace stands does not depend on where the hole
does, or on what comes behind the brace.
-/

namespace WireSchema.Source

open Text

/-- What the scan of a hole keeps: the quote that is open, if one is, and the
number of braces that are. -/
structure HoleScan where
  quoted : Option CodePoint := none
  depth : Nat := 0
deriving DecidableEq

namespace HoleScan

/-- The scan behind one more code point, nothing if that closes the hole. -/
def step (scan : HoleScan) (c : CodePoint) : Option HoleScan :=
  match scan.quoted with
  | some mark => some (if c = mark then { scan with quoted := none } else scan)
  | none =>
    if c = '"' ∨ c = '\'' ∨ c = '`' then some { scan with quoted := some c }
    else if c = '\x7b' then some { scan with depth := scan.depth + 1 }
    else if c = '\x7d' then
      match scan.depth with
      | 0 => none
      | depth + 1 => some { scan with depth }
    else some scan

/-- How many code points stand before the brace that closes the hole. -/
def length (scan : HoleScan) : Text → Option Nat
  | [] => none
  | c :: rest =>
    match scan.step c with
    | none => some 0
    | some scan => (length scan rest).map (· + 1)

/-- The scan behind a text, nothing if the text closes the hole. -/
def run (scan : HoleScan) (t : Text) : Option HoleScan := t.foldlM step scan

end HoleScan

/-- The code points that the scan of a hole goes by. -/
def holeMarks : Text := "\"'\x60\x7b\x7d"

/-- The scan of a hole is behind the text what it was before it. -/
def PassedOver (t : Text) : Prop := HoleScan.run {} t = some {}

instance (t : Text) : Decidable (PassedOver t) := inferInstanceAs (Decidable (_ = _))

section
variable {stop depth at_ close n : Nat} {quoted : Option (CodePoint × Nat)} {t w : Text} {scan scan' : HoleScan} {c : CodePoint}

/-- The hole ends where the scan says, if that is in the window. -/
theorem holeEnd_eq_ok : holeEnd stop quoted depth at_ t = .ok close ↔
    close < stop ∧ ∃ n, HoleScan.length ⟨quoted.map Prod.fst, depth⟩ t = some n ∧ close = at_ + n := by
  induction t generalizing quoted depth at_ with
  | nil =>
    have hnone (n : Nat) : HoleScan.length ⟨quoted.map Prod.fst, depth⟩ [] ≠ some n := nofun
    refine ⟨fun h => ?_, fun ⟨_, n, hn, _⟩ => absurd hn (hnone n)⟩
    rw [holeEnd.eq_def] at h
    cases quoted with
    | some q => cases h
    | none =>
      simp only at h
      split at h <;> cases h
  | cons c rest ih =>
    -- one step of the scan, the hole going on behind it
    have hstep {quoted' : Option (CodePoint × Nat)} {depth' : Nat}
        (hscan : HoleScan.step ⟨quoted.map Prod.fst, depth⟩ c = some ⟨quoted'.map Prod.fst, depth'⟩) :
        holeEnd stop quoted' depth' (at_ + 1) rest = .ok close ↔
          close < stop ∧ ∃ n, HoleScan.length ⟨quoted.map Prod.fst, depth⟩ (c :: rest) = some n ∧ close = at_ + n := by
      rw [ih]
      simp only [HoleScan.length, hscan, Option.map_eq_some_iff]
      constructor
      · rintro ⟨hlt, n, hn, rfl⟩
        exact ⟨hlt, n + 1, ⟨n, hn, rfl⟩, by omega⟩
      · rintro ⟨hlt, _, ⟨n, hn, rfl⟩, rfl⟩
        exact ⟨hlt, n, hn, by omega⟩
    rw [holeEnd.eq_def]
    cases quoted with
    | some q =>
      simp only
      by_cases hmark : c = q.1
      · rw [if_pos hmark]
        exact hstep (by simp [HoleScan.step, hmark])
      · rw [if_neg hmark]
        exact hstep (by simp [HoleScan.step, hmark])
    | none =>
      simp only
      by_cases hstop : stop ≤ at_
      · rw [if_pos hstop]
        exact ⟨nofun, fun ⟨hlt, n, _, hn⟩ => by omega⟩
      rw [if_neg hstop]
      by_cases hquote : c = '"' ∨ c = '\'' ∨ c = '`'
      · rw [if_pos hquote]
        exact hstep (by simp only [HoleScan.step, Option.map_none, if_pos hquote, Option.map_some])
      rw [if_neg hquote]
      by_cases hopen : c = '\x7b'
      · rw [if_pos hopen]
        exact hstep (by simp only [HoleScan.step, Option.map_none, if_neg hquote, if_pos hopen])
      rw [if_neg hopen]
      by_cases hclose : c = '\x7d'
      · rw [if_pos hclose]
        cases depth with
        | zero =>
          have hdone : HoleScan.step ⟨none, 0⟩ c = none := by
            simp only [HoleScan.step, if_neg hquote, if_neg hopen, if_pos hclose]
          simp only [HoleScan.length, Option.map_none, hdone, Option.some.injEq]
          constructor
          · intro h
            cases h
            exact ⟨Nat.lt_of_not_le hstop, 0, rfl, rfl⟩
          · rintro ⟨_, _, rfl, rfl⟩
            rfl
        | succ depth =>
          exact hstep (by simp only [HoleScan.step, Option.map_none, if_neg hquote, if_neg hopen, if_pos hclose])
      · rw [if_neg hclose]
        exact hstep (by simp only [HoleScan.step, Option.map_none, if_neg hquote, if_neg hopen, if_neg hclose])

/-- What comes behind the closing brace does not matter. -/
theorem HoleScan.length_append (h : scan.length (w ++ t) = some n) (hlt : n < w.length) (r : Text) :
    scan.length (w ++ r) = some n := by
  induction w generalizing scan n with
  | nil => cases hlt
  | cons c w ih =>
    rw [List.cons_append, HoleScan.length] at h ⊢
    cases hstep : scan.step c with
    | none =>
      rw [hstep] at h
      exact h
    | some next =>
      rw [hstep] at h
      obtain ⟨m, hm, rfl⟩ := Option.map_eq_some_iff.1 h
      simp only
      rw [ih hm (Nat.lt_of_succ_lt_succ hlt)]
      rfl

/-! ## Texts that the scan passes over -/

namespace HoleScan

@[simp] theorem run_nil (scan : HoleScan) : scan.run [] = some scan := rfl

theorem run_cons (scan : HoleScan) (c : CodePoint) (t : Text) : scan.run (c :: t) = (scan.step c).bind (run · t) := rfl

theorem run_append (scan : HoleScan) (s t : Text) : scan.run (s ++ t) = (scan.run s).bind (run · t) :=
  List.foldlM_append

/-- The hole ends at the brace behind a text that is passed over. -/
theorem length_of_run (h : scan.run w = some {}) (rest : Text) :
    scan.length (w ++ CodePoint.ofChar '\x7d' :: rest) = some w.length := by
  induction w generalizing scan with
  | nil =>
    cases h
    rfl
  | cons c w ih =>
    rw [run_cons] at h
    obtain ⟨next, hstep, hnext⟩ := Option.bind_eq_some_iff.1 h
    rw [List.cons_append, length, hstep]
    simp only
    rw [ih hnext]
    rfl

/-- Braces around the text are left as they are. -/
theorem step_deeper (h : scan.step c = some scan') (k : Nat) :
    step { scan with depth := scan.depth + k } c = some { scan' with depth := scan'.depth + k } := by
  obtain ⟨quoted, depth⟩ := scan
  unfold step at h ⊢
  -- inside a string the depth is not looked at
  cases quoted with
  | some mark =>
    cases h
    simp only
    split <;> rfl
  | none =>
    simp only at h ⊢
    split at h
    next hquote =>
      rw [if_pos hquote]
      cases h
      rfl
    next hquote =>
    rw [if_neg hquote]
    split at h
    next hopen =>
      rw [if_pos hopen]
      cases h
      simp only [Nat.add_right_comm]
    next hopen =>
    rw [if_neg hopen]
    split at h
    next hclose =>
      rw [if_pos hclose]
      cases depth with
      | zero => cases h
      | succ depth =>
        cases h
        rw [Nat.add_right_comm]
    next hclose =>
      rw [if_neg hclose]
      cases h
      rfl

theorem run_deeper (h : scan.run t = some scan') (k : Nat) :
    run { scan with depth := scan.depth + k } t = some { scan' with depth := scan'.depth + k } := by
  induction t generalizing scan with
  | nil =>
    cases h
    rfl
  | cons c t ih =>
    rw [run_cons] at h ⊢
    obtain ⟨next, hstep, hnext⟩ := Option.bind_eq_some_iff.1 h
    rw [step_deeper hstep k]
    exact ih hnext

end HoleScan

theorem PassedOver.run (h : PassedOver t) (depth : Nat) : HoleScan.run { depth } t = some { depth } := by
  have hdeeper := HoleScan.run_deeper h depth
  rwa [Nat.zero_add] at hdeeper

/-- A text without quotes and braces is passed over. -/
theorem passedOver_of_plain (h : ∀ c ∈ t, c ∉ holeMarks) : PassedOver t := by
  induction t with
  | nil => rfl
  | cons c t ih =>
    rw [List.forall_mem_cons] at h
    have hstep : HoleScan.step {} c = some {} := by
      have hne (d : CodePoint) (hd : d ∈ holeMarks) : c ≠ d := fun heq => h.1 (heq ▸ hd)
      have hquote : ¬ (c = '"' ∨ c = '\'' ∨ c = '`') := by
        rintro (heq | heq | heq)
        · exact hne _ (by decide) heq
        · exact hne _ (by decide) heq
        · exact hne _ (by decide) heq
      simp only [HoleScan.step]
      rw [if_neg hquote, if_neg (hne _ (by decide)), if_neg (hne _ (by decide))]
    rw [PassedOver, HoleScan.run_cons, hstep]
    exact ih h.2

/-- Quoted text without a quote of its kind inside is passed over. -/
theorem passedOver_of_quoted {mark : CodePoint} {body : Text} (hmark : mark = '"' ∨ mark = '\'' ∨ mark = '`')
    (h : mark ∉ body) : PassedOver (mark :: (body ++ [mark])) := by
  have hopen : HoleScan.step {} mark = some { quoted := some mark } := by
    simp only [HoleScan.step]
    rw [if_pos hmark]
  have hbody : HoleScan.run { quoted := some mark } (body ++ [mark]) = some {} := by
    induction body with
    | nil => simp [HoleScan.run_cons, HoleScan.step]
    | cons c body ih =>
      rw [List.mem_cons, not_or] at h
      have hstep : HoleScan.step { quoted := some mark } c = some { quoted := some mark } := by
        simp only [HoleScan.step]
        rw [if_neg (Ne.symm h.1)]
      rw [List.cons_append, HoleScan.run_cons, hstep]
      exact ih h.2
  rw [PassedOver, HoleScan.run_cons, hopen]
  exact hbody

end

end WireSchema.Source
