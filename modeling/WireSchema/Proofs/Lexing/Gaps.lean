import WireSchema.Proofs.Steps
import WireSchema.Proofs.Lexing.Numbers
import WireSchema.Proofs.Text.Reading
/-!
# Gaps

What stands between two tokens is filled with white space and comments, one
after the other, in one way only. `Begins.found` says which filler the lexer
has found when it goes on with a gap, `readPiece_eq_token` which token it has
found when the gap ends, and `tokensFrom_eq_ok` how a run of the lexer goes on.
-/

namespace WireSchema.Source

open Text

/-- The part of a source between two offsets. -/
def slice (source : Text) (first last : Nat) : Text := (source.drop first).take (last - first)

/-- White space, a comment `/* … */`, or a comment `//` up to the end of its line. -/
inductive Filler where
  | blank (c : CodePoint)
  | block (inside : Text)
  | line (inside : Text)

namespace Filler

/-- The text of a filler. -/
def text : Filler → Text
  | blank c => [c]
  | block inside => "/*" ++ inside ++ "*/"
  | line inside => "//" ++ inside

/-- The text of several fillers. -/
def texts (fs : List Filler) : Text := fs.flatMap text

def isLine : Filler → Bool
  | line _ => true
  | _ => false

/-- White space is white, a block closes where it first can, and a line has no
line feed. -/
def Proper : Filler → Prop
  | blank c => c.isBlank = true
  | block inside => ¬ ("*/" : Text) <:+: inside ++ "*"
  | line inside => CodePoint.ofChar '\n' ∉ inside

/-- The filler if it is a comment `/** … */`; the shortest comment is none. -/
def doc? (f : Filler) : Option Text :=
  match f with
  | block _ => if startsWith f.text "/**" && f.text != "/**/" then some f.text else none
  | _ => none

/-- The comments for documentation. -/
def docs (fs : List Filler) : List Text := fs.filterMap doc?

@[simp] theorem text_blank (c : CodePoint) : (blank c).text = [c] := rfl

@[simp] theorem text_block (inside : Text) :
    (block inside).text = CodePoint.ofChar '/' :: CodePoint.ofChar '*' :: (inside ++ "*/") := rfl

@[simp] theorem text_line (inside : Text) :
    (line inside).text = CodePoint.ofChar '/' :: CodePoint.ofChar '/' :: inside := rfl

@[simp] theorem texts_nil : texts [] = [] := rfl

@[simp] theorem texts_cons (f : Filler) (fs : List Filler) : texts (f :: fs) = f.text ++ texts fs := rfl

theorem text_ne_nil (f : Filler) : f.text ≠ [] := by
  cases f <;> exact List.cons_ne_nil _ _

theorem texts_eq_nil {fs : List Filler} (h : texts fs = []) : fs = [] := by
  cases fs with
  | nil => rfl
  | cons f fs => exact absurd (List.append_eq_nil_iff.1 h).1 f.text_ne_nil

end Filler

open Filler

/-- The fillers make up a gap. A line comment runs to a line feed, or else, in the
gap before the end, to the end. -/
def Fills (isLast : Bool) : List Filler → Prop
  | [] => True
  | f :: rest =>
    f.Proper ∧ (f.isLine = true → rest.head? = some (.blank '\n') ∨ isLast = true ∧ rest = []) ∧
      Fills isLast rest

/-! ## There is one way to fill a gap -/

section
variable {isLast : Bool} {f g : Filler} {fs gs : List Filler} {inside other front back : Text}

theorem block_unique_of_append (h : ¬ ("*/" : Text) <:+: inside ++ other ++ "*")
    (heq : ("*/" : Text) ++ front = other ++ ("*/" ++ back)) : other = [] := by
  rcases other with _ | ⟨a, _ | ⟨b, other⟩⟩
  · rfl
  · exact absurd (List.cons.inj (List.cons.inj heq).2).1 (by decide)
  · obtain ⟨ha, heq⟩ := List.cons.inj heq
    have hopens : a :: b :: other = "*/" ++ other := by
      rw [← ha, ← (List.cons.inj heq).1]
      rfl
    exact absurd ⟨inside, other ++ "*", by simp [hopens]⟩ h

/-- The inside of a block ends at the first closing mark. -/
theorem block_unique (h : ¬ ("*/" : Text) <:+: inside ++ "*") (h' : ¬ ("*/" : Text) <:+: other ++ "*")
    (heq : inside ++ ("*/" ++ front) = other ++ ("*/" ++ back)) : inside = other := by
  rcases List.append_eq_append_iff.1 heq with ⟨more, rfl, hmore⟩ | ⟨more, rfl, hmore⟩
  · rw [block_unique_of_append h' hmore, List.append_nil]
  · rw [block_unique_of_append h hmore, List.append_nil]

/-- The inside of a line ends at the first line feed. -/
theorem line_unique (h : CodePoint.ofChar '\n' ∉ inside) (h' : CodePoint.ofChar '\n' ∉ other)
    (hfront : Stays (· != CodePoint.ofChar '\n') front) (hback : Stays (· != CodePoint.ofChar '\n') back)
    (heq : inside ++ front = other ++ back) : inside = other := by
  have hcut {t s : Text} (ht : CodePoint.ofChar '\n' ∉ t) (hs : Stays (· != CodePoint.ofChar '\n') s) :
      (t ++ s).takeWhile (· != CodePoint.ofChar '\n') = t := by
    rw [List.takeWhile_append_of_pos fun c hc => by
      simpa using fun heq : c = CodePoint.ofChar '\n' => ht (heq ▸ hc)]
    cases s with
    | nil => simp
    | cons c s => simp [hs c rfl]
  rw [← hcut h hfront, heq, hcut h' hback]

/-- A line feed comes behind a line comment, or nothing. -/
theorem Fills.stays (h : Fills isLast (f :: fs)) (hline : f.isLine = true) :
    Stays (· != CodePoint.ofChar '\n') (texts fs) := by
  rcases h.2.1 hline with hhead | ⟨_, rfl⟩
  · obtain ⟨rest, rfl⟩ := List.head?_eq_some_iff.1 hhead
    intro c hc
    cases hc
    rfl
  · intro c hc
    cases hc

/-- White space does not begin as a comment does. -/
theorem not_blank_slash {c : CodePoint} (h : (blank c).Proper) : c ≠ CodePoint.ofChar '/' := by
  rintro rfl
  have hslash : (CodePoint.ofChar '/').isBlank = false := by decide
  exact Bool.false_ne_true (hslash.symm.trans h)

theorem Fills.first_eq (h : Fills isLast (f :: fs)) (h' : Fills isLast (g :: gs))
    (heq : texts (f :: fs) = texts (g :: gs)) : f = g := by
  have hf := h.1
  have hg := h'.1
  rw [texts_cons, texts_cons] at heq
  cases f with
  | blank c =>
    cases g with
    | blank d => rw [(List.cons.inj heq).1]
    | block other => exact absurd (List.cons.inj heq).1 (not_blank_slash hf)
    | line other => exact absurd (List.cons.inj heq).1 (not_blank_slash hf)
  | block inside =>
    cases g with
    | blank d => exact absurd (List.cons.inj heq).1.symm (not_blank_slash hg)
    | block other =>
      simp only [text_block, List.cons_append, List.cons.injEq, true_and, List.append_assoc] at heq
      rw [block_unique hf hg heq]
    | line other => exact absurd (List.cons.inj (List.cons.inj heq).2).1 (by decide)
  | line inside =>
    cases g with
    | blank d => exact absurd (List.cons.inj heq).1.symm (not_blank_slash hg)
    | block other => exact absurd (List.cons.inj (List.cons.inj heq).2).1 (by decide)
    | line other =>
      simp only [text_line, List.cons_append, List.cons.injEq, true_and] at heq
      rw [line_unique hf hg (h.stays rfl) (h'.stays rfl) heq]

/-- A gap is filled in one way only. -/
theorem Fills.unique (h : Fills isLast fs) (h' : Fills isLast gs) (heq : texts fs = texts gs) : fs = gs := by
  induction fs generalizing gs with
  | nil => exact (texts_eq_nil heq.symm).symm
  | cons f fs ih =>
    cases gs with
    | nil => exact absurd (List.append_eq_nil_iff.1 heq).1 f.text_ne_nil
    | cons g gs =>
      obtain rfl := h.first_eq h' heq
      rw [texts_cons, texts_cons] at heq
      rw [ih h.2.2 h'.2.2 (List.append_cancel_left heq)]

end

/-! ## The window -/

/-- The window ends with the source, or a closing brace comes behind it. -/
def EndsWindow (source : Text) (stop : Nat) : Prop :=
  stop = source.length ∨ source[stop]? = some (CodePoint.ofChar '\x7d')

section
variable {source rest : Text} {stop at_ : Nat} {c : CodePoint}

theorem EndsWindow.le (h : EndsWindow source stop) : stop ≤ source.length := by
  rcases h with rfl | h
  · exact Nat.le_refl _
  · exact Nat.le_of_lt (List.getElem?_eq_some_iff.1 h).1

/-- What comes behind the window begins with what ends words and numbers. -/
theorem EndsWindow.head? (h : EndsWindow source stop) {d : CodePoint} (hd : (source.drop stop).head? = some d) :
    d = '\x7d' := by
  rw [List.head?_drop] at hd
  rcases h with rfl | h
  · simp at hd
  · rw [h] at hd
    exact (Option.some.inj hd).symm

theorem slice_add {first middle last : Nat} (h : first ≤ middle) (h' : middle ≤ last) :
    slice source first last = slice source first middle ++ slice source middle last := by
  have hadd : last - first = (middle - first) + (last - middle) := by omega
  have hdrop : source.drop middle = (source.drop first).drop (middle - first) := by
    rw [List.drop_drop, Nat.add_sub_cancel' h]
  rw [slice, slice, slice, hadd, List.take_add, hdrop]

theorem slice_eq_nil {first last : Nat} (h : last ≤ first) : slice source first last = [] := by
  rw [slice, Nat.sub_eq_zero_of_le h, List.take_zero]

theorem drop_eq_slice_append (h : at_ ≤ stop) : source.drop at_ = slice source at_ stop ++ source.drop stop := by
  have hdrop : source.drop stop = (source.drop at_).drop (stop - at_) := by
    rw [List.drop_drop, Nat.add_sub_cancel' h]
  rw [slice, hdrop, List.take_append_drop]

theorem length_slice {first last : Nat} (h : last ≤ source.length) : (slice source first last).length = last - first := by
  rw [slice, List.length_take, List.length_drop]
  omega

/-- A piece without a closing brace that begins in the window ends in it. -/
theorem EndsWindow.fits (h : EndsWindow source stop) (hat : at_ ≤ stop) {piece : Text}
    (hbrace : CodePoint.ofChar '\x7d' ∉ piece) (hpiece : startsWith (source.drop at_) piece = true) :
    at_ + piece.length ≤ stop := by
  refine Nat.le_of_not_lt fun hlong => ?_
  obtain ⟨after, hafter⟩ := eq_append_of_startsWith hpiece
  have hinside : (source.drop at_)[stop - at_]? = piece[stop - at_]? := by
    rw [hafter, List.getElem?_append_left (by omega)]
  rw [List.getElem?_drop, Nat.add_sub_cancel' hat] at hinside
  have hlt : stop - at_ < piece.length := by omega
  rw [List.getElem?_eq_getElem hlt] at hinside
  rcases h with rfl | h
  · simp at hinside
  · rw [h] at hinside
    exact hbrace (Option.some.inj hinside ▸ List.getElem_mem hlt)

end

/-! ## What the lexer finds in a gap -/

theorem indexOf?_eq_some {pattern t : Text} {n : Nat} (hpattern : pattern ≠ []) (h : indexOf? pattern t = some n) :
    ∃ before after, t = before ++ (pattern ++ after) ∧ before.length = n ∧
      ∀ front back, t = front ++ (pattern ++ back) → n ≤ front.length := by
  induction t generalizing n with
  | nil =>
    rw [indexOf?, if_neg (by simpa using hpattern)] at h
    cases h
  | cons c t ih =>
    rw [indexOf?] at h
    split at h
    next hstart =>
      cases h
      obtain ⟨after, hafter⟩ := eq_append_of_startsWith hstart
      exact ⟨[], after, hafter, rfl, fun _ _ _ => Nat.zero_le _⟩
    next hstart =>
      obtain ⟨m, hm, rfl⟩ := Option.map_eq_some_iff.1 h
      obtain ⟨before, after, rfl, rfl, hfirst⟩ := ih hm
      refine ⟨c :: before, after, rfl, rfl, fun front back heq => ?_⟩
      cases front with
      | nil =>
        rw [List.nil_append] at heq
        exact absurd (heq ▸ startsWith_append pattern back) hstart
      | cons d front => exact Nat.succ_le_succ (hfirst front back (List.cons.inj heq).2)

/-- The gap with one more filler. -/
def Gap.fill (gap : Gap) (f : Filler) : Gap where
  docs := gap.docs ++ f.doc?.toList
  space := true
  lineBreak := gap.lineBreak || f.text.contains '\n'

/-- The filler at an offset, behind which the lexer goes on at `next`. A line
comment may go on behind the window. -/
structure FoundAt (source : Text) (stop at_ next : Nat) (f : Filler) : Prop where
  proper : f.Proper
  text : f.text = slice source at_ (min next stop)
  inside : f.isLine = false → next ≤ stop
  line : f.isLine = true → stop ≤ next ∨ source[next]? = some (CodePoint.ofChar '\n')

section
variable {source rest inside behind : Text} {stop at_ more : Nat} {c : CodePoint} {before gap : Gap}

/-- A block is found where the closing mark comes first. -/
theorem block_proper (hfirst : ∀ front back, inside ++ ("*/" ++ behind) = front ++ ("*/" ++ back) →
    inside.length ≤ front.length) : (block inside).Proper := by
  rintro ⟨front, back, heq⟩
  have hjoin : inside ++ ("*/" ++ behind) = front ++ ("*/" ++ (back ++ ("/" ++ behind))) :=
    calc inside ++ ("*/" ++ behind) = inside ++ "*" ++ ("/" ++ behind) := by simp [Text.ofString]
      _ = front ++ "*/" ++ back ++ ("/" ++ behind) := by rw [heq]
      _ = front ++ ("*/" ++ (back ++ ("/" ++ behind))) := by simp only [List.append_assoc]
  have hlength := congrArg List.length heq
  have hle := hfirst front _ hjoin
  simp [Text.ofString] at hlength
  omega

/-- A slash does not come behind the star that opens documentation. -/
theorem not_startsWith_slash (h : (block ('*' :: inside)).Proper) (behind : Text) :
    startsWith (inside ++ ("*/" ++ behind)) "/" = false := by
  cases inside with
  | nil => rfl
  | cons b inside =>
    by_cases hb : b = '/'
    · subst hb
      exact absurd ⟨[], inside ++ "*", rfl⟩ h
    · exact startsWith_cons hb _

/-- The shortest comment is told from documentation by what the text starts with. -/
theorem isDoc_eq (h : (block inside).Proper) (behind : Text) :
    (startsWith ((block inside).text ++ behind) "/**" && !startsWith ((block inside).text ++ behind) "/**/") =
      (startsWith (block inside).text "/**" && (block inside).text != "/**/") := by
  cases inside with
  | nil => rfl
  | cons a inside =>
    by_cases ha : a = '*'
    · subst ha
      have hlong : (block ('*' :: inside)).text ≠ "/**/" := by
        intro heq
        simpa [Text.ofString] using congrArg List.length heq
      have hslash : startsWith ((block ('*' :: inside)).text ++ behind) "/**/" = false := by
        have := not_startsWith_slash h behind
        rw [← List.append_assoc] at this
        exact this
      rw [hslash, bne_iff_ne.2 hlong]
      rfl
    · have hstar (t : Text) : startsWith ('/' :: '*' :: a :: t) "/**" = false := startsWith_cons ha t
      have hwhole : startsWith ((block (a :: inside)).text ++ behind) "/**" = false := hstar _
      have hblock : startsWith (block (a :: inside)).text "/**" = false := hstar _
      rw [hwhole, hblock, Bool.false_and, Bool.false_and]

theorem blockComment_gap (htext : source.drop at_ = c :: rest) (hstart : startsWith (c :: rest) "/*" = true)
    (h : blockComment stop at_ before (c :: rest) = .ok (.gap gap more)) :
    ∃ f, gap = before.fill f ∧ FoundAt source stop at_ (at_ + more + 1) f := by
  obtain ⟨after, hafter⟩ := eq_append_of_startsWith hstart
  have hdrop : (c :: rest).drop 2 = after := by rw [hafter]; rfl
  rw [blockComment, hdrop] at h
  cases hindex : indexOf? "*/" after with
  | none => simp [hindex] at h
  | some n =>
    obtain ⟨inside, behind, rfl, rfl, hfirst⟩ := indexOf?_eq_some (by decide) hindex
    have hproper := block_proper hfirst
    have hwhole : c :: rest = (block inside).text ++ behind := by
      rw [hafter]
      simp [Text.ofString]
    have hlength : (block inside).text.length = inside.length + 4 := by simp [Text.ofString]
    have hcomment : (c :: rest).take (inside.length + 4) = (block inside).text := by
      rw [hwhole, ← hlength, List.take_left]
    simp only [hindex] at h
    split at h
    · cases h
    next hroom =>
      rw [hcomment, hwhole, isDoc_eq hproper] at h
      cases h
      refine ⟨block inside, ?_, hproper, ?_, fun _ => by omega, fun hline => by cases hline⟩
      · simp only [Gap.fill, doc?]
        split <;> simp
      · rw [Nat.min_eq_left (by omega), slice, htext, ← hcomment]
        congr 1
        omega

/-- The start of a line that begins with two slashes is a line comment. -/
theorem line_found {t : Text} {m : Nat} (hstart : startsWith t "//" = true) (hm : 2 ≤ m)
    (hline : m ≤ (t.takeWhile (· ≠ CodePoint.ofChar '\n')).length) :
    ∃ inside, (line inside).Proper ∧ (line inside).text = t.take m := by
  have hnone : CodePoint.ofChar '\n' ∉ t.take m := by
    intro hmem
    have hcut := List.prefix_iff_eq_take.1 (List.takeWhile_prefix (l := t) (· ≠ CodePoint.ofChar '\n'))
    have hall : (t.takeWhile (· ≠ CodePoint.ofChar '\n')).all (· ≠ CodePoint.ofChar '\n') = true :=
      List.all_takeWhile
    rw [← Nat.min_eq_left hline, ← List.take_take, ← hcut] at hmem
    simpa using List.all_eq_true.1 hall _ (List.mem_of_mem_take hmem)
  obtain ⟨after, rfl⟩ := eq_append_of_startsWith hstart
  obtain ⟨m, rfl⟩ : ∃ k, m = k + 2 := ⟨m - 2, by omega⟩
  exact ⟨after.take m, fun hmem => hnone (List.mem_cons_of_mem _ (List.mem_cons_of_mem _ hmem)), rfl⟩

theorem fill_line (h : (line inside).Proper) : before.fill (line inside) = { before with space := true } := by
  have hslash : CodePoint.ofChar '\n' ≠ CodePoint.ofChar '/' := by decide
  have hnone : CodePoint.ofChar '\n' ∉ inside := h
  simp [Gap.fill, doc?, hslash, hnone]

/-- Where a line ends before the text does, the line feed stands. -/
theorem line_feed (t : Text) (h : (t.takeWhile (· ≠ CodePoint.ofChar '\n')).length < t.length) :
    t[(t.takeWhile (· ≠ CodePoint.ofChar '\n')).length]? = some (CodePoint.ofChar '\n') := by
  induction t with
  | nil => exact absurd h (Nat.lt_irrefl _)
  | cons d t ih =>
    by_cases hd : d = CodePoint.ofChar '\n'
    · simp [hd]
    · rw [List.takeWhile_cons_of_pos (by simpa using hd)] at h ⊢
      simpa using ih (Nat.lt_of_succ_lt_succ h)

theorem lineComment_gap (hends : EndsWindow source stop) (hat : at_ < stop) (htext : source.drop at_ = c :: rest)
    (hstart : startsWith (c :: rest) "//" = true)
    (h : lineComment stop at_ before (c :: rest) = .gap gap more) :
    ∃ f, gap = before.fill f ∧ FoundAt source stop at_ (at_ + more + 1) f := by
  have hfits : at_ + ("//" : Text).length ≤ stop := hends.fits (Nat.le_of_lt hat) (by decide) (htext ▸ hstart)
  have hslashes : ("//" : Text).length = 2 := rfl
  have hlong : (c :: rest).length = source.length - at_ := by rw [← htext, List.length_drop]
  have hstop := hends.le
  obtain ⟨after, hafter⟩ := eq_append_of_startsWith hstart
  have htwo : 2 ≤ ((c :: rest).takeWhile (· ≠ CodePoint.ofChar '\n')).length := by
    rw [hafter]
    exact Nat.le_add_left 2 _
  simp only [lineComment] at h
  generalize hlength : ((c :: rest).takeWhile (· ≠ CodePoint.ofChar '\n')).length = length at h htwo
  obtain ⟨rfl, hmore⟩ := Piece.gap.inj h
  -- the comment goes on behind the window where the line does
  obtain ⟨inside, hproper, hcut⟩ := line_found (m := min (at_ + more + 1) stop - at_) hstart
    (by split at hmore <;> omega) (by split at hmore <;> omega)
  refine ⟨line inside, (fill_line hproper).symm, hproper, ?_, nofun, fun _ => ?_⟩
  · rw [hcut, slice, htext]
  · split at hmore
    · exact .inl (by omega)
    next hshort =>
      have hle : length ≤ (c :: rest).length := hlength ▸ (List.takeWhile_sublist _).length_le
      have hfeed := line_feed (c :: rest) (by omega)
      rw [hlength, ← htext, List.getElem?_drop] at hfeed
      rw [show at_ + more + 1 = at_ + length by omega]
      exact .inr hfeed

theorem blank_gap (hat : at_ < stop) (htext : source.drop at_ = c :: rest) (hblank : c.isBlank = true) :
    FoundAt source stop at_ (at_ + 1) (blank c) where
  proper := hblank
  text := by
    rw [Nat.min_eq_left (show at_ + 1 ≤ stop from hat), slice, htext, Nat.add_sub_cancel_left]
    rfl
  inside _ := hat
  line := nofun

theorem fill_blank : before.fill (blank c) = { before with space := true, lineBreak := before.lineBreak || c == '\n' } := by
  by_cases hc : CodePoint.ofChar '\n' = c
  · simp [Gap.fill, doc?, hc]
  · simp [Gap.fill, doc?, hc, Ne.symm hc]

/-- What begins at an offset, told by the first code points: the first rule that
applies is taken. -/
inductive Begins (stop at_ : Nat) (before : Gap) (c : CodePoint) (rest : Text) : Piece → Prop where
  | blank : c.isBlank = true →
    Begins stop at_ before c rest (.gap { before with space := true, lineBreak := before.lineBreak || c == '\n' } 0)
  | block {piece} : c.isBlank = false → startsWith (c :: rest) "/*" = true →
    blockComment stop at_ before (c :: rest) = .ok piece → Begins stop at_ before c rest piece
  | line : c.isBlank = false → startsWith (c :: rest) "//" = true →
    Begins stop at_ before c rest (lineComment stop at_ before (c :: rest))
  | string {n value} : closingQuote c (stop - at_ - 1) rest = .ok (some n) →
    Begins stop at_ before c rest (.token (.string value) (n + 1))
  | template {parts last} : templateParts at_ stop 0 (at_ + 1) [] rest = .ok (parts, last) →
    Begins stop at_ before c rest (.token (.template parts) (last - at_))
  | number {n} : numberLength (c :: rest) = n + 1 → Begins stop at_ before c rest (.token .number n)
  | word : Begins stop at_ before c rest (.token .word (runLength CodePoint.continuesWord rest))
  | dots : startsWith (c :: rest) "..." = true → Begins stop at_ before c rest (.token .mark 2)
  | arrow : startsWith (c :: rest) "=>" = true → Begins stop at_ before c rest (.token .mark 1)
  | mark : Begins stop at_ before c rest (.token .mark 0)

theorem readPiece_begins {piece : Piece} (h : readPiece stop at_ before c rest = .ok piece) :
    Begins stop at_ before c rest piece := by
  simp only [readPiece] at h
  split at h
  next hblank =>
    cases h
    exact .blank hblank
  next hblank =>
    rw [Bool.not_eq_true] at hblank
    split at h
    next hblock => exact .block hblank hblock h
    split at h
    next hline =>
      cases h
      exact .line hblank hline
    split at h
    next =>
      obtain ⟨_ | n, hclose, h⟩ := Except.bind_eq_ok.1 h
      · cases h
      · obtain ⟨value, _, h⟩ := Except.bind_eq_ok.1 h
        cases h
        exact .string hclose
    split at h
    next =>
      obtain ⟨⟨parts, last⟩, hparts, h⟩ := Except.bind_eq_ok.1 h
      cases h
      exact .template hparts
    split at h
    next =>
      split at h
      · cases h
      next n hn =>
        cases h
        exact .number hn
    split at h
    next =>
      cases h
      exact .word
    split at h
    next hdots =>
      cases h
      exact .dots hdots
    split at h
    next harrow =>
      cases h
      exact .arrow harrow
    split at h
    next =>
      cases h
      exact .mark
    · cases h

/-- Where the lexer goes on with a gap it has found one filler more. -/
theorem Begins.found (hends : EndsWindow source stop) (hat : at_ < stop) (htext : source.drop at_ = c :: rest)
    (h : Begins stop at_ before c rest (.gap gap more)) :
    ∃ f, gap = before.fill f ∧ FoundAt source stop at_ (at_ + more + 1) f ∧ (c.isBlank = true → f = .blank c) := by
  generalize hpiece : Piece.gap gap more = piece at h
  cases h with
  | blank hblank =>
    cases hpiece
    exact ⟨.blank c, fill_blank.symm, blank_gap hat htext hblank, fun _ => rfl⟩
  | block hblank hstart hread =>
    subst hpiece
    obtain ⟨f, hgap, hfound⟩ := blockComment_gap htext hstart hread
    exact ⟨f, hgap, hfound, fun h => absurd h (by simp [hblank])⟩
  | line hblank hstart =>
    obtain ⟨f, hgap, hfound⟩ := lineComment_gap hends hat htext hstart hpiece.symm
    exact ⟨f, hgap, hfound, fun h => absurd h (by simp [hblank])⟩
  | _ => cases hpiece

end

/-! ## What the lexer finds behind a gap -/

/-- Neither white space nor a comment stands here. -/
structure EndsGap (c : CodePoint) (rest : Text) : Prop where
  blank : c.isBlank = false
  block : startsWith (c :: rest) "/*" = false
  line : startsWith (c :: rest) "//" = false

/-- A number begins with a digit, or with a dot before a digit. -/
def beginsNumber (c : CodePoint) (rest : Text) : Bool :=
  c.isDigit || (c == '.' && (rest.head?.map CodePoint.isDigit).getD false)

/-- How much of a mark stands behind its first code point: the longest mark is taken. -/
def markRest? (c : CodePoint) (rest : Text) : Option Nat :=
  if startsWith (c :: rest) "..." then some 2
  else if startsWith (c :: rest) "=>" then some 1
  else if c.isPunctuation then some 0
  else none

/-- The token that stands behind a gap, and how much of it behind the first code point.
Each kind of token is one that none of the kinds before it applies to. -/
inductive BeginsToken (stop at_ : Nat) (c : CodePoint) (rest : Text) : Lexeme → Nat → Prop where
  | string {n : Nat} {value : Text} (quote : c = '"' ∨ c = '\'')
    (close : closingQuote c (stop - at_ - 1) rest = .ok (some n)) (unescaped : unescape (rest.take n) = .ok value) :
    BeginsToken stop at_ c rest (.string value) (n + 1)
  | template {parts : List TemplatePart} {last : Nat} (quote : c = '`')
    (read : templateParts at_ stop 0 (at_ + 1) [] rest = .ok (parts, last)) :
    BeginsToken stop at_ c rest (.template parts) (last - at_)
  | number {n : Nat} (bare : ¬ (c = '"' ∨ c = '\'') ∧ c ≠ '`') (numeral : beginsNumber c rest = true)
    (length : numberLength (c :: rest) = n + 1) : BeginsToken stop at_ c rest .number n
  | word (bare : ¬ (c = '"' ∨ c = '\'') ∧ c ≠ '`') (numeral : beginsNumber c rest = false)
    (word : c.beginsWord = true) : BeginsToken stop at_ c rest .word (runLength CodePoint.continuesWord rest)
  | mark {n : Nat} (bare : ¬ (c = '"' ∨ c = '\'') ∧ c ≠ '`') (numeral : beginsNumber c rest = false)
    (word : c.beginsWord = false) (mark : markRest? c rest = some n) : BeginsToken stop at_ c rest .mark n

section
variable {stop at_ more : Nat} {gap : Gap} {c : CodePoint} {rest t : Text} {lexeme : Lexeme} {tokens : List Token}

/-- Comments are no tokens. -/
theorem blockComment_ne_token : blockComment stop at_ gap t ≠ .ok (.token lexeme more) := by
  intro h
  unfold blockComment at h
  split at h
  · cases h
  · split at h <;> cases h

theorem BeginsToken.readPiece_eq (hends : EndsGap c rest) (h : BeginsToken stop at_ c rest lexeme more) :
    readPiece stop at_ gap c rest = .ok (.token lexeme more) := by
  unfold readPiece
  simp only [hends.blank, hends.block, hends.line, Bool.false_eq_true, if_false]
  -- one case for each kind of token; what it is not excludes the tests before
  cases h with
  | string hquote hclose hvalue =>
    simp only [if_pos hquote, hclose, bind, Except.bind, hvalue]
    rfl
  | @template parts last hquote hparts =>
    have hbare : ¬ (c = '"' ∨ c = '\'') := by
      rw [hquote]
      decide
    simp only [if_neg hbare, if_pos hquote, hparts, bind, Except.bind]
    rfl
  | number hbare hnumeral hlength =>
    unfold beginsNumber at hnumeral
    simp only [if_neg hbare.1, if_neg hbare.2, if_pos hnumeral, hlength]
  | word hbare hnumeral hword =>
    unfold beginsNumber at hnumeral
    simp only [if_neg hbare.1, if_neg hbare.2, hnumeral, Bool.false_eq_true, if_false, hword, if_true]
  | mark hbare hnumeral hword hmark =>
    unfold beginsNumber at hnumeral
    simp only [if_neg hbare.1, if_neg hbare.2, hnumeral, Bool.false_eq_true, if_false, hword]
    unfold markRest? at hmark
    split at hmark
    next hdots => rw [if_pos hdots, ← Option.some.inj hmark]
    next hdots =>
      rw [if_neg hdots]
      split at hmark
      next harrow => rw [if_pos harrow, ← Option.some.inj hmark]
      next harrow =>
        rw [if_neg harrow]
        split at hmark
        next hpoint => rw [if_pos hpoint, ← Option.some.inj hmark]
        next => cases hmark

/-- The lexer finds a token where no gap goes on, told by its first code points. -/
theorem readPiece_eq_token : readPiece stop at_ gap c rest = .ok (.token lexeme more) ↔
    EndsGap c rest ∧ BeginsToken stop at_ c rest lexeme more := by
  refine ⟨fun h => ?_, fun h => h.2.readPiece_eq h.1⟩
  unfold readPiece at h
  -- blanks and comments are gaps, so none of them opens a token
  by_cases hblank : c.isBlank = true
  · rw [if_pos hblank] at h
    cases h
  by_cases hblock : startsWith (c :: rest) "/*" = true
  · rw [if_neg hblank, if_pos hblock] at h
    exact absurd h blockComment_ne_token
  by_cases hline : startsWith (c :: rest) "//" = true
  · rw [if_neg hblank, if_neg hblock, if_pos hline] at h
    cases h
  rw [if_neg hblank, if_neg hblock, if_neg hline] at h
  refine ⟨⟨Bool.eq_false_iff.2 hblank, Bool.eq_false_iff.2 hblock, Bool.eq_false_iff.2 hline⟩, ?_⟩
  by_cases hquote : c = '"' ∨ c = '\''
  · rw [if_pos hquote] at h
    obtain ⟨_ | n, hclose, h⟩ := Except.bind_eq_ok.1 h
    · cases h
    obtain ⟨value, hvalue, h⟩ := Except.bind_eq_ok.1 h
    cases h
    exact .string hquote hclose (Except.mapError_eq_ok.1 hvalue)
  rw [if_neg hquote] at h
  by_cases hopen : c = '`'
  · rw [if_pos hopen] at h
    obtain ⟨⟨parts, last⟩, hparts, h⟩ := Except.bind_eq_ok.1 h
    cases h
    exact .template hopen hparts
  rw [if_neg hopen] at h
  by_cases hnumeral : beginsNumber c rest = true
  · rw [beginsNumber] at hnumeral
    rw [if_pos hnumeral] at h
    split at h
    · cases h
    next n hlength =>
      cases h
      exact .number ⟨hquote, hopen⟩ hnumeral hlength
  have hbare := hnumeral
  rw [beginsNumber] at hbare
  rw [if_neg hbare] at h
  by_cases hword : c.beginsWord = true
  · rw [if_pos hword] at h
    cases h
    exact .word ⟨hquote, hopen⟩ (Bool.eq_false_iff.2 hnumeral) hword
  rw [if_neg hword] at h
  have hmark : lexeme = .mark ∧ markRest? c rest = some more := by
    unfold markRest?
    split at h
    next hdots =>
      cases h
      exact ⟨rfl, if_pos hdots⟩
    next hdots =>
    rw [if_neg hdots]
    split at h
    next harrow =>
      cases h
      exact ⟨rfl, if_pos harrow⟩
    next harrow =>
    rw [if_neg harrow]
    split at h
    next hpoint =>
      cases h
      exact ⟨rfl, if_pos hpoint⟩
    · cases h
  obtain ⟨rfl, hmark⟩ := hmark
  exact .mark ⟨hquote, hopen⟩ (Bool.eq_false_iff.2 hnumeral) (Bool.eq_false_iff.2 hword) hmark

/-! ## Runs of the lexer -/

/-- A run of the lexer over what stands from an offset on, behind a gap: it takes more
of the gap or a token, time and again, up to the end of the window. -/
inductive Lexes (stop : Nat) : Nat → Gap → Text → List Token → Prop where
  | ended {at_ : Nat} {gap : Gap} {t : Text} (reached : stop ≤ at_) :
    Lexes stop at_ gap t
      [{ lexeme := .endOfInput, raw := [], start := stop, stop := stop, spaceBefore := gap.space, lineBreak := true,
         docs := gap.docs }]
  | gap {at_ more : Nat} {gap filled : Gap} {c : CodePoint} {rest : Text} {tokens : List Token} (before : at_ < stop)
    (piece : readPiece stop at_ gap c rest = .ok (.gap filled more))
    (behind : Lexes stop (at_ + more + 1) filled (rest.drop more) tokens) : Lexes stop at_ gap (c :: rest) tokens
  | token {at_ more : Nat} {gap : Gap} {c : CodePoint} {rest : Text} {lexeme : Lexeme} {tokens : List Token}
    (before : at_ < stop) (piece : readPiece stop at_ gap c rest = .ok (.token lexeme more))
    (behind : Lexes stop (at_ + more + 1) {} (rest.drop more) tokens) :
    Lexes stop at_ gap (c :: rest)
      ({ lexeme, raw := c :: rest.take more, start := at_, stop := at_ + more + 1, spaceBefore := gap.space,
         lineBreak := gap.lineBreak, docs := gap.docs } :: tokens)

/-- The lexer answers with tokens where it runs over them. -/
theorem tokensFrom_eq_ok : tokensFrom stop at_ gap t = .ok tokens ↔ Lexes stop at_ gap t tokens := by
  constructor
  · intro h
    induction at_, gap, t using tokensFrom.induct stop generalizing tokens with
    | case1 at_ gap t hend =>
      rw [tokensFrom.eq_def, if_pos hend] at h
      cases h
      exact .ended hend
    | case2 at_ gap hend => simp [tokensFrom, hend] at h
    | case3 at_ gap hend c rest fault hpiece =>
      rw [tokensFrom, if_neg hend, hpiece] at h
      cases h
    | case4 at_ gap hend c rest filled more hpiece ih =>
      rw [tokensFrom, if_neg hend, hpiece] at h
      exact .gap (Nat.lt_of_not_le hend) hpiece (ih h)
    | case5 at_ gap hend c rest lexeme more hpiece fault htokens ih =>
      rw [tokensFrom, if_neg hend, hpiece] at h
      simp only [htokens] at h
      cases h
    | case6 at_ gap hend c rest lexeme more hpiece later htokens ih =>
      rw [tokensFrom, if_neg hend, hpiece] at h
      simp only [htokens] at h
      cases h
      exact .token (Nat.lt_of_not_le hend) hpiece (ih htokens)
  · intro h
    induction h with
    | ended hend => rw [tokensFrom.eq_def, if_pos hend]
    | gap hlt hpiece _ ih =>
      rw [tokensFrom, if_neg (Nat.not_le_of_lt hlt), hpiece]
      exact ih
    | token hlt hpiece _ ih =>
      rw [tokensFrom, if_neg (Nat.not_le_of_lt hlt), hpiece]
      simp only [ih]

end

end WireSchema.Source
