import WireSchema.Proofs.Grammar.Ahead
import WireSchema.Proofs.Grammar.Within
/-!
# Members behind one another

A member that is read up to its last token is read alike before whatever does
not go on with it. A property or a method stops there by itself. A signature
stops only before a semicolon, a comma or a brace, so it goes on with whatever
else comes next.
-/

namespace WireSchema

open Source Source.Cursor Source.Parser

namespace Source

end Source

namespace TypeGrammar

/-- The marks at which a signature stops, or which it does not take on their own. -/
def signatureMarks : List Text := [";", ",", "\x7d", "(", "[", "\x7b", "<", ":", "=>"]

section
variable {source : Text} {k n : Nat} {rules rules' : Rules} {o : Place} {c d e : Cursor} {t : Token} {us : List Token} {w : Text}
  {docs : DocComment} {p : Property TypeExpr}

/-! ## Where a member begins -/

/-- A member begins with a name, a literal or an opening bracket. -/
theorem member_first {x : Option (Property TypeExpr) × Cursor} (h : member rules (c.before (t :: us)) = .ok x)
    (hlexed : t.Lexed) (hname : Text.isName w = false) (hw : w ∉ (["[", "(", "<"] : List Text)) : t.is w = false := by
  refine Bool.eq_false_iff.2 fun his => ?_
  have hmark := marks_of_is hlexed his hname
  have hword {v : Text} (hv : Text.isName v = true) : t.is v = false := by
    refine Token.is_ne his fun heq => ?_
    rw [heq, hv] at hname
    cases hname
  have hbracket {v : Text} (hv : v ∈ (["[", "(", "<"] : List Text)) : t.is v = false :=
    Token.is_ne his fun heq => hw (heq ▸ hv)
  have hloop : loop readonlyRound () (c.before (t :: us)) = .ok ((), c.before (t :: us)) :=
    loop_done (by simp [readonlyRound, beginsModified, hword (v := "readonly") (by decide)])
  have hrejects : behindName rules (DocComment.ofBlocks t.docs) t (c.before us) =
      .error (.rejected (.unexpectedInObject t.raw) t.start) := by
    simp only [behindName, hmark.isWord, hmark.isString, hmark.isNumber, Bool.or_self, Bool.not_false]
    rfl
  have hread : member rules (c.before (t :: us)) = behindName rules (DocComment.ofBlocks t.docs) t (c.before us) := by
    rw [member_eq]
    simp only [bind_apply, peek_apply, peek_before, ok_bind, hloop, unmodified, get_apply, sees_before,
      hbracket (v := "[") (by decide), hbracket (v := "(") (by decide), hbracket (v := "<") (by decide),
      hword (v := "new") (by decide), hword (v := "get") (by decide), hword (v := "set") (by decide), Bool.or_self,
      Bool.false_and, Bool.false_eq_true, if_false, next_before]
  rw [hread, hrejects] at h
  cases h

/-- A modifier alone is the name of a property. -/
theorem member_readonly (h : t.is "readonly" = true) (hlast : c.last.isEnd = true) (hrest : c.rest = []) :
    member rules (c.before [t]) ≠ .ok (none, d) := by
  intro hread
  have hnot {v : Text} (hv : Text.ofString "readonly" ≠ v) : t.is v = false := Token.is_ne h hv
  have hmodified : beginsModified "readonly" (c.before [t]) = false := Bool.eq_false_iff.2 fun hmodified => by
    have hlt := one_lt_of_beginsModified (c := c.before [t]) hlast hmodified
    rw [rest_before, hrest] at hlt
    exact absurd hlt (Nat.lt_irrefl 1)
  have hloop : loop readonlyRound () (c.before [t]) = .ok ((), c.before [t]) := loop_done (by simp [readonlyRound, hmodified])
  rw [member_eq] at hread
  simp only [bind_apply, peek_apply, peek_before, ok_bind, hloop, unmodified, get_apply, sees_before, hnot (v := "[") (by decide),
    hnot (v := "(") (by decide), hnot (v := "<") (by decide), hnot (v := "new") (by decide), hnot (v := "get") (by decide),
    hnot (v := "set") (by decide), Bool.or_self, Bool.false_and, Bool.false_eq_true, if_false, next_before] at hread
  obtain ⟨_, _, _, hread⟩ := bind_ok.1 hread
  obtain ⟨_, _, _, hread⟩ := bind_ok.1 hread
  obtain ⟨_, _, _, hread⟩ := bind_ok.1 hread
  cases hread

/-! ## Signatures -/

/-- A word of a signature is passed over. -/
theorem skipSignature_word (h : t.is w = true) (hw : w ∉ signatureMarks) :
    skipSignature rules (c.before [t]) = skipSignature rules c := by
  have hnot {v : Text} (hv : v ∈ signatureMarks) : t.is v = false := Token.is_ne h fun heq => hw (heq ▸ hv)
  have hbracket : t.isOneOf ["(", "[", "\x7b", "<"] = false := by
    refine Bool.eq_false_iff.2 fun hone => hw ?_
    have hraw : t.raw = w := beq_iff_eq.1 (Bool.and_eq_true_iff.1 h).2
    have hmarks : ∀ v ∈ (["(", "[", "\x7b", "<"] : List Text), v ∈ signatureMarks := by decide
    exact hraw ▸ hmarks _ (isOneOf_iff.1 hone).2
  have hround : signatureRound rules () (c.before [t]) = .ok (.again (), c) := by
    simp [signatureRound, skipPiece, hnot (v := ";") (by decide), hnot (v := ",") (by decide), hnot (v := "\x7d") (by decide),
      Token.not_isEnd_of_is h, hbracket, acceptEither_of_not_sees (c := c.before [t]) (hnot (v := ":") (by decide))
      (hnot (v := "=>") (by decide))]
  rw [skipSignature, loop_apply, rounds_again hround]
  rfl

theorem exists_of_sees (hlast : c.last.isEnd = true) (h : c.sees w = true) : ∃ t d, c = before d [t] ∧ t.is w = true := by
  obtain ⟨t, d, rfl⟩ := exists_first (c := c) fun hnil => by
    rw [not_sees_end hlast (by simp [hnil])] at h
    cases h
  exact ⟨t, d, rfl, h⟩

/-- What has no name is passed over as a signature. -/
theorem skipSignature_of_unmodified (hlast : c.last.isEnd = true) (h : unmodified rules docs c = .ok (none, d)) :
    skipSignature rules c = .ok ((), d) := by
  have hskip {e : Cursor} (h : (do
      skipSignature rules
      return none : Parser (Option (Property TypeExpr))) e = .ok (none, d)) : skipSignature rules e = .ok ((), d) := by
    obtain ⟨_, e', hskip, h⟩ := bind_ok.1 h
    cases h
    exact hskip
  obtain ⟨_, _, hget, h⟩ := bind_ok.1 h
  cases hget
  by_cases hbracket : (c.sees "[" || c.sees "(" || c.sees "<") = true
  · rw [if_pos hbracket] at h
    exact hskip h
  rw [if_neg hbracket] at h
  by_cases hnew : (c.sees "new" && (c.sees "(" 1 || c.sees "<" 1)) = true
  · rw [if_pos hnew] at h
    obtain ⟨t, e, rfl, ht⟩ := exists_of_sees hlast (Bool.and_eq_true_iff.1 hnew).1
    rw [bind_apply, next_before, ok_bind] at h
    rw [skipSignature_word ht (by decide)]
    exact hskip h
  rw [if_neg hnew] at h
  by_cases haccessor : ((c.sees "get" || c.sees "set") && ((c.peek 1).isWord || (c.peek 1).isString)) = true
  · rw [if_pos haccessor] at h
    exact hskip h
  rw [if_neg haccessor] at h
  obtain ⟨name, e, _, h⟩ := bind_ok.1 h
  obtain ⟨_, _, _, h⟩ := bind_ok.1 h
  obtain ⟨_, _, _, h⟩ := bind_ok.1 h
  obtain ⟨_, _, _, h⟩ := bind_ok.1 h
  cases h

/-- Passing over modifiers goes on before each of them. -/
theorem readonly_induction {P : Cursor → Prop} (hlast : c.last.isEnd = true) (h : loop readonlyRound () c = .ok ((), d))
    (hd : P d) (hbefore : ∀ t e, t.is "readonly" = true → P e → P (e.before [t])) : P c := by
  rw [loop_apply] at h
  generalize c.rest.length + 1 = n at h
  induction n generalizing c with
  | zero => cases h
  | succ n ih =>
    obtain ⟨turn, e, hturn, h⟩ := bind_ok.1 h
    obtain ⟨_, _, hget, hturn⟩ := bind_ok.1 hturn
    cases hget
    by_cases hmodified : beginsModified "readonly" c = true
    · rw [if_pos hmodified] at hturn
      obtain ⟨t, e', rfl, ht⟩ := exists_of_sees hlast (Bool.and_eq_true_iff.1 hmodified).1
      rw [bind_apply, next_before] at hturn
      cases hturn
      exact hbefore t e' ht (ih hlast h)
    · rw [if_neg hmodified] at hturn
      cases hturn
      cases h
      exact hd

/-- A member without a name is passed over as a signature, with its modifiers. -/
theorem skipSignature_of_member (hlast : c.last.isEnd = true) (h : member rules c = .ok (none, d)) :
    skipSignature rules c = .ok ((), d) := by
  rw [member_eq] at h
  obtain ⟨_, _, hpeek, h⟩ := bind_ok.1 h
  cases hpeek
  obtain ⟨_, e, hloop, h⟩ := bind_ok.1 h
  have hsame : c.last = e.last := readonly_induction (P := fun c => c.last = e.last) hlast hloop rfl fun _ _ _ he => he
  refine readonly_induction (P := fun c => skipSignature rules c = .ok ((), d)) hlast hloop
    (skipSignature_of_unmodified (hsame ▸ hlast) h) fun t e ht he => ?_
  rw [skipSignature_word ht (by decide), he]

section
variable (hr : rules.Repeat source k rules')
include hr

/-- A signature that takes all tokens goes on with what comes next. -/
theorem rounds_goesOn (hk : o.shift = k) (h : Seam source o false c) {m l : Nat} {x : Unit × Cursor}
    (hread : rounds (signatureRound rules) n () c = .ok ((), d)) (hd : d.rest = [])
    (hnext : rounds (signatureRound rules') m () o.next = .ok x) (hle : n ≤ l + 1) :
    rounds (signatureRound rules') (l + m) () (o.put c) = .ok x := by
  induction n generalizing c l with
  | zero => cases hread
  | succ n ih =>
    by_cases hne : c.rest = []
    · rw [o.put_of_nil hne]
      exact rounds_of_le (Nat.le_add_left m l) hnext
    obtain ⟨turn, e, hturn, hread⟩ := bind_ok.1 hread
    have hrepeats : Repeats o false (signatureRound rules ()) (signatureRound rules' ()) c :=
      repeats_signatureRound hr hk h hne
    obtain ⟨hreach, hsame⟩ := hrepeats turn e hturn
    cases turn with
    | done b =>
      -- it would stop before the last token
      cases hread
      obtain ⟨_, _, hget, hturn⟩ := bind_ok.1 hturn
      cases hget
      split at hturn
      · cases hturn
        exact absurd hd hne
      · obtain ⟨_, _, _, hturn⟩ := bind_ok.1 hturn
        cases hturn
    | again _ =>
      have hpos : 0 < l := by
        rcases n with _ | n
        · cases hread
        · omega
      obtain ⟨l, rfl⟩ : ∃ j, l = j + 1 := ⟨l - 1, by omega⟩
      rw [Nat.add_right_comm, rounds_again (hsame nofun)]
      exact ih (h.reaches hreach) hread (Nat.le_of_succ_le_succ hle)

theorem skipSignature_goesOn (hk : o.shift = k) (h : Seam source o false c) {x : Unit × Cursor}
    (hread : skipSignature rules c = .ok ((), d)) (hd : d.rest = []) (hnext : skipSignature rules' o.next = .ok x) :
    skipSignature rules' (o.put c) = .ok x := by
  rw [skipSignature, loop_apply] at hread hnext ⊢
  have hlength : (o.put c).rest.length + 1 = c.rest.length + (o.next.rest.length + 1) := by
    simp [Place.put, Nat.add_assoc]
  rw [hlength]
  exact rounds_goesOn hr hk h hread hd hnext (Nat.le_refl _)

theorem unmodified_goesOn (hk : o.shift = k) (h : Seam source o false c) (hread : unmodified rules docs c = .ok (none, d))
    (hd : d.rest = []) (hnext : skipSignature rules' o.next = .ok ((), e)) :
    unmodified rules' docs (o.put c) = .ok (none, e) := by
  have hne : c.rest ≠ [] := fun hnil => refuses_unmodified h.last hnil _ hread
  have hlength := List.length_pos_iff.2 hne
  have hskip {c : Cursor} (h : Seam source o false c) (hread : (do
      skipSignature rules
      return none : Parser (Option (Property TypeExpr))) c = .ok (none, d)) : (do
        skipSignature rules'
        return none : Parser (Option (Property TypeExpr))) (o.put c) = .ok (none, e) := by
    obtain ⟨_, _, hread, hret⟩ := bind_ok.1 hread
    cases hret
    exact bind_ok.2 ⟨_, _, skipSignature_goesOn hr hk h hread hd hnext, rfl⟩
  obtain ⟨_, _, hget, hread⟩ := bind_ok.1 hread
  cases hget
  refine bind_ok.2 ⟨_, _, rfl, ?_⟩
  simp only [sees_put o hlength]
  by_cases hbracket : (c.sees "[" || c.sees "(" || c.sees "<") = true
  · rw [if_pos hbracket] at hread ⊢
    exact hskip h hread
  rw [if_neg hbracket] at hread ⊢
  -- behind a name there is always a property
  have hnamed (t : Token) (e : Cursor) : ¬ behindName rules docs t e = .ok (none, d) := by
    intro h
    obtain ⟨_, _, _, h⟩ := bind_ok.1 h
    obtain ⟨_, _, _, h⟩ := bind_ok.1 h
    obtain ⟨_, _, _, h⟩ := bind_ok.1 h
    cases h
  obtain ⟨t, c, rfl⟩ := exists_first hne
  by_cases hone : c.rest = []
  · -- a word alone is a name
    have hnot (w : Text) : (c.before [t]).sees w 1 = false := not_sees_end h.last (by simp [hone]) w
    have hl : c.last.lexeme = .endOfInput := beq_iff_eq.1 h.last
    have hfollowing : (((c.before [t]).peek 1).isWord || ((c.before [t]).peek 1).isString) = false := by
      rw [peek_length_le (by simp [hone])]
      simp [Token.isWord, Token.isString, hl]
    rw [hnot, hnot, hfollowing, Bool.or_self, Bool.and_false, Bool.and_false, if_neg Bool.false_ne_true,
      if_neg Bool.false_ne_true] at hread
    exact absurd hread (hnamed t c)
  have hone : 1 < (c.before [t]).rest.length := by
    have := List.length_pos_iff.2 hone
    simp
    omega
  simp only [sees_put o hone, peek_put o hone, Token.isWord_later, Token.isString_later]
  by_cases hnew : ((c.before [t]).sees "new" && ((c.before [t]).sees "(" 1 || (c.before [t]).sees "<" 1)) = true
  · rw [if_pos hnew] at hread ⊢
    exact hskip (h.reaches ⟨[t], rfl⟩) hread
  rw [if_neg hnew] at hread ⊢
  by_cases haccessor : (((c.before [t]).sees "get" || (c.before [t]).sees "set") &&
      (((c.before [t]).peek 1).isWord || ((c.before [t]).peek 1).isString)) = true
  · rw [if_pos haccessor] at hread ⊢
    exact hskip h hread
  · rw [if_neg haccessor] at hread
    exact absurd hread (hnamed t c)

/-- A signature that takes all tokens goes on with what comes next, as long as that is a signature too. -/
theorem member_goesOn (hk : o.shift = k) (h : Seam source o false c) (hread : member rules c = .ok (none, d))
    (hd : d.rest = []) (hnext : skipSignature rules' o.next = .ok ((), e)) :
    member rules' (o.put c) = .ok (none, e) := by
  have hne : c.rest ≠ [] := fun hnil => refuses_member h.last hnil _ hread
  rw [member_eq] at hread ⊢
  obtain ⟨_, _, hpeek, hread⟩ := bind_ok.1 hread
  cases hpeek
  obtain ⟨_, e', hloop, hread⟩ := bind_ok.1 hread
  have hrepeats : Repeats o false (loop readonlyRound ()) (loop readonlyRound ()) c := repeats_readonly h hne
  obtain ⟨hreach, hsame⟩ := hrepeats () e' hloop
  refine bind_ok.2 ⟨_, _, rfl, bind_ok.2 ⟨_, _, hsame nofun, ?_⟩⟩
  rw [peek_put o (List.length_pos_iff.2 hne), Token.docs_later]
  exact unmodified_goesOn hr hk (h.reaches hreach) hread hd hnext

/-! ## Properties and methods -/

omit hr in
theorem memberType_method {type : TypeExpr} (hmethod : (c.sees "(" || c.sees "<") = true)
    (h : memberType rules c = .ok (type, d)) : ∃ text, type = .verbatim text .function := by
  obtain ⟨_, _, hget, h⟩ := bind_ok.1 h
  cases hget
  rw [if_pos hmethod] at h
  obtain ⟨start, _, _, h⟩ := bind_ok.1 h
  obtain ⟨seen, _, _, h⟩ := bind_ok.1 h
  obtain ⟨_, _, _, h⟩ := bind_ok.1 h
  obtain ⟨_, _, _, h⟩ := bind_ok.1 h
  obtain ⟨parameters, _, _, h⟩ := bind_ok.1 h
  obtain ⟨result, _, _, h⟩ := bind_ok.1 h
  cases h
  exact ⟨_, rfl⟩

/-- A member with an annotation behind its name stops by itself. -/
theorem behindName_annotated (hk : o.shift = k) (h : Seam source o false c) {name : Token}
    (hread : behindName rules docs name c = .ok (some p, d)) (hcolon : ∃ t ∈ c.rest, t.Marks ":")
    (hmethod : o.next.sees "is" = true → ∀ text, p.type ≠ .verbatim text .function) :
    behindName rules' docs (name.later o.shift) (o.put c) = .ok (some p, o.put d) := by
  have hrepeats : Repeats o false (behindName rules docs name) (behindName rules' docs (name.later o.shift)) c := by
    refine repeats_behindName hr hk h (.inr hcolon) fun taken e hoptional hopen => .inr (Bool.eq_false_iff.2 fun his => ?_)
    -- what is read is a method
    obtain ⟨_, e', hname, hread⟩ := bind_ok.1 hread
    obtain ⟨taken', e'', hoptional', hread⟩ := bind_ok.1 hread
    obtain ⟨type, _, htype, hread⟩ := bind_ok.1 hread
    cases hread
    obtain rfl := (refuses_fail _ _).when_ok hname
    rw [hoptional] at hoptional'
    cases hoptional'
    obtain ⟨text, rfl⟩ := memberType_method hopen htype
    exact hmethod his text rfl
  exact (hrepeats _ d hread).2 nofun

theorem unmodified_annotated (hk : o.shift = k) (h : Seam source o false c)
    (hread : unmodified rules docs c = .ok (some p, d)) (hcolon : ∃ t ∈ c.rest, t.Marks ":")
    (hmethod : o.next.sees "is" = true → ∀ text, p.type ≠ .verbatim text .function) :
    unmodified rules' docs (o.put c) = .ok (some p, o.put d) := by
  have hne : c.rest ≠ [] := fun hnil => refuses_unmodified h.last hnil _ hread
  have hlength := List.length_pos_iff.2 hne
  -- a signature that is skipped gives no property
  have hskip {e : Cursor} : ¬ (do
      skipSignature rules
      return none : Parser (Option (Property TypeExpr))) e = .ok (some p, d) := by
    intro h
    obtain ⟨_, _, _, h⟩ := bind_ok.1 h
    cases h
  obtain ⟨_, _, hget, hread⟩ := bind_ok.1 hread
  cases hget
  have hbracket : ¬ (c.sees "[" || c.sees "(" || c.sees "<") = true := fun hbracket => by
    rw [if_pos hbracket] at hread
    exact hskip hread
  rw [if_neg hbracket] at hread
  have hnew : ¬ (c.sees "new" && (c.sees "(" 1 || c.sees "<" 1)) = true := fun hnew => by
    rw [if_pos hnew] at hread
    obtain ⟨_, _, _, hread⟩ := bind_ok.1 hread
    exact hskip hread
  rw [if_neg hnew] at hread
  have haccessor : ¬ ((c.sees "get" || c.sees "set") && ((c.peek 1).isWord || (c.peek 1).isString)) = true :=
    fun haccessor => by
      rw [if_pos haccessor] at hread
      exact hskip hread
  rw [if_neg haccessor] at hread
  obtain ⟨t, c, rfl⟩ := exists_first hne
  rw [bind_apply, next_before, ok_bind, Cursor.before_nil] at hread
  have hcolon : ∃ u ∈ c.rest, u.Marks ":" := by
    obtain ⟨u, hu, hmark⟩ := hcolon
    rcases List.mem_cons.1 hu with rfl | hu
    · -- a colon is no name
      obtain ⟨_, _, hname, _⟩ := bind_ok.1 hread
      rw [hmark.isWord, hmark.isString, hmark.isNumber] at hname
      cases hname
    · exact ⟨u, hu, hmark⟩
  have hone : 1 < (c.before [t]).rest.length := by
    obtain ⟨u, hu, _⟩ := hcolon
    have := List.length_pos_of_mem hu
    simp
    omega
  refine bind_ok.2 ⟨_, _, rfl, ?_⟩
  simp only [sees_put o hlength, sees_put o hone, peek_put o hone, Token.isWord_later, Token.isString_later]
  rw [if_neg hbracket, if_neg hnew, if_neg haccessor, put_before]
  refine bind_ok.2 ⟨_, _, next_before _ [] _, ?_⟩
  exact behindName_annotated hr hk (h.reaches ⟨[t], rfl⟩) hread hcolon hmethod

/-- A property or a method with an annotation stops by itself. -/
theorem member_annotated (hk : o.shift = k) (h : Seam source o false c) (hread : member rules c = .ok (some p, d))
    (hcolon : ∃ t ∈ c.rest, t.Marks ":")
    (hmethod : o.next.sees "is" = true → ∀ text, p.type ≠ .verbatim text .function) :
    member rules' (o.put c) = .ok (some p, o.put d) := by
  have hne : c.rest ≠ [] := fun hnil => refuses_member h.last hnil _ hread
  rw [member_eq] at hread ⊢
  obtain ⟨_, _, hpeek, hread⟩ := bind_ok.1 hread
  cases hpeek
  obtain ⟨_, e, hloop, hread⟩ := bind_ok.1 hread
  have hrepeats : Repeats o false (loop readonlyRound ()) (loop readonlyRound ()) c := repeats_readonly h hne
  obtain ⟨hreach, hsame⟩ := hrepeats () e hloop
  refine bind_ok.2 ⟨_, _, rfl, bind_ok.2 ⟨_, _, hsame nofun, ?_⟩⟩
  rw [peek_put o (List.length_pos_iff.2 hne), Token.docs_later]
  refine unmodified_annotated hr hk (h.reaches hreach) hread ?_ hmethod
  -- no modifier is a colon
  have hbehind : (∃ t ∈ c.rest, t.Marks ":") → ∃ t ∈ e.rest, t.Marks ":" := by
    refine readonly_induction (P := fun c => (∃ t ∈ c.rest, t.Marks ":") → ∃ t ∈ e.rest, t.Marks ":") h.last hloop id
      fun t d ht hd ⟨u, hu, hmark⟩ => hd ?_
    rcases List.mem_cons.1 hu with rfl | hu
    · rw [hmark.is_eq] at ht
      exact absurd ht (by decide)
    · exact ⟨u, hu, hmark⟩
  exact hbehind hcolon

end

end

end TypeGrammar

end WireSchema
