import WireSchema.Proofs.Grammar.Produced
import WireSchema.Proofs.Grammar.Reported
import WireSchema.Proofs.Layout.Blank
/-!
# Texts that the parser keeps

Every token can be seen, and whatever is read passes one. So no text that is kept
of a source is blank: no name, no text of a type, no value of an enumeration.
-/

namespace WireSchema

open Source Source.Cursor Source.Parser

/-! ## Tokens -/

namespace Source

theorem tokensFrom_visible {stop at_ : Nat} {gap : Gap} {t : Text} {tokens : List Token}
    (h : tokensFrom stop at_ gap t = .ok tokens) :
    ∃ ts last, tokens = ts ++ [last] ∧ ∀ u ∈ ts, Text.isBlank u.raw = false := by
  rw [tokensFrom_eq_ok] at h
  induction h with
  | ended _ => exact ⟨[], _, rfl, List.forall_mem_nil _⟩
  | gap _ _ _ ih => exact ih
  | token _ hpiece _ ih =>
    obtain ⟨ts, last, rfl, hvisible⟩ := ih
    refine ⟨_ :: ts, last, rfl, List.forall_mem_cons.2 ⟨?_, hvisible⟩⟩
    rw [Text.isBlank, List.all_cons, (readPiece_eq_token.1 hpiece).1.blank, Bool.false_and]

/-- A run of tokens can be seen from the first one on. -/
theorem isBlank_spell {t : Token} {ts : List Token} (h : Text.isBlank t.raw = false) :
    Text.isBlank (spell (t :: ts)) = false :=
  Text.isBlank_append_left h _

namespace Cursor

/-- The cursor stands in the source before tokens that can be seen. -/
structure Clear (source : Text) (limit : Nat) (c : Cursor) : Prop extends c.Fits source limit where
  visible : ∀ t ∈ c.rest, Text.isBlank t.raw = false

variable {source : Text} {limit other : Nat} {c d : Cursor}

theorem Clear.here (h : c.Clear source limit) : On source limit c c := ⟨h.toFits, .refl c⟩

theorem Clear.on (h : c.Clear source limit) (hd : On source other c d) : d.Clear source limit where
  toFits := h.toFits.reaches hd.reaches
  visible := by
    obtain ⟨ts, rfl⟩ := hd.reaches
    exact fun t ht => h.visible t (List.mem_append_right ts ht)

/-- There may be more to read. -/
theorem Clear.grow (h : c.Clear source limit) : c.Clear source (limit + 1) :=
  { h with toFits := h.toFits.mono (Nat.le_succ limit) }

/-- Behind a token there is less to read. -/
theorem Clear.past (h : c.Clear source (limit + 1)) (hd : Past source other c d) : d.Clear source limit where
  toFits := h.toFits.passes hd.passes
  visible := (h.on hd.on).visible

/-- What was passed can be seen. -/
theorem Clear.text (h : c.Clear source limit) (hd : Past source other c d) : Text.isBlank (spell (c.upTo d)) = false := by
  obtain ⟨t, ts, rfl⟩ := hd.passes
  rw [upTo_before]
  exact isBlank_spell (h.visible t List.mem_cons_self)

theorem Clear.peek (h : c.Clear source limit) (hend : c.peek.isEnd = false) : Text.isBlank c.peek.raw = false := by
  obtain ⟨rest, last⟩ := c
  cases rest with
  | nil =>
    have hlast : last.isEnd = true := h.last
    exact absurd hend (by simp [Cursor.peek, hlast])
  | cons t rest => exact h.visible t List.mem_cons_self

theorem clear_ofTokens {at_ stop : Nat} {tokens : List Token} (hends : EndsWindow source stop) (hat : at_ ≤ stop)
    (h : tokenize source at_ stop = .ok tokens) (hlimit : stop - at_ < limit) : (ofTokens tokens).Clear source limit where
  toFits := (WireSchema.Cursor.fits_ofTokens hends hat h).mono hlimit
  visible := by
    obtain ⟨ts, last, rfl, hvisible⟩ := tokensFrom_visible h
    simpa [ofTokens] using hvisible

end Cursor

/-! ## Answers -/

namespace Parser

/-- If the parser answers, it does so as `Q` says. -/
def Answers (p : Parser α) (c : Cursor) (Q : α → Cursor → Prop) : Prop := ∀ a d, p c = .ok (a, d) → Q a d

section
variable {α β σ : Type} {source : Text} {limit : Nat} {start c : Cursor} {p : Parser α} {f : α → Parser β}
  {Q : α → Cursor → Prop} {R : β → Cursor → Prop} {w : Text}

theorem Ends.answers (h : Ends source p c Q) : Answers p c Q := by
  intro a d hrun
  rw [Ends, hrun] at h
  exact h

theorem Answers.any : Answers p c fun _ _ => True := fun _ _ _ => trivial

theorem Answers.mono {Q' : α → Cursor → Prop} (h : Answers p c Q) (hq : ∀ a d, Q a d → Q' a d) : Answers p c Q' :=
  fun a d hrun => hq a d (h a d hrun)

theorem Answers.and {Q' : α → Cursor → Prop} (h : Answers p c Q) (h' : Answers p c Q') :
    Answers p c fun a d => Q a d ∧ Q' a d :=
  fun a d hrun => ⟨h a d hrun, h' a d hrun⟩

theorem Answers.bind (h : Answers p c Q) (hf : ∀ a d, Q a d → Answers (f a) d R) : Answers (p >>= f) c R := by
  intro b e hrun
  obtain ⟨a, d, hp, hrest⟩ := bind_ok.1 hrun
  exact hf a d (h a d hp) b e hrest

/-- What the first step does not matter. -/
theorem Answers.next (hf : ∀ a d, Answers (f a) d R) : Answers (p >>= f) c R := Answers.any.bind fun a d _ => hf a d

theorem Answers.pure {a : α} (h : Q a c) : Answers (Pure.pure a) c Q := by
  rintro b d ⟨⟩
  exact h

theorem Answers.ite {b : Prop} [Decidable b] {q : Parser α} (hp : b → Answers p c Q) (hq : ¬ b → Answers q c Q) :
    Answers (if b then p else q) c Q := by
  split
  next h => exact hp h
  next h => exact hq h

@[simp] theorem answers_get_bind {f : Cursor → Parser β} : Answers (get >>= f) c R ↔ Answers (f c) c R := .rfl

@[simp] theorem answers_peek_bind {f : Token → Parser β} {n : Nat} :
    Answers (peek n >>= f) c R ↔ Answers (f (c.peek n)) c R := .rfl

@[simp] theorem answers_sees_bind {f : Bool → Parser β} {n : Nat} :
    Answers (sees w n >>= f) c R ↔ Answers (f (c.sees w n)) c R := .rfl

@[simp] theorem answers_textSince_bind {f : Text → Parser β} :
    Answers (textSince start >>= f) c R ↔ Answers (f (spell (start.upTo c))) c R := .rfl

/-- What cannot move the cursor answers as it is said to. -/
theorem answers_lift {x : Except Fault α} (h : ∀ a, x = .ok a → Q a c) : Answers (liftM x : Parser α) c Q := by
  intro a d hrun
  cases x with
  | error fault => cases hrun
  | ok found =>
    cases hrun
    exact h _ rfl

theorem answers_reject {cause : Rejection} : Answers (reject cause : Parser α) c Q := nofun

theorem answers_rejectAt {t : Token} {cause : Rejection} : Answers (rejectAt t cause : Parser α) c Q := nofun

/-- A round keeps `I` if it goes on, and the last one ends with `R`. -/
def Rounds (I : σ → Cursor → Prop) (R : β → Cursor → Prop) : Turn σ β → Cursor → Prop
  | .again s, d => I s d
  | .done b, d => R b d

theorem answers_loop {round : σ → Parser (Turn σ β)} {I : σ → Cursor → Prop} {s : σ} (hs : I s c)
    (h : ∀ s c, I s c → Answers (round s) c (Rounds I R)) : Answers (loop round s) c R := by
  have hrounds (n : Nat) (s : σ) (c : Cursor) (hs : I s c) : Answers (rounds round n s) c R := by
    induction n generalizing s c with
    | zero => exact nofun
    | succ n ih =>
      refine (h s c hs).bind fun turn d hturn => ?_
      cases turn with
      | again s => exact ih s d hturn
      | done b => exact .pure hturn
  exact hrounds _ s c hs

section
variable {A : α → Prop} (h : c.Clear source limit)
  (hitem : ∀ c, c.Clear source limit → Answers p c fun a d => A a ∧ Past source limit c d)
include h hitem

theorem answers_separated (mark : Text) :
    Answers (separated mark p) c fun as _ => as ≠ [] ∧ ∀ a ∈ as, A a := by
  refine (hitem c h).bind fun a d hd => answers_loop
    (I := fun as d => (as ≠ [] ∧ ∀ a ∈ as, A a) ∧ d.Clear source limit) ⟨⟨List.cons_ne_nil _ _, ?_⟩, h.on hd.2.on⟩ ?_
  · exact List.forall_mem_cons.2 ⟨hd.1, List.forall_mem_nil _⟩
  · intro as d ⟨⟨hne, has⟩, hd⟩
    refine (ends_accept mark hd.here).answers.bind fun taken e he => .ite (fun _ => ?_) fun _ => .pure ?_
    · have hclear := hd.on he.on
      refine (hitem e hclear).bind fun b e' hb => .pure ⟨⟨List.cons_ne_nil _ _, ?_⟩, hclear.on hb.2.on⟩
      exact List.forall_mem_cons.2 ⟨hb.1, has⟩
    · exact ⟨fun hnil => hne (List.reverse_eq_nil_iff.1 hnil), fun a ha => has a (List.mem_reverse.1 ha)⟩

theorem answers_listed (closer : Text) : Answers (listed closer p) c fun as _ => ∀ a ∈ as, A a := by
  refine answers_loop (I := fun as d => (∀ a ∈ as, A a) ∧ d.Clear source limit) ⟨by simp, h⟩ ?_
  intro as d ⟨has, hd⟩
  simp only [listedRound, answers_sees_bind]
  refine .ite (fun _ => .pure fun a ha => has a (List.mem_reverse.1 ha)) fun _ => ?_
  refine (hitem d hd).bind fun a e he => (ends_accept "," (hd.on he.2.on).here).answers.bind fun taken e' he' => ?_
  have hall : ∀ b ∈ a :: as, A b := List.forall_mem_cons.2 ⟨he.1, has⟩
  refine .ite (fun _ => .pure ⟨hall, (hd.on he.2.on).on he'.on⟩) fun _ => .pure fun b hb => ?_
  exact hall b (List.mem_reverse.1 hb)

end

end

end Parser

end Source

/-! ## Types -/

/-- No text of the type or in it is blank, and intersections have members. -/
inductive TypeExpr.Visible : TypeExpr → Prop where
  | keyword {name : Text} : Text.isBlank name = false → Visible (.keyword name)
  | literal {text : Text} : Text.isBlank text = false → Visible (.literal text)
  | verbatim {text : Text} {reason : Unmodelled} : Text.isBlank text = false → Visible (.verbatim text reason)
  | template {spans : List (Span TypeExpr)} {text : Text} : Text.isBlank text = false →
    (∀ e, .hole e ∈ spans → Visible e) → Visible (.template spans text)
  | array {element : TypeExpr} {text : Text} : Text.isBlank text = false → Visible element →
    Visible (.array element text)
  | tuple {elements : List TypeExpr} {text : Text} {variadic : Bool} : Text.isBlank text = false →
    (∀ e ∈ elements, Visible e) → Visible (.tuple elements text variadic)
  | object {members : List (Property TypeExpr)} {text : Text} : Text.isBlank text = false →
    (∀ m ∈ members, Visible m.type) → Visible (.object members text)
  | union {members : List TypeExpr} {text : Text} : Text.isBlank text = false → members ≠ [] →
    (∀ e ∈ members, Visible e) → Visible (.union members text)
  | intersection {members : List TypeExpr} {text : Text} : Text.isBlank text = false → members ≠ [] →
    (∀ e ∈ members, Visible e) → Visible (.intersection members text)
  | reference {name text : Text} {arguments : List TypeExpr} : Text.isBlank name = false →
    Text.isBlank text = false → (∀ e ∈ arguments, Visible e) → Visible (.reference name arguments text)

/-- The rules answer with such types. -/
structure Rules.Show (source : Text) (limit : Nat) (rules : Rules) : Prop extends rules.End source limit where
  types : ∀ {c}, c.Clear source limit → Answers rules.type c fun e _ => e.Visible
  operands : ∀ {c}, c.Clear source limit → Answers rules.operand c fun e _ => e.Visible
  holes : ∀ {a b}, EndsWindow source b → a ≤ b → b - a < limit → ∀ e, rules.hole a b = .ok e → e.Visible

namespace TypeGrammar

theorem isBlank_quote (t : Text) : Text.isBlank (Text.quote t) = false :=
  Text.isBlank_append_left (Text.isBlank_append_left (by decide) _) _

section
variable {source : Text} {limit : Nat} {rules : Rules} {c : Cursor}

theorem answers_expectName (h : c.Clear source limit) :
    Answers expectName c fun name _ => Text.isBlank name = false := by
  simp only [expectName, answers_peek_bind]
  exact .ite (fun hword => .next fun _ _ => .pure (h.peek (Token.not_isEnd_of_isWord hword))) fun _ => answers_reject

theorem answers_qualifiedName (h : c.Clear source limit) :
    Answers qualifiedName c fun name _ => Text.isBlank name = false := by
  refine (answers_expectName h).bind fun first d hfirst => ?_
  have hparts : Answers (loop qualifiedRound [first]) d fun parts _ => first ∈ parts := by
    refine answers_loop (I := fun parts _ => first ∈ parts) List.mem_cons_self fun parts e hmem => ?_
    simp only [qualifiedRound, answers_sees_bind, answers_peek_bind]
    refine .ite (fun _ => ?_) fun _ => .pure (List.mem_reverse.2 hmem)
    exact .next fun _ _ => .next fun _ _ => .pure (List.mem_cons_of_mem _ hmem)
  exact hparts.bind fun parts e hmem => .pure (Text.isBlank_join "." hmem hfirst)

variable (hr : rules.Show source limit)
include hr

theorem answers_types (h : c.Clear source limit) :
    Answers rules.type c fun e d => e.Visible ∧ Past source limit c d :=
  (hr.types h).and (hr.type h.here).answers

/-- A function type is kept as it was read. -/
theorem shows_functionType (h : c.Clear source (limit + 1)) : Answers (functionType rules) c fun e _ => e.Visible := by
  have htext : Answers (functionType rules) c fun e d => e = .verbatim (spell (c.upTo d)) .function := by
    simp only [functionType, answers_get_bind]
    refine .next fun _ _ => .next fun _ _ => .next fun _ _ => .next fun _ _ => .next fun _ _ => .next fun _ _ =>
      .next fun _ d => ?_
    simp only [answers_textSince_bind]
    exact .pure rfl
  refine (htext.and (ends_functionType hr.toEnd h.here).answers).mono ?_
  rintro e d ⟨he, hd⟩
  rw [he]
  exact .verbatim (h.text hd)

/-! ## Members of object shapes -/

omit hr in
theorem shows_methodType : Answers (methodType rules) c fun e _ => e.Visible := by
  simp only [methodType, answers_get_bind]
  refine .next fun _ _ => .next fun _ _ => .next fun _ _ => .next fun parameters _ => .next fun result _ => .pure ?_
  exact .verbatim (Text.isBlank_append_left (Text.isBlank_append_right parameters (by decide)) result)

theorem shows_memberType (h : c.Clear source limit) : Answers (memberType rules) c fun e _ => e.Visible := by
  simp only [memberType, answers_get_bind]
  refine .ite (fun _ => shows_methodType) fun _ => (ends_accept ":" h.here).answers.bind fun taken d hd => ?_
  exact .ite (fun _ => hr.types (h.on hd.on)) fun _ => .pure (.keyword (by decide))

theorem shows_member (h : c.Clear source limit) :
    Answers (member rules) c fun found _ => ∀ m ∈ found, m.type.Visible := by
  have hskipped {d : Cursor} : Answers (do
      skipSignature rules
      return none : Parser (Option (Property TypeExpr))) d fun found _ => ∀ m ∈ found, m.type.Visible :=
    .next fun _ _ => .pure fun m hm => by cases hm
  simp only [member, answers_peek_bind]
  refine (ends_readonly h.here).answers.bind fun _ d hd => ?_
  simp only [answers_get_bind]
  refine .ite (fun _ => hskipped) fun _ => .ite (fun _ => .next fun _ _ => hskipped) fun _ =>
    .ite (fun _ => hskipped) fun _ => (ends_next hd).answers.bind fun name e he => ?_
  -- only names are let through, and they are passed
  have hnamed : Answers (when (!(name.isWord || name.isString || name.isNumber))
      (rejectAt name (.unexpectedInObject name.raw))) e fun _ e' => On source limit c e' :=
    .ite (fun _ => answers_rejectAt) fun _ => .pure he.2.1
  refine hnamed.bind fun _ e₁ h₁ => (ends_accept "?" h₁).answers.bind fun _ e₂ h₂ =>
    (shows_memberType hr (h.on h₂.on)).bind fun type _ htype => .pure ?_
  rintro m ⟨⟩
  exact htype

theorem shows_members (h : c.Clear source (limit + 1)) :
    Answers (members rules) c fun found _ => ∀ m ∈ found, m.type.Visible := by
  refine (ends_expect _ h.here).answers.bind fun _ c₁ h₁ => ?_
  suffices hloop : Answers (loop (membersRound rules) []) c₁ fun found _ => ∀ m ∈ found, m.type.Visible from
    hloop.bind fun found _ hfound => .next fun _ _ => .pure hfound
  refine answers_loop (I := fun found d => (∀ m ∈ found, m.type.Visible) ∧ d.Clear source limit) ⟨by simp, h.past h₁⟩ ?_
  rintro found d ⟨hfound, hd⟩
  simp only [membersRound, answers_get_bind]
  refine .ite (fun _ => .pure fun m hm => hfound m (List.mem_reverse.1 hm)) fun _ => ?_
  have hwhen : Answers (when d.peek.isEnd (reject .unterminatedObject)) d fun _ d' => On source limit d d' :=
    .ite (fun _ => answers_reject) fun _ => .pure hd.here
  refine hwhen.bind fun _ d₁ hd₁ => ?_
  have hclear := hd.on hd₁
  refine ((shows_member hr hclear).and (ends_member hr.toEnd hclear.here).answers).bind ?_
  rintro one d₂ ⟨hone, hd₂⟩
  have hclear₂ := hclear.on hd₂.on
  refine (ends_separators hclear₂.here).answers.bind fun _ d₃ hd₃ => .pure ⟨fun m hm => ?_, hclear₂.on hd₃⟩
  rcases List.mem_append.1 hm with hm | hm
  · exact hone m (Option.mem_toList.1 hm)
  · exact hfound m hm

/-! ## Primary types -/

theorem shows_tuple (h : c.Clear source (limit + 1)) : Answers (tuple rules) c fun e _ => e.Visible := by
  have hparts : Answers (tuple rules) c fun e d => ∃ elements variadic, (∀ e ∈ elements, e.Visible) ∧
      e = .tuple elements (spell (c.upTo d)) variadic := by
    simp only [tuple, answers_get_bind]
    refine (ends_expect _ h.here).answers.bind fun _ c₁ h₁ => ?_
    have hloop : Answers (loop (tupleRound rules) ([], false)) c₁ fun found _ => ∀ e ∈ found.1, e.Visible := by
      refine answers_loop (I := fun state d => (∀ e ∈ state.1, e.Visible) ∧ d.Clear source limit) ⟨by simp, h.past h₁⟩ ?_
      rintro ⟨elements, variadic⟩ d ⟨hstate, hd⟩
      simp only [tupleRound, answers_sees_bind]
      refine .ite (fun _ => .pure fun e he => hstate e (List.mem_reverse.1 he)) fun _ => ?_
      refine (ends_accept "..." hd.here).answers.bind fun _ d₁ hd₁ =>
        (ends_elementName hd₁.on).answers.bind fun _ d₂ hd₂ => (answers_types hr (hd.on hd₂)).bind fun e d₃ hd₃ => ?_
      have hclear := (hd.on hd₂).on hd₃.2.on
      refine (ends_accept "?" hclear.here).answers.bind fun _ d₄ hd₄ =>
        (ends_accept "," hd₄.on).answers.bind fun _ d₅ hd₅ => ?_
      have hall : ∀ e' ∈ e :: elements, e'.Visible := List.forall_mem_cons.2 ⟨hd₃.1, hstate⟩
      refine .ite (fun _ => .pure ⟨hall, hclear.on hd₅.on⟩) fun _ => .pure fun e' he' => ?_
      exact hall e' (List.mem_reverse.1 he')
    refine hloop.bind fun found _ hfound => .next fun _ d => ?_
    simp only [answers_textSince_bind]
    exact .pure ⟨_, _, hfound, rfl⟩
  refine (hparts.and (ends_tuple hr.toEnd h.here).answers).mono ?_
  rintro e d ⟨⟨elements, variadic, helements, he⟩, hd⟩
  rw [he]
  exact .tuple (h.text hd) helements

theorem shows_typeArguments (h : c.Clear source limit) :
    Answers (typeArguments rules) c fun arguments _ => ∀ e ∈ arguments, e.Visible := by
  simp only [typeArguments, answers_get_bind]
  refine .ite (fun _ => ?_) fun _ => .pure (List.forall_mem_nil _)
  refine (ends_skip h.here).answers.bind fun _ d hd => ?_
  exact (answers_listed (h.on hd) (fun _ hc => answers_types hr hc) ">").bind fun arguments _ harguments =>
    .next fun _ _ => .pure harguments

theorem shows_reference (h : c.Clear source (limit + 1)) : Answers (reference rules) c fun e _ => e.Visible := by
  have hparts : Answers (reference rules) c fun e d => ∃ name arguments, Text.isBlank name = false ∧
      (∀ e ∈ arguments, e.Visible) ∧ e = .reference name arguments (spell (c.upTo d)) := by
    simp only [reference, answers_get_bind]
    refine ((answers_qualifiedName h).and (ends_qualifiedName h.here).answers).bind ?_
    rintro name d ⟨hname, hd⟩
    refine (shows_typeArguments hr (h.past hd)).bind fun arguments _ harguments => ?_
    simp only [answers_textSince_bind]
    exact .pure ⟨name, arguments, hname, harguments, rfl⟩
  refine (hparts.and (ends_reference hr.toEnd h.here).answers).mono ?_
  rintro e d ⟨⟨name, arguments, hname, hall, he⟩, hd⟩
  rw [he]
  exact .reference hname (h.text hd) hall

theorem shows_templateSpans {parts : List TemplatePart}
    (hparts : ∀ a b, .hole a b ∈ parts → EndsWindow source b ∧ a ≤ b ∧ b - a < limit) {spans : List (Span TypeExpr)}
    (h : templateSpans rules parts = .ok spans) : ∀ e, .hole e ∈ spans → e.Visible := by
  induction parts generalizing spans with
  | nil =>
    cases h
    exact nofun
  | cons part rest ih =>
    have hrest {spans : List (Span TypeExpr)} (h : templateSpans rules rest = .ok spans) :
        ∀ e, .hole e ∈ spans → e.Visible :=
      ih (fun a b hmem => hparts a b (List.mem_cons_of_mem _ hmem)) h
    cases part with
    | chunk text =>
      obtain ⟨later, hlater, heq⟩ := Except.bind_eq_ok.1 h
      cases heq
      intro e he
      rcases List.mem_cons.1 he with heq | he
      · cases heq
      · exact hrest hlater e he
    | hole a b =>
      obtain ⟨type, htype, h⟩ := Except.bind_eq_ok.1 h
      obtain ⟨later, hlater, heq⟩ := Except.bind_eq_ok.1 h
      cases heq
      obtain ⟨hends, hab, hlt⟩ := hparts a b List.mem_cons_self
      intro e he
      rcases List.mem_cons.1 he with heq | he
      · cases heq
        exact hr.holes hends hab hlt _ htype
      · exact hrest hlater e he

/-- The type is kept as it was read since `c`, or can be seen anyway. -/
def Kept (c : Cursor) (e : TypeExpr) (d : Cursor) : Prop :=
  e.Visible ∨ (∃ reason, e = .verbatim (spell (c.upTo d)) reason) ∨ e = .literal (spell (c.upTo d))

omit hr in
theorem Kept.visible {other : Nat} {e : TypeExpr} {d : Cursor} (h : c.Clear source limit) (he : Kept c e d)
    (hd : Past source other c d) : e.Visible := by
  rcases he with he | ⟨reason, rfl⟩ | rfl
  · exact he
  · exact .verbatim (h.text hd)
  · exact .literal (h.text hd)

omit hr in
theorem answers_verbatim {d : Cursor} {reason : Unmodelled} : Answers (do
    return .verbatim (← textSince c) reason : Parser TypeExpr) d (Kept c) := by
  simp only [answers_textSince_bind]
  exact .pure (.inr (.inl ⟨reason, rfl⟩))

theorem shows_wordType {word : Text} (h : c.Clear source (limit + 1)) (hword : c.peek.isWord = true) :
    Answers (wordType rules word) c fun e _ => e.Visible := by
  have hkept : Answers (wordType rules word) c (Kept c) := by
    simp only [wordType, answers_get_bind]
    refine .ite (fun hboolean => .next fun _ _ => .pure (.inl (.literal ?boolean))) fun _ => .ite (fun _ => ?constructed) fun _ =>
      .ite (fun _ => ?query) fun _ => .ite (fun _ => ?imported) fun _ => .ite (fun hkeyword => ?keyword) fun _ =>
      (shows_reference hr h).mono fun _ _ he => .inl he
    case boolean =>
      rcases hboolean with rfl | rfl <;> decide
    case constructed => exact .next fun _ _ => .next fun _ _ => answers_verbatim
    case query =>
      refine .next fun _ _ => .next fun _ d => ?_
      simp only [answers_get_bind]
      exact .next fun _ _ => answers_verbatim
    case imported =>
      refine .next fun _ _ => .next fun _ _ => .next fun _ d => ?_
      simp only [answers_sees_bind]
      exact .next fun _ _ => answers_verbatim
    case keyword =>
      have hall : ∀ name ∈ keywords, Text.isBlank name = false := by decide
      rw [Bool.and_eq_true, List.contains_iff_mem] at hkeyword
      exact .next fun _ _ => .pure (.inl (.keyword (hall word hkeyword.1)))
  exact (hkept.and (ends_wordType hr.toEnd h.here hword).answers).mono fun _ _ hboth =>
    hboth.1.visible h hboth.2

theorem shows_markType (h : c.Clear source (limit + 1)) (hmark : c.peek.isMark = true) :
    Answers (markType rules c.peek) c fun e _ => e.Visible := by
  have hend : c.peek.isEnd = false := Token.not_isEnd_of_isMark hmark
  -- an object is kept with its text, too, but has members
  have hkept : Answers (markType rules c.peek) c fun e d =>
      Kept c e d ∨ ∃ members, (∀ m ∈ members, m.type.Visible) ∧ e = .object members (spell (c.upTo d)) := by
    simp only [markType, answers_get_bind]
    refine .ite (fun _ => (shows_functionType hr h).mono fun _ _ he => .inl (.inl he)) fun _ =>
      .ite (fun _ => ?parenthesized) fun _ => .ite (fun _ => .ite (fun _ => ?mapped) fun _ => ?object) fun _ =>
      .ite (fun _ => (shows_tuple hr h).mono fun _ _ he => .inl (.inl he)) fun _ => .ite (fun _ => ?negative) fun _ =>
      answers_reject
    case parenthesized =>
      refine (ends_take h.here hend).answers.bind fun _ d hd => (hr.types (h.past hd)).bind fun e _ he =>
        .next fun _ _ => .pure (.inl (.inl he))
    case mapped => exact .next fun _ _ => answers_verbatim.mono fun _ _ => .inl
    case object =>
      refine (shows_members hr h).bind fun found d hfound => ?_
      simp only [answers_textSince_bind]
      exact .pure (.inr ⟨found, hfound, rfl⟩)
    case negative =>
      refine .next fun _ _ => .next fun _ d => ?_
      simp only [answers_textSince_bind]
      exact .pure (.inl (.inr (.inr rfl)))
  refine (hkept.and (ends_markType hr.toEnd h.here hmark).answers).mono ?_
  rintro e d ⟨he | ⟨members, hmembers, rfl⟩, hd⟩
  · exact he.visible h hd
  · exact .object (h.text hd) hmembers

theorem shows_primary (h : c.Clear source (limit + 1)) : Answers (primary rules) c fun e _ => e.Visible := by
  simp only [primary, answers_peek_bind]
  cases hl : c.peek.lexeme with
  | mark => exact shows_markType hr h (beq_iff_eq.2 hl)
  | string value => exact .next fun _ _ => .pure (.literal (isBlank_quote value))
  | number => exact .next fun _ _ => .pure (.literal (h.peek (beq_eq_false_iff_ne.2 (by simp [hl]))))
  | template parts =>
    have hend : c.peek.isEnd = false := beq_eq_false_iff_ne.2 (by simp [hl])
    obtain ⟨hplaced, hroom⟩ := h.first hend
    refine .next fun _ d => ?_
    have hspans : Answers (liftM (templateSpans rules parts) : Parser (List (Span TypeExpr))) d fun spans _ =>
        ∀ e, .hole e ∈ spans → e.Visible := by
      refine answers_lift fun found hread => shows_templateSpans hr (fun a b hhole => ?_) hread
      obtain ⟨hends, hab, hlt⟩ := hplaced.hole parts hl a b hhole
      exact ⟨hends, hab, by omega⟩
    exact hspans.bind fun spans _ hspans => .pure (.template (h.peek hend) hspans)
  | endOfInput => exact answers_reject
  | word => exact shows_wordType hr h (beq_iff_eq.2 hl)

/-! ## Operators -/

theorem shows_postfixed (h : c.Clear source (limit + 1)) : Answers (postfixed rules) c fun e _ => e.Visible := by
  simp only [postfixed, answers_get_bind]
  refine ((shows_primary hr h).and (ends_primary hr.toEnd h.here).answers).bind fun first c₁ hfirst =>
    answers_loop (I := fun e d => e.Visible ∧ Past source (limit + 1) c d) hfirst ?_
  rintro e d ⟨he, hd⟩
  simp only [bracketRound, answers_get_bind]
  refine .ite (fun hopen => ?_) fun _ => .pure he
  have hclear := h.past hd
  refine (ends_next hclear.here).answers.bind fun _ d₁ hd₁ => (ends_accept "]" hd₁.2.1).answers.bind
    fun taken d₂ hd₂ => .ite (fun _ => ?_) fun _ => ?_
  · simp only [answers_textSince_bind]
    have hpast := hd.trans hd₂.on
    exact .pure ⟨.array (h.text hpast) he, hpast⟩
  · refine (answers_types hr (hclear.on hd₂.on)).bind fun _ d₃ hd₃ =>
      (ends_expect "]" ((hclear.on hd₂.on).on hd₃.2.on).here).answers.bind fun _ d₄ hd₄ => ?_
    simp only [answers_textSince_bind]
    have hpast := hd.trans (hd₂.on.trans (hd₃.2.on.trans hd₄.on))
    exact .pure ⟨.verbatim (h.text hpast), hpast⟩

theorem shows_operand (h : c.Clear source (limit + 1)) : Answers (operand rules) c fun e _ => e.Visible := by
  have hkept : Answers (operand rules) c (Kept c) := by
    simp only [operand, answers_get_bind]
    refine .ite (fun hword => ?_) fun _ => .ite (fun _ => ?_) fun _ => (shows_postfixed hr h).mono fun _ _ => .inl
    · simp only [Bool.and_eq_true] at hword
      refine (ends_take h.here (Token.not_isEnd_of_isWord hword.1.1)).answers.bind fun _ d hd =>
        (hr.operands (h.past hd)).bind fun inner _ hinner => ?_
      exact .ite (fun _ => .pure (.inl hinner)) fun _ => answers_verbatim
    · exact .next fun _ _ => .next fun _ _ => .next fun _ _ => answers_verbatim
  exact (hkept.and (ends_operand hr.toEnd h.here).answers).mono fun _ _ hboth =>
    hboth.1.visible h hboth.2

omit hr in
theorem shows_chain {mark : Text} {item : Parser TypeExpr} {build : List TypeExpr → Text → TypeExpr}
    (h : c.Clear source limit)
    (hitem : ∀ c, c.Clear source limit → Answers item c fun e d => e.Visible ∧ Past source limit c d)
    (hends : ∀ c, On source limit c c → Ends source item c fun _ => Past source limit c)
    (hbuild : ∀ types text, types ≠ [] → (∀ e ∈ types, e.Visible) → Text.isBlank text = false →
      (build types text).Visible) :
    Answers (chain mark item build) c fun e _ => e.Visible := by
  refine (ends_accept mark h.here).answers.bind fun _ c₁ h₁ => ?_
  simp only [answers_get_bind]
  have hclear := h.on h₁.on
  refine ((answers_separated hclear hitem mark).and (ends_separated hclear.here hends).answers).bind ?_
  rintro types c₂ ⟨⟨hne, htypes⟩, h₂⟩
  split
  · exact .pure (htypes _ (List.mem_singleton.2 rfl))
  · simp only [answers_textSince_bind]
    exact .pure (hbuild _ _ hne htypes (hclear.text h₂))

theorem shows_union (h : c.Clear source (limit + 1)) : Answers (union rules) c fun e _ => e.Visible := by
  have hmember (c : Cursor) (hc : c.Clear source (limit + 1)) : Answers (intersection rules) c fun e d =>
      e.Visible ∧ Past source (limit + 1) c d := by
    have hends (c : Cursor) (hc : On source (limit + 1) c c) : Ends source (operand rules) c fun _ =>
      Past source (limit + 1) c := ends_operand hr.toEnd hc
    have hshows : Answers (intersection rules) c fun e _ => e.Visible := shows_chain hc
      (fun c hc => (shows_operand hr hc).and (ends_operand hr.toEnd hc.here).answers) hends
      fun _ _ hne hall htext => .intersection htext hne hall
    exact hshows.and (ends_chain hc.here hends).answers
  refine shows_chain h hmember (fun c hc => ?_) fun _ _ hne hall htext => .union htext hne hall
  exact ends_chain hc fun d hd => ends_operand hr.toEnd hd

theorem shows_type (h : c.Clear source (limit + 1)) : Answers (TypeGrammar.type rules) c fun e _ => e.Visible := by
  have hkept : Answers (TypeGrammar.type rules) c (Kept c) := by
    simp only [TypeGrammar.type, answers_get_bind]
    refine (shows_union hr h).bind fun found _ hfound => .next fun taken _ => .ite (fun _ => ?_) fun _ =>
      .pure (.inl hfound)
    exact .next fun _ _ => .next fun _ _ => .next fun _ _ => .next fun _ _ => .next fun _ _ => answers_verbatim
  exact (hkept.and (ends_type hr.toEnd h.here).answers).mono fun _ _ hboth =>
    hboth.1.visible h hboth.2

end

end TypeGrammar

/-- However deep types may be nested, the rules answer with such types. -/
theorem Rules.show_upTo (source : Text) (limit : Nat) : (Rules.upTo source limit).Show source limit := by
  induction limit with
  | zero =>
    refine ⟨Rules.end_upTo source 0, fun h => ?_, fun h => ?_, fun _ _ hlt => absurd hlt (Nat.not_lt_zero _)⟩
    · exact absurd h.room (Nat.not_lt_zero _)
    · exact absurd h.room (Nat.not_lt_zero _)
  | succ limit ih =>
    refine ⟨Rules.end_upTo source (limit + 1), TypeGrammar.shows_type ih, TypeGrammar.shows_operand ih, ?_⟩
    intro a b hends hab hlt e he
    obtain ⟨tokens, htokens, he⟩ := Except.bind_eq_ok.1 he
    obtain ⟨⟨found, after⟩, honly, heq⟩ := Except.bind_eq_ok.1 he
    cases heq
    exact TypeGrammar.shows_type ih (clear_ofTokens hends hab htokens hlt) _ after (TypeGrammar.only_ok honly)

end WireSchema
