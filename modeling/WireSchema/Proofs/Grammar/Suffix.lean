import WireSchema.Proofs.Grammar.Within
/-!
# What stands behind a type

Array brackets and bars that come behind the text of a type are about the whole
of it if its last operand is no function type, no constructor type and no type
behind an operator word: these take in whatever comes next.
-/

namespace WireSchema

open Source Source.Cursor Source.Parser

/-- A type of this sort ends with a type, which may take in what comes behind. -/
def Unmodelled.isLoose : Unmodelled → Bool
  | function => true
  | constructor => true
  | typePredicate => true
  | conditional => true
  | infer => true
  | indexedAccess => false
  | mapped => false
  | typeQuery => false
  | importType => false
  | operator _ => true

namespace TypeExpr

/-- What comes behind the type may get into it. -/
def isLoose : TypeExpr → Bool
  | verbatim _ reason => reason.isLoose
  | _ => false

/-- Array brackets behind the text of the type are about the whole type. -/
def isTight : TypeExpr → Bool
  | union .. => false
  | intersection .. => false
  | e => !e.isLoose

/-- A bar behind the text of the type is behind the whole type. -/
def isClosed : TypeExpr → Bool
  | intersection members _ => members.all (!·.isLoose)
  | e => !e.isLoose

variable {e : TypeExpr}

theorem isLoose_of_isTight (h : e.isTight = true) : e.isLoose = false := by
  cases e <;> first | rfl | exact Bool.eq_false_of_not_eq_true' h

theorem isLoose_of_isClosed (h : e.isClosed = true) : e.isLoose = false := by
  cases e <;> first | rfl | exact Bool.eq_false_of_not_eq_true' h

end TypeExpr

namespace Source.Parser

section
variable {α : Type} {o : Place} {c d : Cursor} {p q : Parser α} {Q : α → Prop} {mark : Text} {n : Nat} {items as : List α}

/-- In the longer source `q` answers as `p` does, if the answer is as `Q` says. -/
def RepeatsFor (Q : α → Prop) (o : Place) (p q : Parser α) (c : Cursor) : Prop :=
  ∀ a d, p c = .ok (a, d) → Q a → c.Reaches d ∧ q (o.put c) = .ok (a, o.put d)

theorem accept_put {taken : Bool} (hlast : c.last.isEnd = true) (hmark : o.next.sees mark = false)
    (h : accept mark c = .ok (taken, d)) : c.Reaches d ∧ accept mark (o.put c) = .ok (taken, o.put d) := by
  have hsame : Repeats o false (accept mark) (accept mark) c := repeats_accept_near hlast (.inr hmark)
  exact ⟨(hsame taken d h).1, (hsame taken d h).2 nofun⟩

/-- The items that have come so far are kept. -/
theorem rounds_separated (h : rounds (separatedRound mark p) n items c = .ok (as, d)) :
    ∃ more, as = items.reverse ++ more ∧ (more = [] → d = c) := by
  induction n generalizing items c with
  | zero => cases h
  | succ n ih =>
    obtain ⟨turn, e, hturn, hrest⟩ := bind_ok.1 h
    obtain ⟨taken, e', htaken, hturn⟩ := bind_ok.1 hturn
    cases taken with
    | true =>
      obtain ⟨item, e'', _, hturn⟩ := bind_ok.1 hturn
      cases hturn
      obtain ⟨more, rfl, _⟩ := ih hrest
      exact ⟨item :: more, by simp, nofun⟩
    | false =>
      cases hturn
      cases hrest
      exact ⟨[], by simp, fun _ => (accept_false htaken).1⟩

/-- One item stands alone. -/
theorem separated_single {a : α} (h : separated mark p c = .ok ([a], d)) : p c = .ok (a, d) := by
  obtain ⟨first, e, hfirst, hloop⟩ := bind_ok.1 h
  obtain ⟨more, heq, hstay⟩ := rounds_separated hloop
  obtain ⟨rfl, rfl⟩ := List.cons.inj heq
  rwa [hstay rfl]

theorem separated_repeatsFor (hlast : c.last.isEnd = true) (hmark : o.next.sees mark = false)
    (hitem : ∀ e, c.Reaches e → RepeatsFor Q o p q e) :
    RepeatsFor (fun as => ∀ a ∈ as, Q a) o (separated mark p) (separated mark q) c := by
  intro as d h hall
  obtain ⟨first, e, hfirst, hloop⟩ := bind_ok.1 h
  obtain ⟨more, heq, _⟩ := rounds_separated hloop
  obtain ⟨hreach, hsame⟩ := hitem c (.refl c) first e hfirst (hall first (by simp [heq]))
  -- by induction on the rounds; the mark does not stand behind the cut, so both lists end at once
  have hrounds {n m : Nat} {items : List α} {f : Cursor} (hf : c.Reaches f) (hle : n ≤ m)
      (h : rounds (separatedRound mark p) n items f = .ok (as, d)) :
      f.Reaches d ∧ rounds (separatedRound mark q) m items (o.put f) = .ok (as, o.put d) := by
    induction n generalizing m items f with
    | zero => cases h
    | succ n ih =>
      obtain ⟨m, rfl⟩ : ∃ k, m = k + 1 := ⟨m - 1, by omega⟩
      have hend : f.last.isEnd = true := by
        obtain ⟨ts, rfl⟩ := hf
        exact hlast
      obtain ⟨turn, g, hturn, hrest⟩ := bind_ok.1 h
      obtain ⟨taken, g', htaken, hturn⟩ := bind_ok.1 hturn
      obtain ⟨hg', haccept⟩ := accept_put hend hmark htaken
      cases taken with
      | true =>
        obtain ⟨item, g'', hg, hturn⟩ := bind_ok.1 hturn
        cases hturn
        obtain ⟨more, heq, _⟩ := rounds_separated hrest
        obtain ⟨hg'', hitem⟩ := hitem g' (hf.trans hg') item g hg (hall item (by simp [heq]))
        obtain ⟨hd, hbehind⟩ := ih (hf.trans (hg'.trans hg'')) (Nat.le_of_succ_le_succ hle) hrest
        refine ⟨hg'.trans (hg''.trans hd), ?_⟩
        rw [rounds_again (bind_ok.2 ⟨_, _, haccept, bind_ok.2 ⟨_, _, hitem, rfl⟩⟩)]
        exact hbehind
      | false =>
        cases hturn
        cases hrest
        exact ⟨hg', rounds_done (bind_ok.2 ⟨_, _, haccept, rfl⟩) (Nat.succ_pos m)⟩
  obtain ⟨hd, hbehind⟩ := hrounds hreach (m := (o.put e).rest.length + 1) (by simp [Place.put]) hloop
  exact ⟨hreach.trans hd, bind_ok.2 ⟨_, _, hsame, hbehind⟩⟩

end

end Source.Parser

namespace TypeGrammar

section
variable {source : Text} {k n : Nat} {rules rules' : Rules} {o : Place} {after start c d : Cursor} {e f : TypeExpr}

/-! ## What takes in what comes behind -/

theorem functionType_ok (h : functionType rules c = .ok (e, d)) : ∃ text, e = .verbatim text .function := by
  obtain ⟨_, _, _, h⟩ := bind_ok.1 h
  obtain ⟨_, _, _, h⟩ := bind_ok.1 h
  obtain ⟨_, _, _, h⟩ := bind_ok.1 h
  obtain ⟨_, _, _, h⟩ := bind_ok.1 h
  obtain ⟨_, _, _, h⟩ := bind_ok.1 h
  obtain ⟨_, _, _, h⟩ := bind_ok.1 h
  obtain ⟨_, _, _, h⟩ := bind_ok.1 h
  obtain ⟨_, _, _, h⟩ := bind_ok.1 h
  obtain ⟨text, _, _, h⟩ := bind_ok.1 h
  cases h
  exact ⟨text, rfl⟩

/-- A chain is one item, with the mark before it or not, or it is built of items. -/
theorem chain_ok {mark : Text} {item : Parser TypeExpr} {build : List TypeExpr → Text → TypeExpr}
    (h : chain mark item build c = .ok (e, d)) :
    (∃ taken c', accept mark c = .ok (taken, c') ∧ item c' = .ok (e, d)) ∨ ∃ types text, e = build types text := by
  obtain ⟨taken, c', htaken, h⟩ := bind_ok.1 h
  obtain ⟨_, _, hget, h⟩ := bind_ok.1 h
  cases hget
  obtain ⟨types, c'', htypes, h⟩ := bind_ok.1 h
  split at h
  · cases h
    exact .inl ⟨taken, c', htaken, separated_single htypes⟩
  · obtain ⟨text, _, _, h⟩ := bind_ok.1 h
    cases h
    exact .inr ⟨types, text, rfl⟩

theorem type_ok (h : TypeGrammar.type rules c = .ok (e, d)) :
    union rules c = .ok (e, d) ∨ ∃ text, e = .verbatim text .conditional := by
  obtain ⟨_, _, hget, h⟩ := bind_ok.1 h
  cases hget
  obtain ⟨found, c', hfound, h⟩ := bind_ok.1 h
  obtain ⟨taken, c'', htaken, h⟩ := bind_ok.1 h
  cases taken with
  | true =>
    obtain ⟨_, _, _, h⟩ := bind_ok.1 h
    obtain ⟨_, _, _, h⟩ := bind_ok.1 h
    obtain ⟨_, _, _, h⟩ := bind_ok.1 h
    obtain ⟨_, _, _, h⟩ := bind_ok.1 h
    obtain ⟨_, _, _, h⟩ := bind_ok.1 h
    obtain ⟨text, _, _, h⟩ := bind_ok.1 h
    cases h
    exact .inr ⟨text, rfl⟩
  | false =>
    cases h
    obtain ⟨rfl, _⟩ := accept_false htaken
    exact .inl hfound

/-- Where an arrow is in reach, the type runs up to what comes behind. -/
theorem isLoose_of_beginsArrow (h : primary rules c = .ok (e, d)) (harrow : beginsArrow c = true) :
    e.isLoose = true := by
  rw [beginsArrow, Bool.or_eq_true, Bool.and_eq_true, Bool.and_eq_true] at harrow
  obtain ⟨token, _, htoken, h⟩ := bind_ok.1 h
  cases htoken
  rcases harrow with ⟨hmark, hbegins⟩ | ⟨hword, hnew⟩
  · rw [beq_iff_eq.1 hmark] at h
    obtain ⟨_, _, hget, h⟩ := bind_ok.1 h
    cases hget
    rw [if_pos hbegins] at h
    obtain ⟨text, rfl⟩ := functionType_ok h
    rfl
  · rw [beq_iff_eq.1 hword] at h
    obtain ⟨_, _, hget, h⟩ := bind_ok.1 h
    cases hget
    have hconstructor : c.peek.raw = "new" ∨ c.peek.raw = "abstract" ∧ c.sees "new" 1 = true := by simpa using hnew
    have hliteral : ¬ (c.peek.raw = "true" ∨ c.peek.raw = "false") := by
      rcases hconstructor with hraw | ⟨hraw, _⟩ <;> rw [hraw] <;> decide
    rw [if_neg hliteral, if_pos hconstructor] at h
    obtain ⟨_, _, _, h⟩ := bind_ok.1 h
    obtain ⟨_, _, _, h⟩ := bind_ok.1 h
    obtain ⟨text, _, _, h⟩ := bind_ok.1 h
    cases h
    rfl

/-! ## Brackets behind a type -/

/-- The brackets that come next at the place make of a type `e` something that
is as `P e` says, and stop at the cursor `after`. -/
structure Suffix (o : Place) (after : Cursor) (P : TypeExpr → TypeExpr → Prop) : Prop where
  rest : o.next.rest ≠ []
  brackets (rules : Rules) (start : Cursor) (e : TypeExpr) {n : Nat} : 1 < n →
    ∃ f, P e f ∧ rounds (bracketRound rules start) n e o.next = .ok (f, after)
  sequence {e f : TypeExpr} : P e f → isSequence e = true → isSequence f = true

/-- Types as `Q` says that end with the source are carried on by what comes next at the place. -/
def Carries (source : Text) (Q : TypeExpr → Prop) (o : Place) (after : Cursor) (P : TypeExpr → TypeExpr → Prop)
    (p q : Parser TypeExpr) : Prop :=
  ∀ c d e, Seam source o true c → p c = .ok (e, d) → d.rest = [] → Q e → ∃ f, P e f ∧ q (o.put c) = .ok (f, after)

variable {P : TypeExpr → TypeExpr → Prop}

theorem bracketRound_done (h : bracketRound rules start e c = .ok (.done f, d)) : f = e ∧ d = c := by
  obtain ⟨_, _, hget, h⟩ := bind_ok.1 h
  cases hget
  split at h
  · obtain ⟨_, _, _, h⟩ := bind_ok.1 h
    obtain ⟨taken, _, _, h⟩ := bind_ok.1 h
    split at h
    · obtain ⟨_, _, _, h⟩ := bind_ok.1 h
      cases h
    · obtain ⟨_, _, _, h⟩ := bind_ok.1 h
      obtain ⟨_, _, _, h⟩ := bind_ok.1 h
      obtain ⟨_, _, _, h⟩ := bind_ok.1 h
      cases h
  · cases h
    exact ⟨rfl, rfl⟩

/-- Where no brackets come next, the type ends. -/
theorem suffix_none (hrest : o.next.rest ≠ []) (h : o.next.sees "[" = false) : Suffix o o.next fun e f => f = e where
  rest := hrest
  brackets rules start e n hn := by
    have hround : bracketRound rules start e o.next = .ok (.done e, o.next) := by simp [bracketRound, h]
    exact ⟨e, rfl, rounds_done hround (Nat.lt_of_succ_lt hn)⟩
  sequence := by
    rintro e _ rfl h
    exact h

/-- Two brackets on the same line make an array. -/
theorem suffix_array {opener closer : Token} (hnext : o.next = after.before [opener, closer]) (hopen : opener.Marks "[")
    (hline : opener.lineBreak = false) (hclose : closer.Marks "]") (hafter : after.sees "[" = false) :
    Suffix o after fun e f => ∃ text, f = .array e text where
  rest := by rw [hnext]; nofun
  brackets rules start e n hn := by
    obtain ⟨n, rfl⟩ : ∃ m, n = m + 1 := ⟨n - 1, by omega⟩
    have hround : bracketRound rules start e o.next = .ok (.again (.array e (spell (start.upTo after))), after) := by
      rw [hnext]
      simp [bracketRound, hopen.is_eq, hline, accept_before (hclose.is_eq "]")]
    have hlast (f : TypeExpr) : bracketRound rules start f after = .ok (.done f, after) := by simp [bracketRound, hafter]
    rw [rounds_again hround]
    exact ⟨_, ⟨_, rfl⟩, rounds_done (hlast _) (Nat.lt_of_succ_lt_succ hn)⟩
  sequence := by
    rintro e _ ⟨text, rfl⟩ _
    rfl

variable (hr : rules.Repeat source k rules') (hk : o.shift = k)
include hr hk

/-- Brackets that end with the source are read, and then those that come next. -/
theorem rounds_brackets (h : Seam source o true c) (hstart : start.Reaches c)
    (hrounds : rounds (bracketRound rules start) n e c = .ok (f, d)) (hd : d.rest = []) :
    ∃ m, 1 < m ∧ rounds (bracketRound rules' (o.put start)) (n + 1) e (o.put c) =
      rounds (bracketRound rules' (o.put start)) m f o.next := by
  induction n generalizing c e with
  | zero => cases hrounds
  | succ n ih =>
    obtain ⟨turn, c', hturn, hrest⟩ := bind_ok.1 hrounds
    cases turn with
    | again e' =>
      have hne : c.rest ≠ [] := fun hnil => by
        obtain ⟨_, _, hget, hturn⟩ := bind_ok.1 hturn
        cases hget
        rw [not_sees_end h.last (by simp [hnil])] at hturn
        cases hturn
      have hround : Repeats o false (bracketRound rules start e) (bracketRound rules' (o.put start) e) c :=
        repeats_bracketRound hr hk h hstart e (absurd · hne)
      obtain ⟨hreach, hsame⟩ := hround _ _ hturn
      rw [rounds_again (hsame nofun)]
      exact ih (h.reaches hreach) (hstart.trans hreach) hrest
    | done e' =>
      obtain ⟨rfl, rfl⟩ := bracketRound_done hturn
      cases hrest
      exact ⟨n + 1 + 1, by omega, by rw [o.put_of_nil hd]⟩

theorem carries_postfixed (hs : Suffix o after P) :
    Carries source (·.isLoose = false) o after P (postfixed rules) (postfixed rules') := by
  intro c d e h hp hd hloose
  obtain ⟨_, _, hget, hp⟩ := bind_ok.1 hp
  cases hget
  obtain ⟨first, c₁, hfirst, hloop⟩ := bind_ok.1 hp
  have hstops : Repeats o true (primary rules) (primary rules') c :=
    repeats_primary hr hk h fun _ hd _ => repeats_functionType hr hk (h.reaches hd) fun _ => h.reaches hd
  obtain ⟨hreach, hbefore⟩ := hstops first c₁ hfirst
  have hsame : primary rules' (o.put c) = .ok (first, o.put c₁) := by
    by_cases hne : c₁.rest = []
    · -- no brackets come here, so the primary type is not loose
      have hround : bracketRound rules c first c₁ = .ok (.done first, c₁) := by
        simp [bracketRound, not_sees_end (h.reaches hreach).last, hne]
      rw [loop_done hround] at hloop
      cases hloop
      have harrow : beginsArrow c = false := Bool.eq_false_iff.2 fun harrow => by
        rw [isLoose_of_beginsArrow hfirst harrow] at hloose
        cases hloose
      have hwhole : Repeats o false (primary rules) (primary rules') c :=
        repeats_primary hr hk h fun _ _ hyes => absurd (harrow.symm.trans hyes) Bool.false_ne_true
      exact (hwhole _ _ hfirst).2 (absurd · Bool.false_ne_true)
    · exact hbefore fun _ => hne
  obtain ⟨m, hm, hrounds⟩ := rounds_brackets hr hk (h.reaches hreach) hreach hloop hd
  obtain ⟨f, hf, hbrackets⟩ := hs.brackets rules' (o.put c) e hm
  refine ⟨f, hf, bind_ok.2 ⟨_, _, rfl, bind_ok.2 ⟨_, _, hsame, ?_⟩⟩⟩
  refine rounds_of_le ?_ (hrounds.trans hbrackets)
  have hlength := List.length_pos_iff.2 hs.rest
  simp only [Place.put, rest_before, List.length_append, List.length_map]
  omega

theorem carries_operand (hs : Suffix o after P)
    (hoperand : Carries source (·.isLoose = false) o after P rules.operand rules'.operand) :
    Carries source (·.isLoose = false) o after P (operand rules) (operand rules') := by
  intro c d e h hp hd hloose
  by_cases hne : c.rest = []
  · exact absurd hp (refuses_operand h.last hne _)
  obtain ⟨_, _, hget, hp⟩ := bind_ok.1 hp
  cases hget
  have hpeek : (o.put c).peek = c.peek.later o.shift := peek_put o (List.length_pos_iff.2 hne)
  simp only [operand, bind_apply, get_apply, ok_bind, hpeek, Token.isWord_later, Token.raw_later, operator_put h hne,
    infer_put h hne]
  by_cases hoperator : (c.peek.isWord && operatorWords.contains c.peek.raw && beginsOperand (c.peek 1)) = true
  · -- only `readonly` before an array or a tuple makes a type that is not loose
    rw [if_pos hoperator] at hp
    obtain ⟨t, c₁, rfl⟩ := exists_first hne
    obtain ⟨_, _, hnext, hp⟩ := bind_ok.1 hp
    cases hnext
    obtain ⟨inner, c₂, hinner, hp⟩ := bind_ok.1 hp
    by_cases hsequence : ((c₁.before [t]).peek.raw == "readonly" && isSequence inner) = true
    · rw [if_pos hsequence] at hp
      cases hp
      obtain ⟨f, hf, hsame⟩ := hoperand _ _ _ (h.reaches ⟨[t], rfl⟩) hinner hd hloose
      rw [Bool.and_eq_true] at hsequence
      refine ⟨f, hf, ?_⟩
      rw [if_pos hoperator, put_before, bind_apply, next_before, ok_bind, Cursor.before_nil]
      refine bind_ok.2 ⟨_, _, hsame, ?_⟩
      rw [if_pos (by rw [hsequence.1, hs.sequence hf hsequence.2]; rfl)]
      rfl
    · rw [if_neg hsequence] at hp
      obtain ⟨_, _, _, hp⟩ := bind_ok.1 hp
      cases hp
      cases hloose
  · rw [if_neg hoperator] at hp ⊢
    by_cases hinfer : (c.sees "infer" && (c.peek 1).isWord) = true
    · rw [if_pos hinfer] at hp
      obtain ⟨_, _, _, hp⟩ := bind_ok.1 hp
      obtain ⟨_, _, _, hp⟩ := bind_ok.1 hp
      obtain ⟨_, _, _, hp⟩ := bind_ok.1 hp
      obtain ⟨_, _, _, hp⟩ := bind_ok.1 hp
      cases hp
      cases hloose
    · rw [if_neg hinfer] at hp ⊢
      exact carries_postfixed hr hk hs _ _ _ h hp hd hloose

omit hr hk in
theorem Carries.chain {Q : TypeExpr → Prop} {mark : Text} {item item' : Parser TypeExpr}
    {build : List TypeExpr → Text → TypeExpr} (hitem : Carries source Q o after P item item')
    (hmark : o.next.sees mark = false) (hafter : after.sees mark = false) (hbuild : ∀ types text, ¬ Q (build types text)) :
    Carries source Q o after P (chain mark item build) (chain mark item' build) := by
  intro c d e h hp hd hq
  rcases chain_ok hp with ⟨taken, c₁, htaken, hone⟩ | ⟨types, text, rfl⟩
  · obtain ⟨hreach, haccept⟩ := accept_put h.last hmark htaken
    obtain ⟨f, hf, hsame⟩ := hitem _ _ _ (h.reaches hreach) hone hd hq
    have hround : separatedRound mark item' [f] after = .ok (.done [f], after) :=
      bind_ok.2 ⟨_, _, accept_of_not_sees hafter, rfl⟩
    exact ⟨f, hf, bind_ok.2 ⟨_, _, haccept, bind_ok.2 ⟨_, _, rfl,
      bind_ok.2 ⟨_, _, bind_ok.2 ⟨_, _, hsame, loop_done hround⟩, rfl⟩⟩⟩⟩
  · exact absurd hq (hbuild types text)

/-- A type that is tight is carried on if it is no list of operands. -/
theorem carries_type (hs : Suffix o after P)
    (hoperand : Carries source (·.isLoose = false) o after P rules.operand rules'.operand)
    (hnext : ∀ w ∈ (["&", "|"] : List Text), o.next.sees w = false)
    (hafter : ∀ w ∈ (["&", "|", "extends"] : List Text), after.sees w = false) :
    Carries source (·.isTight = true) o after P (TypeGrammar.type rules) (TypeGrammar.type rules') := by
  intro c d e h hp hd htight
  have hcarries : Carries source (·.isTight = true) o after P (operand rules) (operand rules') :=
    fun _ _ _ h hp hd htight => carries_operand hr hk hs hoperand _ _ _ h hp hd (TypeExpr.isLoose_of_isTight htight)
  have hintersection : Carries source (·.isTight = true) o after P (intersection rules) (intersection rules') :=
    hcarries.chain (hnext _ (by decide)) (hafter _ (by decide)) nofun
  have hunion : Carries source (·.isTight = true) o after P (union rules) (union rules') :=
    hintersection.chain (hnext _ (by decide)) (hafter _ (by decide)) nofun
  rcases type_ok hp with hfound | ⟨text, rfl⟩
  · obtain ⟨f, hf, hsame⟩ := hunion _ _ _ h hfound hd htight
    refine ⟨f, hf, bind_ok.2 ⟨_, _, rfl, bind_ok.2 ⟨_, _, hsame, ?_⟩⟩⟩
    exact bind_ok.2 ⟨_, _, accept_of_not_sees (hafter _ (by decide)), rfl⟩
  · cases htight

/-! ## Operands before a bar -/

/-- An operand that is not loose is read alike before what is no bracket. -/
theorem operand_repeatsFor (h : Seam source o true c) (hs : Suffix o o.next fun e f => f = e)
    (hoperand : Carries source (·.isLoose = false) o o.next (fun e f => f = e) rules.operand rules'.operand) :
    RepeatsFor (·.isLoose = false) o (operand rules) (operand rules') c := by
  intro e d hp hloose
  obtain ⟨hreach, hsame⟩ := repeats_operand_seam hr hk h e d hp
  refine ⟨hreach, ?_⟩
  by_cases hd : d.rest = []
  · obtain ⟨f, rfl, hcarries⟩ := carries_operand hr hk hs hoperand _ _ _ h hp hd hloose
    rw [o.put_of_nil hd]
    exact hcarries
  · exact hsame fun _ => hd

/-- Operands that are not loose are read alike before a bar. -/
theorem intersection_repeatsFor (h : Seam source o true c) (hs : Suffix o o.next fun e f => f = e)
    (hoperand : Carries source (·.isLoose = false) o o.next (fun e f => f = e) rules.operand rules'.operand)
    (hnext : o.next.sees "&" = false) :
    RepeatsFor (·.isClosed = true) o (intersection rules) (intersection rules') c := by
  intro e d hp hclosed
  obtain ⟨taken, c₁, htaken, hp⟩ := bind_ok.1 hp
  obtain ⟨hreach, haccept⟩ := accept_put h.last hnext htaken
  obtain ⟨_, _, hget, hp⟩ := bind_ok.1 hp
  cases hget
  obtain ⟨types, c₂, htypes, hp⟩ := bind_ok.1 hp
  have hall : ∀ type ∈ types, type.isLoose = false := by
    split at hp
    · cases hp
      simpa using TypeExpr.isLoose_of_isClosed hclosed
    · obtain ⟨_, _, _, hp⟩ := bind_ok.1 hp
      cases hp
      simpa [TypeExpr.isClosed] using hclosed
  obtain ⟨hreach', hsame⟩ := separated_repeatsFor (Q := (·.isLoose = false)) (h.reaches hreach).last hnext
    (fun _ hc => operand_repeatsFor hr hk (h.reaches (hreach.trans hc)) hs hoperand) types c₂ htypes hall
  split at hp
  · cases hp
    exact ⟨hreach.trans hreach', bind_ok.2 ⟨_, _, haccept, bind_ok.2 ⟨_, _, rfl, bind_ok.2 ⟨_, _, hsame, rfl⟩⟩⟩⟩
  next hmany =>
    have htext : Repeats o false (do return TypeExpr.intersection types (← textSince c₁))
        (do return TypeExpr.intersection types (← textSince (o.put c₁))) c₂ := repeats_textSince_bind hreach' .pure
    obtain ⟨hstay, htext⟩ := htext e d hp
    refine ⟨hreach.trans (hreach'.trans hstay), bind_ok.2 ⟨_, _, haccept, bind_ok.2 ⟨_, _, rfl,
      bind_ok.2 ⟨_, _, hsame, ?_⟩⟩⟩⟩
    split
    · exact (hmany _ rfl).elim
    · exact htext nofun

end

end TypeGrammar

/-! ## Types nested in each other -/

section
variable {source before behind : Text} {o : Place} {after c d : Cursor} {P : TypeExpr → TypeExpr → Prop} {e : TypeExpr}
  {n m : Nat}

theorem Rules.carries_upTo (hs : TypeGrammar.Suffix o after P) (hk : o.shift = before.length) (hbehind : Parted behind)
    (hle : n ≤ m) : TypeGrammar.Carries source (·.isLoose = false) o after P (Rules.upTo source n).operand
      (Rules.upTo (before ++ (source ++ behind)) m).operand := by
  induction n generalizing m with
  | zero => exact fun c _ _ _ hp => absurd hp (refuses_fail _ c _)
  | succ n ih =>
    obtain ⟨m, rfl⟩ : ∃ j, m = j + 1 := ⟨m - 1, by omega⟩
    have hle := Nat.le_of_succ_le_succ hle
    exact TypeGrammar.carries_operand (Rules.repeat_upTo source before behind hbehind hle) hk hs (ih hle)

/-- Operands without arrows are read alike before what is no bracket. -/
theorem Rules.operand_arrowless (hk : o.shift = before.length) (hbehind : Parted behind) (hle : n ≤ m)
    (hnext : o.next.sees "[" = false) (h : Seam source o true c) (harrowless : ∀ t ∈ c.rest, t.is "=>" = false) :
    Repeats o false (Rules.upTo source n).operand (Rules.upTo (before ++ (source ++ behind)) m).operand c := by
  induction n generalizing m c with
  | zero => exact (refuses_fail _ _).repeats
  | succ n ih =>
    obtain ⟨m, rfl⟩ : ∃ j, m = j + 1 := ⟨m - 1, by omega⟩
    have hle := Nat.le_of_succ_le_succ hle
    have hr := Rules.repeat_upTo source before behind hbehind hle
    have hfree {d : Cursor} (hd : c.Reaches d) : ∀ t ∈ d.rest, t.is "=>" = false := by
      obtain ⟨front, rfl⟩ := hd
      exact fun t ht => harrowless t (List.mem_append_right front ht)
    refine TypeGrammar.repeats_operand hr hk h (.inr fun hsees => absurd (hnext.symm.trans hsees) nofun) (fun d hd _ => ?_)
      fun d hd => ih hle (h.reaches hd) (hfree hd)
    refine TypeGrammar.repeats_functionType hr hk (h.reaches hd) fun ⟨t, ht, harrow⟩ => ?_
    rw [hfree hd t ht] at harrow
    cases harrow

/-- Operands with `&` between them are read alike before a bar, if none of them
is loose or there is no arrow. -/
theorem Rules.intersection_before (hk : o.shift = before.length) (hbehind : Parted behind) (hle : n ≤ m)
    (hrest : o.next.rest ≠ []) (hbracket : o.next.sees "[" = false) (hand : o.next.sees "&" = false)
    (h : Seam source o true c) (hp : TypeGrammar.intersection (Rules.upTo source n) c = .ok (e, d))
    (hmember : e.isClosed = true ∨ ∀ t ∈ c.rest, t.is "=>" = false) :
    TypeGrammar.intersection (Rules.upTo (before ++ (source ++ behind)) m) (o.put c) = .ok (e, o.put d) := by
  rcases hmember with hclosed | harrowless
  · have hs := TypeGrammar.suffix_none hrest hbracket
    exact (TypeGrammar.intersection_repeatsFor (Rules.repeat_upTo source before behind hbehind hle) hk h hs
      (Rules.carries_upTo hs hk hbehind hle) hand e d hp hclosed).2
  · have hsame : Repeats o false (TypeGrammar.intersection (Rules.upTo source n))
        (TypeGrammar.intersection (Rules.upTo (before ++ (source ++ behind)) m)) c := by
      refine TypeGrammar.repeats_chain h.last (.inr hand) fun d hd => ?_
      refine Rules.operand_arrowless hk hbehind (Nat.succ_le_succ hle) hbracket (h.reaches hd) fun t ht => ?_
      obtain ⟨front, rfl⟩ := hd
      exact harrowless t (List.mem_append_right front ht)
    exact (hsame e d hp).2 nofun

end

end WireSchema
