import Mathlib.Data.List.Chain
import WireSchema.Proofs.Grammar.Members
/-!
# Members on lines of their own

The members between two braces are told apart by semicolons. They are told apart
by line breaks as well, unless the first words of a member go on with the member
before it.
-/

namespace WireSchema

open Source Source.Cursor Source.Parser

/-- A member of an interface or an object type on lines of its own. Behind a line
break its text is read as one member up to the last token; a member with a name
has an annotation. -/
structure MemberLine where
  text : Text
  tokens : List Token
  last : Token
  property : Option (Property TypeExpr)
  lexed : tokenize ("\n" ++ text) 0 ("\n" ++ text).length = .ok (tokens ++ [last])
  tight : last.spaceBefore = false
  read : TypeGrammar.member (Rules.of ("\n" ++ text)) ⟨tokens, last⟩ = .ok (property, ⟨[], last⟩)
  annotated : property.isSome = true → ∃ t ∈ tokens, t.Marks ":"
  nested : Nested tokens
  /-- It is no member of a mapped type. -/
  unmapped : ∀ brace, TypeGrammar.beginsMapped ⟨brace :: tokens, last⟩ = false

namespace MemberLine

variable {m m' : MemberLine} {t : Token} {w : Text} {k : Nat}

/-- The member with the line break before it. -/
def line (m : MemberLine) : Text := "\n" ++ m.text

def cursor (m : MemberLine) : Cursor := ⟨m.tokens, m.last⟩

def first (m : MemberLine) : Token := m.cursor.peek

/-- The line break between two members keeps them apart. A signature is passed
over with everything behind it; a type goes on with `extends`, the result of a
function with `is`, an import type with `<`, and some words with what is behind. -/
structure Apart (m m' : MemberLine) : Prop where
  signature : m.property = none → m'.property = none
  extended : m'.first.is "extends" = false
  predicate : m'.first.is "is" = true → (∀ t ∈ m.tokens, t.is "=>" = false) ∧
    ∀ p ∈ m.property, ∀ text, p.type ≠ .verbatim text .function
  arguments : m'.first.is "<" = true → ∀ t ∈ m.tokens, t.is "import" = false
  joined : ∀ t ∈ m.tokens.getLast?, t.joins m'.first = false

/-! ## A member read alone -/

theorem accounts (m : MemberLine) : Accounts m.line m.line.length 0 (m.tokens ++ [m.last]) :=
  tokenize_accounts (.inl rfl) m.lexed

theorem last_isEnd (m : MemberLine) : m.last.isEnd = true := by
  obtain ⟨ts, last, heq, _, hlast⟩ := tokenize_lexed m.lexed
  obtain ⟨_, hsame⟩ := List.append_inj' heq rfl
  cases hsame
  exact hlast

theorem token_lexed (m : MemberLine) (ht : t ∈ m.tokens) : t.Lexed := by
  obtain ⟨ts, last, heq, hts, _⟩ := tokenize_lexed m.lexed
  obtain ⟨rfl, _⟩ := List.append_inj' heq rfl
  exact hts t ht

theorem token_placed (m : MemberLine) (ht : t ∈ m.tokens) : t.Placed m.line := by
  obtain ⟨ts, last, heq, hts, _⟩ := tokensFrom_placed (Nat.le_refl _) rfl m.lexed
  obtain ⟨rfl, _⟩ := List.append_inj' heq rfl
  exact hts t ht

theorem exists_tokens (m : MemberLine) : ∃ ts, m.tokens = m.first :: ts := by
  cases htokens : m.tokens with
  | nil => exact absurd m.read (TypeGrammar.refuses_member m.last_isEnd htokens _)
  | cons t ts => exact ⟨ts, by rw [first, cursor, htokens]; rfl⟩

theorem first_mem (m : MemberLine) : m.first ∈ m.tokens := by
  obtain ⟨ts, hts⟩ := m.exists_tokens
  rw [hts]
  exact List.mem_cons_self

/-- A member begins with a name, a literal or an opening bracket. -/
theorem first_is (m : MemberLine) (hname : Text.isName w = false) (hw : w ∉ (["[", "(", "<"] : List Text)) :
    m.first.is w = false := by
  obtain ⟨ts, hts⟩ := m.exists_tokens
  have hread := m.read
  have hcursor : (⟨m.tokens, m.last⟩ : Cursor) = Cursor.before ⟨[], m.last⟩ (m.first :: ts) := by
    rw [Cursor.before, List.append_nil, hts]
  rw [hcursor] at hread
  exact TypeGrammar.member_first hread (m.token_lexed m.first_mem) hname hw

/-- A member begins on a line of its own. -/
theorem first_onNewLine (m : MemberLine) : m.first.spaceBefore = true ∧ m.first.lineBreak = true := by
  obtain ⟨ts, hts⟩ := m.exists_tokens
  obtain ⟨token, us, fs, heq, hgoes⟩ := tokensFrom_goesOn (.inl rfl) rfl m.lexed
  have hend : m.first.isEnd = false := m.accounts.not_isEnd m.first_mem
  rw [hts, List.cons_append] at heq
  obtain ⟨rfl, _⟩ := List.cons.inj heq
  obtain ⟨gs, rfl⟩ := List.head?_eq_some_iff.1 (hgoes.first (Nat.succ_pos _) rfl)
  refine ⟨?_, ?_⟩
  · rw [hgoes.space, space_fillAll]
    rfl
  · rw [hgoes.lineBreak hend, lineBreak_fillAll, Filler.texts_cons]
    simp [Filler.text]

theorem closed (m : MemberLine) : Closed m.tokens := m.nested.closed fun _ => m.token_lexed

/-! ## What may come next -/

/-- The member is read the same way with a member behind that is apart from it. -/
theorem Apart.parts (h : Apart m m') (k : Nat) : Parts false m.tokens (m'.first.later k) := by
  have hjoints : ∀ w ∈ joints, w = "extends" ∨ Text.isName w = false ∧ w ∉ (["[", "(", "<"] : List Text) := by decide
  refine ⟨fun w hw => ?joint, .inr ⟨?bar, ?ampersand⟩, .inr fun _ => ?bracket, fun hangle => ?angle, fun his => ?arrow,
    fun t ht => ?last⟩
  case joint =>
    rw [Token.is_later]
    rcases hjoints w hw with rfl | ⟨hname, hbracket⟩
    · exact h.extended
    · exact m'.first_is hname hbracket
  case bar =>
    rw [Token.is_later]
    exact m'.first_is (by decide) (by decide)
  case ampersand =>
    rw [Token.is_later]
    exact m'.first_is (by decide) (by decide)
  case bracket => exact m'.first_onNewLine.2
  case angle => exact ⟨m'.first_onNewLine.1, h.arguments (by rwa [Token.is_later] at hangle)⟩
  case arrow => exact (h.predicate (by rwa [Token.is_later] at his)).1
  case last =>
    have hjoined := h.joined t ht
    simpa [Token.joins, TypeGrammar.beginsOperand] using hjoined

/-- The member is read the same way before a semicolon or a brace. -/
theorem parts_of_marks (m : MemberLine) (ht : t.Marks w) (hw : w ∈ ([";", "\x7d"] : List Text)) :
    Parts false m.tokens t := by
  have hmarks : ∀ w ∈ ([";", "\x7d"] : List Text), w ∉ Text.ofString "is" :: Text.ofString "<" :: joints ∧
      (w ≠ "|" ∧ w ≠ "&") ∧ w ≠ "[" ∧ w ∉ (["new", "(", "[", "\x7b", "<", "-"] : List Text) := by decide
  obtain ⟨hjoint, hchain, hbracket, hjoins⟩ := hmarks w hw
  exact parts_of_mark ht hjoint (.inr hchain) (.inr hbracket) fun u _ => ht.not_joins hjoins u

/-! ## Lines behind one another -/

/-- What stands behind a member if a semicolon closes it. -/
def ending (closed : Bool) : Text := if closed then ";" else []

def semicolon : Token :=
  { lexeme := .mark, raw := ";", start := 0, stop := 1, spaceBefore := false, lineBreak := false, docs := [] }

def endingTokens (closed : Bool) : List Token := if closed then [semicolon] else []

/-- The text of members, each on lines of its own and closed by a semicolon or not. -/
def body : List (MemberLine × Bool) → Text
  | [] => []
  | (m, closed) :: lines => m.line ++ (ending closed ++ body lines)

/-- The tokens of members that stand behind so many code points. -/
def bodyTokens (k : Nat) : List (MemberLine × Bool) → List Token
  | [] => []
  | (m, closed) :: lines => m.tokens.map (·.later k) ++ ((endingTokens closed).map (·.later (m.line.length + k)) ++
      bodyTokens (k + (m.line ++ ending closed).length) lines)

variable {lines : List (MemberLine × Bool)} {closed : Bool} {post : Text} {stop n : Nat} {es : List Token}

theorem parted_body (hpost : Parted post) : Parted (body lines ++ post) := by
  cases lines with
  | nil => exact hpost
  | cons p lines => exact parted_cons (by decide) _

theorem parted_ending (hpost : Parted post) : Parted (ending closed ++ post) := by
  cases closed with
  | false => exact hpost
  | true => exact parted_cons (by decide) _

/-- The tokens of each line are those it has alone. -/
theorem tokensFrom_body (hpost : Parted post) (hstop : k + (body lines).length ≤ stop)
    (h : tokensFrom stop (k + (body lines).length) {} post = .ok es) :
    tokensFrom stop k {} (body lines ++ post) = .ok (bodyTokens k lines ++ es) := by
  induction lines generalizing k with
  | nil => exact h
  | cons p lines ih =>
    obtain ⟨m, closed⟩ := p
    have hlength : k + (m.line ++ ending closed).length + (body lines).length = k + (body ((m, closed) :: lines)).length := by
      simp [body, Nat.add_assoc]
    have hrest := ih (k := k + (m.line ++ ending closed).length) (by omega) (hlength ▸ h)
    have hle : m.line.length + k ≤ stop := by
      rw [List.length_append] at hlength
      omega
    have hending : tokensFrom stop (m.line.length + k) {} (ending closed ++ (body lines ++ post)) =
        .ok ((endingTokens closed).map (·.later (m.line.length + k)) ++
          (bodyTokens (k + (m.line ++ ending closed).length) lines ++ es)) := by
      cases closed with
      | false => simpa [ending, endingTokens, Nat.add_comm] using hrest
      | true =>
        have hsemicolon : tokenize ";" 0 (";" : Text).length = .ok ([semicolon] ++
            [{ lexeme := .endOfInput, raw := [], start := 1, stop := 1, spaceBefore := false, lineBreak := true,
               docs := [] }]) := by
          cbv
        have hbehind : k + (m.line ++ ending true).length = (ending true).length + (m.line.length + k) := by
          rw [List.length_append]
          omega
        exact tokenize_behind hsemicolon rfl (parted_body hpost) (hbehind ▸ by omega) (hbehind ▸ hrest)
    rw [body, bodyTokens, List.append_assoc, List.append_assoc, List.append_assoc, List.append_assoc]
    exact tokenize_behind m.lexed m.tight (parted_ending (parted_body hpost)) hle hending

/-! ## Reading line after line -/

section
variable {rules : Rules} {ps : List (Property TypeExpr)} {c d e : Cursor}

/-- The members from `c` on are `ps`, up to the cursor `e`. -/
def ReadsOn (rules : Rules) (n : Nat) (ps : List (Property TypeExpr)) (e c : Cursor) : Prop :=
  ∀ found, rounds (TypeGrammar.membersRound rules) n found c = .ok (found.reverse ++ ps, e)

/-- The members from `c` on are `ps` for a signature that has come so far. -/
def PassesOn (rules : Rules) (n : Nat) (ps : List (Property TypeExpr)) (e c : Cursor) : Prop :=
  ∃ d d', TypeGrammar.skipSignature rules c = .ok ((), d) ∧ loop TypeGrammar.separatorRound () d = .ok ((), d') ∧
    ReadsOn rules n ps e d'

theorem ReadsOn.mono {n' : Nat} (h : ReadsOn rules n ps e c) (hle : n ≤ n') : ReadsOn rules n' ps e c :=
  fun found => rounds_of_le hle (h found)

theorem separators_stay (hsemicolon : c.sees ";" = false) (hcomma : c.sees "," = false) :
    loop TypeGrammar.separatorRound () c = .ok ((), c) :=
  loop_done (by simp [TypeGrammar.separatorRound, acceptEither_of_not_sees hsemicolon hcomma])

theorem separators_semicolon (ht : t.Marks ";") (h : loop TypeGrammar.separatorRound () c = .ok ((), d)) :
    loop TypeGrammar.separatorRound () (c.before [t]) = .ok ((), d) := by
  have hround : TypeGrammar.separatorRound () (c.before [t]) = .ok (.again (), c) := by
    simp [TypeGrammar.separatorRound, acceptEither, accept_before (ht.is_eq ";")]
  rw [loop_apply, rounds_again hround]
  exact h

/-- One round for a member and the separators behind it. -/
theorem readsOn_member {property : Option (Property TypeExpr)} {d' : Cursor} (hbrace : c.sees "\x7d" = false)
    (hend : c.peek.isEnd = false) (hmember : TypeGrammar.member rules c = .ok (property, d))
    (hseparators : loop TypeGrammar.separatorRound () d = .ok ((), d')) (h : ReadsOn rules n ps e d') :
    ReadsOn rules (n + 1) (property.toList ++ ps) e c := by
  intro found
  have hround : TypeGrammar.membersRound rules found c = .ok (.again (property.toList ++ found), d') := by
    refine bind_ok.2 ⟨_, _, rfl, ?_⟩
    rw [if_neg (Bool.eq_false_iff.1 hbrace), hend]
    exact bind_ok.2 ⟨_, _, rfl, bind_ok.2 ⟨_, _, hmember, bind_ok.2 ⟨_, _, hseparators, rfl⟩⟩⟩
  rw [rounds_again hround, h]
  cases property <;> simp

theorem readsOn_brace (h : c.sees "\x7d" = true) : ReadsOn rules (n + 1) [] c c := by
  intro found
  rw [List.append_nil]
  refine rounds_done (bind_ok.2 ⟨_, _, rfl, ?_⟩) (Nat.succ_pos n)
  rw [if_pos h]
  rfl

/-- A signature stops at a semicolon or a brace. -/
theorem skipSignature_stop (h : c.peek.Marks w) (hw : w ∈ ([";", "\x7d"] : List Text)) :
    TypeGrammar.skipSignature rules c = .ok ((), c) := by
  refine loop_done (bind_ok.2 ⟨_, _, rfl, ?_⟩)
  have hstops : ∀ w ∈ ([";", "\x7d"] : List Text), (w == ";" || w == "\x7d") = true := by decide
  have hstop : (c.sees ";" || c.sees "," || c.sees "\x7d" || c.peek.isEnd) = true := by
    have hsees := hstops w hw
    simp only [Cursor.sees, h.is_eq]
    revert hsees
    cases (w == (";" : Text)) <;> cases (w == ("\x7d" : Text)) <;> simp
  rw [if_pos hstop]
  rfl

theorem peek_bodyTokens (e : Cursor) : (e.before (bodyTokens k ((m, closed) :: lines))).peek = m.first.later k := by
  obtain ⟨ts, hts⟩ := m.exists_tokens
  rw [bodyTokens, hts]
  rfl

/-- Neither members nor what ends them begins with a separator. -/
theorem sees_bodyTokens (hbrace : e.peek.Marks "\x7d") (hw : w ∈ ([";", ","] : List Text)) :
    (e.before (bodyTokens k lines)).sees w = false := by
  have hseparators : ∀ w ∈ ([";", ","] : List Text), (("\x7d" : Text) == w) = false ∧ Text.isName w = false ∧
      w ∉ (["[", "(", "<"] : List Text) := by decide
  obtain ⟨hne, hname, hbracket⟩ := hseparators w hw
  cases lines with
  | nil => exact (hbrace.is_eq w).trans hne
  | cons p lines =>
    rw [Cursor.sees, peek_bodyTokens, Token.is_later]
    exact p.1.first_is hname hbracket

/-- Behind a line that is closed or apart from the next one the line is read as it is alone. -/
theorem seam_line (hbrace : e.peek.Marks "\x7d") (j : Nat)
    (hapart : ∀ p ∈ lines.head?, closed = true ∨ Apart m p.1) (i : Nat) :
    Seam m.line ⟨j, (e.before (bodyTokens k lines)).before ((endingTokens closed).map (·.later i))⟩ false m.cursor := by
  refine ⟨fun t => m.token_placed, m.last_isEnd, ?_, .inr m.closed⟩
  cases closed with
  | true => exact m.parts_of_marks (w := ";") ⟨rfl, rfl⟩ (by decide)
  | false =>
    cases lines with
    | nil => exact m.parts_of_marks hbrace (by decide)
    | cons p lines =>
      have happart : Apart m p.1 := (hapart p rfl).resolve_left Bool.false_ne_true
      change Parts false m.tokens (e.before (bodyTokens k (p :: lines))).peek
      rw [peek_bodyTokens]
      exact happart.parts k

/-- Where an `is` comes next, the line is no method. -/
theorem not_method_of_is (hbrace : e.peek.Marks "\x7d") (hapart : ∀ p ∈ lines.head?, closed = true ∨ Apart m p.1) (i : Nat)
    (his : ((e.before (bodyTokens k lines)).before ((endingTokens closed).map (·.later i))).sees "is" = true) :
    ∀ p ∈ m.property, ∀ text, p.type ≠ .verbatim text .function := by
  cases closed with
  | true =>
    have hnot : (semicolon.later i).is "is" = false := Token.is_later i semicolon "is"
    exact absurd his (Bool.eq_false_iff.1 hnot)
  | false =>
    change (e.before (bodyTokens k lines)).sees "is" = true at his
    cases lines with
    | nil =>
      rw [bodyTokens, Cursor.before_nil, Cursor.sees, hbrace.is_eq] at his
      exact absurd his (by decide)
    | cons p lines =>
      have happart : Apart m p.1 := (hapart p rfl).resolve_left Bool.false_ne_true
      rw [Cursor.sees, peek_bodyTokens, Token.is_later] at his
      exact (happart.predicate his).2

/-- A line is read as it is alone before lines that are. Where no semicolon keeps a signature
from the lines behind it, these are signatures as well, and are passed over with it. -/
theorem reads_line {source front : Text} (hpost : Parted post) (hbrace : e.peek.Marks "\x7d")
    (hn : m.line.length + 2 ≤ n) (hapart : ∀ p ∈ lines.head?, closed = true ∨ Apart m p.1)
    (hsource : source = front ++ (body ((m, closed) :: lines) ++ post))
    (hreads : ReadsOn (Rules.upTo source n) (lines.length + 1) (lines.filterMap (·.1.property)) e
      (e.before (bodyTokens (front.length + (m.line ++ ending closed).length) lines)))
    (hpasses : (∀ p ∈ lines.head?, p.1.property = none) →
      PassesOn (Rules.upTo source n) (lines.length + 1) (lines.filterMap (·.1.property)) e
        (e.before (bodyTokens (front.length + (m.line ++ ending closed).length) lines))) :
    let c := e.before (bodyTokens front.length ((m, closed) :: lines))
    ReadsOn (Rules.upTo source n) (lines.length + 2) (m.property.toList ++ lines.filterMap (·.1.property)) e c ∧
      (m.property = none → PassesOn (Rules.upTo source n) (lines.length + 2) (lines.filterMap (·.1.property)) e c) := by
  intro c
  let rest : Cursor := e.before (bodyTokens (front.length + (m.line ++ ending closed).length) lines)
  let o : Place := ⟨front.length, rest.before ((endingTokens closed).map (·.later (m.line.length + front.length)))⟩
  have hput : c = o.put m.cursor := by
    change e.before (bodyTokens front.length ((m, closed) :: lines)) = o.put m.cursor
    rw [bodyTokens, Cursor.before_append, Cursor.before_append]
    rfl
  -- the line is read as it is alone: what comes behind neither joins its tokens nor goes on with its member
  have hseam : Seam m.line o false m.cursor := seam_line hbrace front.length hapart _
  have hrepeat : (Rules.of m.line).Repeat m.line front.length (Rules.upTo source n) := by
    rw [hsource, body, List.append_assoc, List.append_assoc]
    exact Rules.repeat_upTo m.line front _ (parted_ending (parted_body hpost)) hn
  have hstay : loop TypeGrammar.separatorRound () rest = .ok ((), rest) :=
    separators_stay (sees_bodyTokens hbrace (by decide)) (sees_bodyTokens hbrace (by decide))
  have hseparators : loop TypeGrammar.separatorRound () o.next = .ok ((), rest) := by
    cases closed with
    | false => exact hstay
    | true => exact separators_semicolon ⟨rfl, rfl⟩ hstay
  have hne : m.cursor.rest ≠ [] := by
    obtain ⟨ts, hts⟩ := m.exists_tokens
    exact fun hnil => List.cons_ne_nil _ _ (hts.symm.trans hnil)
  have hopen : (o.put m.cursor).sees "\x7d" = false := by
    rw [sees_put o (List.length_pos_iff.2 hne)]
    exact m.first_is (by decide) (by decide)
  have hend : (o.put m.cursor).peek.isEnd = false := by
    rw [peek_put o (List.length_pos_iff.2 hne), Token.isEnd_later]
    exact m.accounts.not_isEnd m.first_mem
  rw [hput]
  -- a line without a property is a signature, which runs on where nothing closes it
  cases hproperty : m.property with
  | none =>
    have hread : TypeGrammar.member (Rules.of m.line) m.cursor = .ok (none, ⟨[], m.last⟩) := hproperty ▸ m.read
    obtain ⟨d, d', hskip, hbehind, hgoes⟩ : PassesOn (Rules.upTo source n) (lines.length + 1)
        (lines.filterMap (·.1.property)) e o.next := by
      cases closed with
      | true => exact ⟨o.next, rest, skipSignature_stop (w := ";") ⟨rfl, rfl⟩ (by decide), hseparators, hreads⟩
      | false => exact hpasses fun p hp => ((hapart p hp).resolve_left Bool.false_ne_true).signature hproperty
    have hmember := TypeGrammar.member_goesOn hrepeat rfl hseam hread rfl hskip
    refine ⟨readsOn_member hopen hend hmember hbehind hgoes, fun _ => ⟨d, d', ?_, hbehind, hgoes.mono (Nat.le_succ _)⟩⟩
    exact TypeGrammar.skipSignature_goesOn hrepeat rfl hseam (TypeGrammar.skipSignature_of_member m.last_isEnd hread) rfl hskip
  | some p =>
    have hread : TypeGrammar.member (Rules.of m.line) m.cursor = .ok (some p, ⟨[], m.last⟩) := hproperty ▸ m.read
    have hmember := TypeGrammar.member_annotated hrepeat rfl hseam hread (m.annotated (by rw [hproperty]; rfl))
      fun his => not_method_of_is hbrace hapart _ his p hproperty
    refine ⟨readsOn_member hopen hend hmember hseparators hreads, fun hnone => ?_⟩
    cases hnone

/-- Line after line is read as it is alone, and signatures in front are passed over. -/
theorem reads_lines {source front : Text} (hpost : Parted post) (hbrace : e.peek.Marks "\x7d")
    (hn : ∀ p ∈ lines, p.1.line.length + 2 ≤ n) (hapart : lines.IsChain fun p p' => p.2 = true ∨ Apart p.1 p'.1)
    (hsource : source = front ++ (body lines ++ post)) :
    ReadsOn (Rules.upTo source n) (lines.length + 1) (lines.filterMap (·.1.property)) e (e.before (bodyTokens front.length lines)) ∧
      ((∀ p ∈ lines.head?, p.1.property = none) →
        PassesOn (Rules.upTo source n) (lines.length + 1) (lines.filterMap (·.1.property)) e
          (e.before (bodyTokens front.length lines))) := by
  induction lines generalizing front with
  | nil =>
    have hreads : ReadsOn (Rules.upTo source n) 1 [] e e := readsOn_brace (hbrace.is_eq _)
    refine ⟨hreads, fun _ => ⟨e, e, skipSignature_stop hbrace (by decide), separators_stay ?_ ?_, hreads⟩⟩
    · rw [Cursor.sees, hbrace.is_eq]
      rfl
    · rw [Cursor.sees, hbrace.is_eq]
      rfl
  | cons p lines ih =>
    obtain ⟨m, closed⟩ := p
    have hsplit : source = (front ++ (m.line ++ ending closed)) ++ (body lines ++ post) := by
      rw [hsource, body]
      simp only [List.append_assoc]
    obtain ⟨hhead, htail⟩ := List.isChain_cons.1 hapart
    obtain ⟨hreads, hpasses⟩ := ih (fun p hp => hn p (List.mem_cons_of_mem _ hp)) htail hsplit
    rw [List.length_append] at hreads hpasses
    obtain ⟨hall, hsignatures⟩ := reads_line hpost hbrace (hn _ List.mem_cons_self) hhead hsource hreads hpasses
    have hmembers : ((m, closed) :: lines).filterMap (·.1.property) = m.property.toList ++ lines.filterMap (·.1.property) := by
      rw [List.filterMap_cons]
      cases m.property <;> rfl
    refine ⟨hmembers ▸ hall, fun hfirst => ?_⟩
    have hnone : m.property = none := hfirst _ rfl
    rw [hmembers, hnone]
    exact hsignatures hnone

theorem length_le_bodyTokens : lines.length ≤ (bodyTokens k lines).length := by
  induction lines generalizing k with
  | nil => exact Nat.le_refl _
  | cons p lines ih =>
    obtain ⟨m, closed⟩ := p
    obtain ⟨ts, hts⟩ := m.exists_tokens
    have hrest := ih (k := k + (m.line ++ ending closed).length)
    rw [bodyTokens, hts, List.length_append, List.length_append, List.length_map, List.length_cons, List.length_cons]
    omega

/-! ## No mapped type -/

/-- Behind a bracket that opens there is another token, and behind a word one more. -/
theorem nested_bracket {us : List Token} (h : Nested (t :: us)) (ht : t.Marks "[") :
    ∃ u vs, us = u :: vs ∧ (u.isWord = true → ∃ v ws, vs = v :: ws) := by
  obtain ⟨awaited, hturn, hrest⟩ := awaitedBehind_cons.1 h
  rw [turn?_open ht (by decide) (show closerOf? "[" = some ("]" : Text) by decide), Option.some_inj] at hturn
  subst hturn
  cases us with
  | nil => cases hrest
  | cons u vs =>
    refine ⟨u, vs, rfl, fun hword => ?_⟩
    cases vs with
    | nil =>
      have hplain : u.turn? ["]"] = some (["]"] : List Text) := by
        have hmark : u.isMark = false := by
          have hl : u.lexeme = .word := beq_iff_eq.1 hword
          simp [Token.isMark, hl]
        simp [Token.turn?, Token.isOneOf, hmark]
      rw [awaitedBehind_cons.2 ⟨_, hplain, rfl⟩] at hrest
      cases hrest
    | cons v ws => exact ⟨v, ws, rfl⟩

/-- A key in brackets looks the same with more tokens behind it. -/
theorem key_eq {us ws : List Token} (h : Nested us) (hlexed : ∀ t ∈ us, t.Lexed) (hne : us ≠ []) (c : Cursor) (last : Token) :
    let d : Cursor := c.before (us.map (·.later k) ++ ws)
    (d.sees "[" && (d.peek 1).isWord && d.sees "in" 2) =
      ((⟨us, last⟩ : Cursor).sees "[" && ((⟨us, last⟩ : Cursor).peek 1).isWord && (⟨us, last⟩ : Cursor).sees "in" 2) := by
  obtain ⟨t, vs, rfl⟩ := List.exists_cons_of_ne_nil hne
  intro d
  change ((t.later k).is "[" && _ && _) = (t.is "[" && _ && _)
  rw [Token.is_later]
  cases hopen : t.is "[" with
  | false => rfl
  | true =>
    obtain ⟨u, vs, rfl, hword⟩ := nested_bracket h (marks_of_is (hlexed t List.mem_cons_self) hopen (by decide))
    change (true && (u.later k).isWord && _) = (true && u.isWord && _)
    rw [Token.isWord_later]
    cases hw : u.isWord with
    | false => rfl
    | true =>
      obtain ⟨v, xs, rfl⟩ := hword hw
      exact Token.is_later k v "in"

/-- A word alone is the name of a property. -/
theorem exists_second (m : MemberLine) (h : m.first.is "readonly" = true) :
    ∃ t ts, m.tokens = m.first :: t :: ts ∧ Nested (t :: ts) := by
  obtain ⟨ts, hts⟩ := m.exists_tokens
  have hnested := m.nested
  rw [hts] at hnested
  obtain ⟨awaited, hturn, hrest⟩ := awaitedBehind_cons.1 hnested
  rw [turn?_plain h (by decide), Option.some_inj] at hturn
  subst hturn
  cases ts with
  | cons t ts => exact ⟨t, ts, hts, hrest⟩
  | nil =>
    have hread := m.read
    have hcursor : (⟨m.tokens, m.last⟩ : Cursor) = Cursor.before ⟨[], m.last⟩ [m.first] := by rw [hts]; rfl
    rw [hcursor] at hread
    cases hproperty : m.property with
    | none =>
      rw [hproperty] at hread
      exact absurd hread (TypeGrammar.member_readonly h m.last_isEnd rfl)
    | some p =>
      obtain ⟨t, ht, hmark⟩ := m.annotated (by rw [hproperty]; rfl)
      rw [hts, List.mem_singleton] at ht
      rw [← ht, hmark.is_eq] at h
      exact absurd h (by decide)

/-- Without a sign, a key stands behind the brace or behind `readonly`. -/
theorem beginsMapped_behind (brace : Token) (hsign : c.peek.isOneOf ["+", "-"] = false) :
    TypeGrammar.beginsMapped (c.before [brace]) =
      if c.sees "readonly" then c.sees "[" 1 && (c.peek 2).isWord && c.sees "in" 3
      else c.sees "[" && (c.peek 1).isWord && c.sees "in" 2 := by
  have hpeek : (c.before [brace]).peek 1 = c.peek := rfl
  have hsees : (c.before [brace]).sees "readonly" 1 = c.sees "readonly" := rfl
  rw [TypeGrammar.beginsMapped, hpeek, hsign]
  simp only [Bool.false_eq_true, if_false, hsees]
  split <;> rfl

/-- Lines behind a brace are not taken for a mapped type. -/
theorem not_mapped (hbrace : e.peek.Marks "\x7d") (brace : Token) :
    TypeGrammar.beginsMapped ((e.before (bodyTokens k lines)).before [brace]) = false := by
  have hsigns : ∀ w ∈ (["+", "-"] : List Text), Text.isName w = false ∧ w ∉ (["[", "(", "<"] : List Text) := by decide
  cases lines with
  | nil =>
    have hsign : e.peek.isOneOf ["+", "-"] = false := by
      rw [hbrace.isOneOf_eq]
      decide
    have hnot (w : Text) (hw : (("\x7d" : Text) == w) = false) : e.sees w = false := (hbrace.is_eq w).trans hw
    rw [bodyTokens, Cursor.before_nil, beginsMapped_behind brace hsign, hnot "readonly" (by decide), hnot "[" (by decide)]
    rfl
  | cons p lines =>
    obtain ⟨m, closed⟩ := p
    have hsign : m.first.isOneOf ["+", "-"] = false := Bool.eq_false_iff.2 fun hone => by
      obtain ⟨hmark, hmem⟩ := isOneOf_iff.1 hone
      have hnot := m.first_is (hsigns _ hmem).1 (hsigns _ hmem).2
      rw [Token.is, hmark, Bool.or_true, Bool.true_and, beq_self_eq_true] at hnot
      cases hnot
    have halone : TypeGrammar.beginsMapped (m.cursor.before [brace]) = false := m.unmapped brace
    have hfirst : (e.before (bodyTokens k ((m, closed) :: lines))).peek = m.first.later k := peek_bodyTokens e
    have hsees : (e.before (bodyTokens k ((m, closed) :: lines))).sees "readonly" = m.cursor.sees "readonly" := by
      rw [Cursor.sees, hfirst, Token.is_later]
      rfl
    rw [beginsMapped_behind brace hsign] at halone
    rw [beginsMapped_behind brace (by rw [hfirst, Token.isOneOf_later, hsign]), hsees]
    by_cases hread : m.cursor.sees "readonly" = true
    · rw [if_pos hread] at halone ⊢
      obtain ⟨t, ts, hts, hnested⟩ := m.exists_second hread
      -- behind `readonly` the next token of the line decides, and the line alone was seen to be no mapped type
      have hlexed : ∀ u ∈ t :: ts, u.Lexed := fun u hu => m.token_lexed (hts ▸ List.mem_cons_of_mem _ hu)
      rw [cursor, hts] at halone
      rw [bodyTokens, hts]
      exact (key_eq hnested hlexed (List.cons_ne_nil t ts) e m.last).trans halone
    · rw [if_neg hread] at halone ⊢
      exact (key_eq m.nested (fun _ => m.token_lexed) (List.ne_nil_of_mem m.first_mem) e m.last).trans halone

end

end MemberLine

end WireSchema
