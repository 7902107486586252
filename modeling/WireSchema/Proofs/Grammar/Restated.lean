import WireSchema.Proofs.Grammar.Arrows
import WireSchema.Proofs.Lexing.Literals
/-!
# The types of a source and their texts

A source is made of the types of its declarations and of the types in these.
`Garbled` are those whose text is not read back; every other one is.
-/

namespace WireSchema

open Source Source.Cursor Source.Parser TypeGrammar

/-! ## Types in types -/

namespace TypeExpr

mutual

/-- The types that stand in the type. -/
def inner : TypeExpr → List TypeExpr
  | array element _ => element :: inner element
  | template spans _ => innerSpans spans
  | tuple elements _ _ => innerAll elements
  | object members _ => innerMembers members
  | union members _ => innerAll members
  | intersection members _ => innerAll members
  | reference _ arguments _ => innerAll arguments
  | _ => []

/-- Several types and those that stand in them. -/
def innerAll : List TypeExpr → List TypeExpr
  | [] => []
  | e :: rest => e :: inner e ++ innerAll rest

/-- The types of members and those that stand in them. -/
def innerMembers : List (Property TypeExpr) → List TypeExpr
  | [] => []
  | ⟨_, _, type, _⟩ :: rest => type :: inner type ++ innerMembers rest

/-- The types in the holes of a template and those that stand in them. -/
def innerSpans : List (Span TypeExpr) → List TypeExpr
  | [] => []
  | .chunk _ :: rest => innerSpans rest
  | .hole e :: rest => e :: inner e ++ innerSpans rest

end

/-- The type and the types that stand in it. -/
def nodes (e : TypeExpr) : List TypeExpr := e :: e.inner

@[simp] theorem inner_keyword (name : Text) : (keyword name).inner = [] := by simp [inner]

@[simp] theorem inner_literal (t : Text) : (literal t).inner = [] := by simp [inner]

@[simp] theorem inner_verbatim (t : Text) (reason : Unmodelled) : (verbatim t reason).inner = [] := by simp [inner]

variable {P : TypeExpr → Prop} {e : TypeExpr} {es : List TypeExpr} {ms : List (Property TypeExpr)} {spans : List (Span TypeExpr)}

theorem mem_innerAll {n : TypeExpr} : n ∈ innerAll es ↔ ∃ e ∈ es, n ∈ e.nodes := by
  induction es with
  | nil => simp [innerAll]
  | cons e es ih => simp [innerAll, ih, nodes, or_assoc]

theorem mem_innerMembers {n : TypeExpr} : n ∈ innerMembers ms ↔ ∃ m ∈ ms, n ∈ m.type.nodes := by
  induction ms with
  | nil => simp [innerMembers]
  | cons m ms ih =>
    obtain ⟨name, isOptional, type, docs⟩ := m
    simp [innerMembers, ih, nodes, or_assoc]

theorem mem_innerSpans {n : TypeExpr} : n ∈ innerSpans spans ↔ ∃ e, .hole e ∈ spans ∧ n ∈ e.nodes := by
  induction spans with
  | nil => simp [innerSpans]
  | cons span spans ih => cases span <;> simp [innerSpans, ih, nodes, or_assoc, or_and_right, exists_or]

end TypeExpr

/-- The type that the interface extends. -/
def Base.type (b : Base) : TypeExpr := .reference b.name b.arguments b.text

/-- The types that a declaration is made of. -/
def Declaration.nodes (d : Declaration) : List TypeExpr :=
  match d.body with
  | .interface _ bases members => bases.flatMap (·.type.nodes) ++ members.flatMap (·.type.nodes)
  | .typeAlias _ type => type.nodes
  | .enumeration _ => []

/-! ## Texts that are not read back -/

namespace TypeGrammar

/-- Passes over the parameters of a method and its type parameters. -/
def parameterList : Parser Unit := do
  when (← sees "<") skipBalanced
  skipBalanced

/-- `f` is read in the source as the result of a method, and the method is kept as `e`. -/
def Results (source : Text) (e f : TypeExpr) : Prop :=
  ∃ n c b x d, c.StandsIn source ∧ methodType (Rules.upTo source n) c = .ok (e, d) ∧ parameterList c = .ok ((), b) ∧
    accept ":" b = .ok (true, x) ∧ returnType (Rules.upTo source n) x = .ok (f, d)

/-- On one line and with the end of the input behind them, the tokens from `c` to `d` are not read as the type. -/
def Misread (source : Text) (p : Rules → Parser TypeExpr) (c d : Cursor) (e : TypeExpr) : Prop :=
  ∀ n, p (Rules.upTo source n) (c.alone d) ≠ .ok (e, ⟨[], d.last⟩)

/-- The text begins with the word `asserts` and another word. -/
def OpensAssertion (t : Text) : Prop :=
  ∃ u v rest, tokenize t 0 t.length = .ok (u :: v :: rest) ∧ u.is "asserts" = true ∧ v.isWord = true

end TypeGrammar

/-- The type is read in the source off tokens whose text is read as something else. -/
inductive TypeExpr.Garbled (source : Text) : TypeExpr → Prop where
  /-- A bracket begins a line of the text, or a dot stands behind a keyword at the end, and it matters. -/
  | cut {n : Nat} {c d : Cursor} {e : TypeExpr} : c.StandsIn source → ReadFrom (Rules.upTo source n) c e d →
    e.text = spell (c.upTo d) → ¬ c.Cuts d → Misread source TypeGrammar.type c d e → Garbled source e
  /-- The same in a type predicate. -/
  | predicate {n : Nat} {c d : Cursor} {t : Text} : c.StandsIn source →
    returnType (Rules.upTo source n) c = .ok (.verbatim t .typePredicate, d) → ¬ c.Cuts d →
    Misread source returnType c d (.verbatim t .typePredicate) → Garbled source (.verbatim t .typePredicate)
  /-- An interface extends a type with the name of an operator and with type arguments. -/
  | base {n : Nat} {c d : Cursor} {e : TypeExpr} : c.StandsIn source → primary (Rules.upTo source n) c = .ok (e, d) →
    leads (run c d) = true → Misread source TypeGrammar.type c d e → Garbled source e
  /-- The parameters of a method are not those of a function type. -/
  | parameters {n : Nat} {c b d : Cursor} {e : TypeExpr} : c.StandsIn source → methodType (Rules.upTo source n) c = .ok (e, d) →
    parameterList c = .ok ((), b) → ¬ Parameters c b → Garbled source e
  | result {e f : TypeExpr} : Results source e f → Garbled source f → Garbled source e
  /-- The result of a method is a type with a text that begins as an assertion. -/
  | assertion {n : Nat} {c d : Cursor} {e f : TypeExpr} : Results source e f → c.StandsIn source →
    (Rules.upTo source n).type c = .ok (f, d) → OpensAssertion f.text → Garbled source e

/-- The text of the type is read back as the type, or it is garbled. -/
def TypeExpr.Restated (source : Text) (e : TypeExpr) : Prop :=
  e.Garbled source ∨ ReadBack TypeGrammar.type e.text e.undocumented

section
variable {source t : Text} {n : Nat} {c d x : Cursor} {e f : TypeExpr}

/-- A text that is read as a type is read back if it is spelled as its tokens are. -/
theorem readBack_of_parse (h : TypeExpr.parse t = .ok e)
    (hspell : ∀ ts last, tokenize t 0 t.length = .ok (ts ++ [last]) → spell ts = t) : ReadBack TypeGrammar.type t e := by
  obtain ⟨tokens, htokens, h⟩ := Except.bind_eq_ok.1 h
  obtain ⟨⟨found, after⟩, honly, h⟩ := Except.bind_eq_ok.1 h
  cases h
  obtain ⟨hread, hend⟩ := only_eq_ok.1 honly
  have hstands := Cursor.standsIn_ofTokens .whole htokens
  obtain ⟨ts, last, rfl, hlast, hnone⟩ := tokenize_read (.inl rfl) htokens
  have hreaches := (ended_type (Rules.close_upTo t (t.length + 1)) hstands.forth _ _ hread).forth.reaches
  have hcursor : ofTokens (ts ++ [last]) = ⟨ts, last⟩ := by rw [ofTokens, List.dropLast_concat, List.getLastD_concat]
  rw [hcursor] at hread hreaches
  obtain rfl := hreaches.at_end (fun u hu => (hnone u hu).1) hend
  exact ⟨ts, last, t.length + 1, htokens, hspell ts last htokens, hread⟩

theorem tokenize_any : tokenize "any" 0 3 = .ok
    [{ lexeme := .word, raw := "any", start := 0, stop := 3, spaceBefore := false, lineBreak := false, docs := [] },
     Token.endAt 3] := by cbv

theorem readBack_any : ReadBack TypeGrammar.type "any" (.keyword "any") := by
  have hparse : TypeExpr.parse "any" = .ok (.keyword "any") := by
    have hprinted : Printed .primary (.keyword "any") "any" := printed_keyword (by decide)
    obtain ⟨found, hparse, hbare⟩ := hprinted.to_union.parse
    rw [hparse]
    cases found with
    | keyword name => exact congrArg Except.ok hbare
    | _ => simp [TypeExpr.bare] at hbare
  refine readBack_of_parse hparse fun ts last h => ?_
  obtain ⟨rfl, _⟩ := List.append_inj' (show [_] ++ [_] = ts ++ [last] from Except.ok.inj (tokenize_any.symm.trans h)) rfl
  rfl

theorem restated_quote (source value : Text) : (TypeExpr.literal (Text.quote value)).Restated source := by
  refine .inr (readBack_of_parse (TypeExpr.parse_quote value) fun ts last h => ?_)
  have hsole : tokenize (Text.quote value) 0 (Text.quote value).length = .ok (soleString (Text.quote value) value) :=
    tokenize_quotes (Text.quoteInside_quotes value)
  obtain ⟨rfl, _⟩ := List.append_inj' (show [_] ++ [_] = ts ++ [last] from Except.ok.inj (hsole.symm.trans h)) rfl
  exact List.append_nil _

/-- The text of a run is read back if its tokens are read as the type on one line. -/
theorem restated_or_misread (h : c.StandsIn source) (hd : c.Passes d) (htext : e.text = spell (c.upTo d)) :
    e.Restated source ∨ Misread source TypeGrammar.type c d e := by
  by_cases halone : ∃ n, TypeGrammar.type (Rules.upTo source n) (c.alone d) = .ok (e, ⟨[], d.last⟩)
  · obtain ⟨n, hread⟩ := halone
    exact .inl (.inr (htext ▸ readBack_type_alone h hd hread))
  · exact .inr fun n hread => halone ⟨n, hread⟩

theorem restated_read (h : c.StandsIn source) (hread : ReadFrom (Rules.upTo source n) c e d) (htext : e.text = spell (c.upTo d)) :
    e.Restated source := by
  by_cases hcuts : c.Cuts d
  · exact .inr (htext ▸ hread.readBack h hcuts)
  · have hpasses := (hread.ended (Rules.close_upTo source n) h.last).passes
    exact (restated_or_misread h hpasses htext).elim id fun hmisread => .inl (.cut h hread htext hcuts hmisread)

theorem restated_base (h : c.StandsIn source) (hread : primary (Rules.upTo source n) c = .ok (e, d))
    (htext : e.text = spell (c.upTo d)) :
    e.Restated source := by
  cases hleads : leads (run c d) with
  | false => exact restated_read h (.postfixed hleads (.first hread)) htext
  | true =>
    have hpasses := (ended_primary (Rules.close_upTo source n) h.forth _ _ hread).passes
    exact (restated_or_misread h hpasses htext).elim id fun hmisread => .inl (.base h hread hleads hmisread)

/-! ## Methods -/

/-- Behind a word that does not begin an assertion, a type is a result. -/
theorem ReadBack.result (h : ReadBack TypeGrammar.type t e) (hopens : ¬ OpensAssertion t) : ReadBack returnType t e := by
  obtain ⟨ts, last, n, htokens, hspell, hread⟩ := h
  refine ⟨ts, last, n + 1, htokens, hspell, ?_⟩
  have hstands := Cursor.standsIn_ofTokens .whole htokens
  rw [ofTokens, List.dropLast_concat, List.getLastD_concat] at hstands
  have hword : (Cursor.sees ⟨ts, last⟩ "asserts" && (Cursor.peek ⟨ts, last⟩ 1).isWord) = false := by
    refine Bool.eq_false_iff.2 fun hboth => hopens ?_
    rw [Bool.and_eq_true] at hboth
    rcases ts with _ | ⟨u, _ | ⟨v, rest⟩⟩
    · rw [not_sees_end hstands.last (Nat.zero_le _)] at hboth
      cases hboth.1
    · rw [show Cursor.peek ⟨[u], last⟩ 1 = last from rfl, Token.not_isWord_of_isEnd hstands.last] at hboth
      cases hboth.2
    · exact ⟨u, v, rest ++ [last], htokens, hboth.1, hboth.2⟩
  have htype : (Rules.upTo t (n + 1)).type ⟨ts, last⟩ = .ok (e, ⟨[], last⟩) := hread
  have hlast : last.isEnd = true := hstands.last
  have his : accept "is" ⟨[], last⟩ = .ok (false, ⟨[], last⟩) := accept_at_end hlast rfl "is"
  simp [returnType, hword, htype, his]

theorem methodType_ok {rules : Rules} (h : methodType rules c = .ok (e, d)) : ∃ b result, parameterList c = .ok ((), b) ∧
    resultText rules b = .ok (result, d) ∧ e = .verbatim (spell (c.upTo b) ++ " => " ++ result) .function := by
  obtain ⟨_, _, hstart, h⟩ := bind_ok.1 h
  cases hstart
  obtain ⟨_, _, hsees, h⟩ := bind_ok.1 h
  cases hsees
  obtain ⟨_, b₁, hangle, h⟩ := bind_ok.1 h
  obtain ⟨_, b, hskip, h⟩ := bind_ok.1 h
  obtain ⟨_, _, htext, h⟩ := bind_ok.1 h
  cases htext
  obtain ⟨result, d, hresult, h⟩ := bind_ok.1 h
  cases h
  exact ⟨b, result, bind_ok.2 ⟨_, c, rfl, bind_ok.2 ⟨_, b₁, hangle, hskip⟩⟩, hresult, rfl⟩

theorem resultText_ok {rules : Rules} {b : Cursor} {result : Text} (h : resultText rules b = .ok (result, d)) :
    (∃ x f, accept ":" b = .ok (true, x) ∧ returnType rules x = .ok (f, d) ∧ result = f.text) ∨ result = "any" := by
  obtain ⟨taken, x, htaken, h⟩ := bind_ok.1 h
  cases taken with
  | false =>
    cases h
    exact .inr rfl
  | true =>
    obtain ⟨f, y, hf, h⟩ := bind_ok.1 h
    cases h
    exact .inl ⟨x, f, htaken, hf, rfl⟩

theorem returnType_ok {rules : Rules} (hlast : x.last.isEnd = true) (h : returnType rules x = .ok (f, d)) :
    (∃ y, x.Reaches y ∧ rules.type y = .ok (f, d)) ∨ f = .verbatim (spell (x.upTo d)) .typePredicate := by
  obtain ⟨_, _, hstart, h⟩ := bind_ok.1 h
  cases hstart
  obtain ⟨_, _, hsees, h⟩ := bind_ok.1 h
  cases hsees
  obtain ⟨_, _, hpeek, h⟩ := bind_ok.1 h
  cases hpeek
  obtain ⟨_, y, hskip, h⟩ := bind_ok.1 h
  have hy : x.Forth y := forth_when (.refl hlast) (fun _ => forth_skip (.refl hlast)) _ _ hskip
  obtain ⟨type, z, htype, h⟩ := bind_ok.1 h
  obtain ⟨taken, z', htaken, h⟩ := bind_ok.1 h
  cases taken with
  | false =>
    cases h
    rw [(accept_false htaken).1]
    exact .inl ⟨y, hy.reaches, htype⟩
  | true =>
    obtain ⟨_, w, _, h⟩ := bind_ok.1 h
    obtain ⟨_, _, htext, h⟩ := bind_ok.1 h
    cases htext
    cases h
    exact .inr rfl

/-- What the rules for a depth answer is read back. -/
structure Rules.Restates (source : Text) (rules : Rules) : Prop where
  type : ∀ {c}, c.StandsIn source → Answers rules.type c fun e _ => ∀ n ∈ e.nodes, n.Restated source
  operand : ∀ {c}, c.StandsIn source → Answers rules.operand c fun e _ => ∀ n ∈ e.nodes, n.Restated source
  hole : ∀ {a b e}, Window source a b → rules.hole a b = .ok e → ∀ n ∈ e.nodes, n.Restated source

theorem not_opensAssertion_any : ¬ OpensAssertion "any" := by
  rintro ⟨u, v, rest, htokens, hasserts, _⟩
  obtain ⟨rfl, _⟩ := List.cons.inj (Except.ok.inj (tokenize_any.symm.trans htokens))
  revert hasserts
  decide

theorem restated_method (hr : (Rules.upTo source n).Restates source) (h : c.StandsIn source)
    (hmethod : methodType (Rules.upTo source n) c = .ok (e, d)) : ∀ m ∈ e.nodes, m.Restated source := by
  obtain ⟨b, result, hlist, hresult, rfl⟩ := methodType_ok hmethod
  rw [TypeExpr.nodes, TypeExpr.inner_verbatim, List.forall_mem_singleton]
  by_cases hparams : Parameters c b
  · have hback {f : TypeExpr} (hf : ReadBack returnType result f) : TypeExpr.Restated source
        (.verbatim (spell (c.upTo b) ++ " => " ++ result) .function) := by
      refine .inr ?_
      simp only [TypeExpr.undocumented, TypeExpr.redocument]
      exact readBack_method h hparams hf
    rcases resultText_ok hresult with ⟨x, f, hcolon, hf, rfl⟩ | rfl
    · have hresults : Results source (.verbatim (spell (c.upTo b) ++ " => " ++ f.text) .function) f :=
        ⟨n, c, b, x, d, h, hmethod, hlist, hcolon, hf⟩
      have hb : b.StandsIn source := h.reaches (hparams.ended h.last).forth.reaches
      have hx : x.StandsIn source := hb.reaches (forth_accept ":" hb.forth _ _ hcolon).1.reaches
      rcases returnType_ok hx.last hf with ⟨y, hy, htype⟩ | rfl
      · rcases hr.type (hx.reaches hy) _ _ htype f List.mem_cons_self with hgarbled | hread
        · exact .inl (.result hresults hgarbled)
        · by_cases hopens : OpensAssertion f.text
          · exact .inl (.assertion hresults (hx.reaches hy) htype hopens)
          · exact hback (hread.result hopens)
      · by_cases hcuts : x.Cuts d
        · exact hback (readBack_returnType hf hx hcuts)
        · by_cases halone : ∃ m, returnType (Rules.upTo source m) (x.alone d) =
              .ok (.verbatim (spell (x.upTo d)) .typePredicate, ⟨[], d.last⟩)
          · obtain ⟨m, hread⟩ := halone
            have hpasses := (ended_returnType (Rules.close_upTo source n) hx.forth _ _ hf).passes
            exact hback (readBack_returnType_alone hx hpasses hread)
          · exact .inl (.result hresults (.predicate hx hf hcuts fun m hread => halone ⟨m, hread⟩))
    · exact hback (readBack_any.result not_opensAssertion_any)
  · exact .inl (.parameters h hmethod hlist hparams)

end

/-! ## Sources without garbled types -/

/-- Tokens without templates, dots and words that lead an operand, and with no bracket at the beginning of a line
that may open an index or an array. -/
structure Source.Harmless (tokens : List Token) : Prop where
  unbroken : Unbroken tokens
  closed : ∀ t ∈ tokens, t.isTemplate = false
  dotless : ∀ t ∈ tokens, t.is "." = false
  leadless : ∀ t ∈ tokens, (("infer" : Text) :: operatorWords).contains t.raw = false

section
variable {source : Text} {tokens : List Token} {c d : Cursor} {e : TypeExpr}
  (htokens : tokenize source 0 source.length = .ok tokens) (hharmless : Harmless tokens)
include htokens hharmless

theorem Source.Window.eq_whole {at_ stop : Nat} (h : Window source at_ stop) : at_ = 0 ∧ stop = source.length := by
  induction h with
  | whole => exact ⟨rfl, rfl⟩
  | @hole at_ stop _ _ others t _ _ hothers ht hparts _ ih =>
    obtain ⟨rfl, rfl⟩ := ih
    cases htokens.symm.trans hothers
    have hclosed := hharmless.closed t ht
    rw [Token.isTemplate, hparts] at hclosed
    cases hclosed

theorem Source.Cursor.StandsIn.exists_before (h : c.StandsIn source) : ∃ before, tokens = before ++ (c.rest ++ [c.last]) := by
  obtain ⟨at_, stop, before, hwindow, hall⟩ := h
  obtain ⟨rfl, rfl⟩ := hwindow.eq_whole htokens hharmless
  exact ⟨before, Except.ok.inj (htokens.symm.trans hall)⟩

theorem Source.Cursor.StandsIn.peek_mem (h : c.StandsIn source) (n : Nat) : c.peek n ∈ tokens := by
  obtain ⟨before, rfl⟩ := h.exists_before htokens hharmless
  refine List.mem_append_right before ?_
  by_cases hn : n < c.rest.length
  · rw [Cursor.peek, List.getD_eq_getElem?_getD, List.getElem?_eq_getElem hn]
    exact List.mem_append_left _ (List.getElem_mem hn)
  · rw [peek_length_le (Nat.le_of_not_lt hn)]
    exact List.mem_append_right _ List.mem_cons_self

theorem Source.Cursor.StandsIn.cuts (h : c.StandsIn source) (hd : c.Reaches d) : c.Cuts d where
  unbroken := by
    obtain ⟨before, rfl⟩ := h.exists_before htokens hharmless
    have hinfix : c.upTo d <:+: before ++ (c.rest ++ [c.last]) :=
      (List.take_prefix _ _).isInfix.trans ⟨before, [c.last], List.append_assoc _ _ _⟩
    exact hharmless.unbroken.infix hinfix
  undotted hdot := by
    rw [Cursor.sees, hharmless.dotless _ ((h.reaches hd).peek_mem htokens hharmless 0)] at hdot
    cases hdot

theorem Source.Cursor.StandsIn.not_leads (h : c.StandsIn source) : leads c = false := by
  have hleadless := hharmless.leadless _ (h.peek_mem htokens hharmless 0)
  rw [List.contains_cons, Bool.or_eq_false_iff] at hleadless
  rw [leads, hleadless.2, Cursor.sees, Token.is, hleadless.1]
  simp

/-- A type that is not kept as its text alone is not garbled there. -/
theorem TypeExpr.not_garbled (he : ∀ t reason, e ≠ .verbatim t reason) : ¬ e.Garbled source := by
  have hmethod {n : Nat} {c d : Cursor} (h : methodType (Rules.upTo source n) c = .ok (e, d)) : False := by
    obtain ⟨_, _, _, _, rfl⟩ := methodType_ok h
    exact he _ _ rfl
  intro hgarbled
  cases hgarbled with
  | @cut n c d _ h hread _ hcuts _ =>
    have hreaches := (hread.ended (Rules.close_upTo source n) h.last).forth.reaches
    exact hcuts (h.cuts htokens hharmless hreaches)
  | predicate => exact he _ _ rfl
  | base h _ hleads _ =>
    cases (leads_of_run h.last hleads).symm.trans (h.not_leads htokens hharmless)
  | parameters _ h _ _ => exact hmethod h
  | result h _ =>
    obtain ⟨_, _, _, _, _, _, h, _⟩ := h
    exact hmethod h
  | assertion h _ _ _ =>
    obtain ⟨_, _, _, _, _, _, h, _⟩ := h
    exact hmethod h

end

end WireSchema
