import WireSchema.Proofs.Grammar.Reading
import WireSchema.Proofs.Lexing.Chunks
/-!
# Texts that spell types

`Printed tier e t` says that the text `t`, behind any white space, is read as a
spelling of the type `e`. Texts are put together as types are.
-/

namespace WireSchema

open Source Source.Token Source.Chunk

namespace TypeGrammar

/-- Nothing but white space. -/
def IsGap (gap : Text) : Prop := ∀ c ∈ gap, c.isBlank = true

/-- Chunks that make up a text, are read wherever a type may end behind them, and
whose tokens are as `P` says. -/
def Makes (t : Text) (P : List Token → Prop) : Prop :=
  ∃ ks, texts ks = t ∧ (∀ rest, Breaks rest → Readable ks rest) ∧ ∀ at_, P (tokens at_ ks)

/-- The text is read as a spelling of the type. -/
def Printed (tier : Tier) (e : TypeExpr) (t : Text) : Prop :=
  ∀ gap, IsGap gap → Makes (gap ++ t) (Spelled tier e)

section
variable {gap t u m : Text} {P Q : List Token → Prop} {e : TypeExpr} {tier : Tier}

theorem Makes.mono (h : Makes t P) (hp : ∀ ts, P ts → Q ts) : Makes t Q := by
  obtain ⟨ks, htext, hread, hks⟩ := h
  exact ⟨ks, htext, hread, fun at_ => hp _ (hks at_)⟩

theorem breaks_nil : Breaks [] := fun c hc => by cases hc

theorem breaks_cons {c : CodePoint} (hc : c ∈ numberBreaks) (s : Text) : Breaks (c :: s) := by
  rintro d ⟨⟩
  exact hc

/-- The marks that may come right behind a type. -/
theorem breaks_mark (hm : m ∈ numberBreaks.map fun c => [c]) (s : Text) : Breaks (m ++ s) := by
  obtain ⟨c, hc, rfl⟩ := List.mem_map.1 hm
  exact breaks_cons hc s

theorem makes_nil : Makes [] (· = []) := ⟨[], rfl, fun _ _ => trivial, fun _ => rfl⟩

/-- A mark behind white space, then a text. -/
theorem Makes.behind (h : Makes t P) (hgap : IsGap gap) (hm : m ∈ plainMarks.map fun c => [c]) :
    Makes (gap ++ m ++ t) fun ts => ∃ k as, ts = k :: as ∧ k.Marks m ∧
      k.spaceBefore = !gap.isEmpty ∧ k.lineBreak = gap.contains '\n' ∧ P as := by
  obtain ⟨ks, rfl, hread, hks⟩ := h
  refine ⟨⟨gap, m, .mark⟩ :: ks, rfl, fun rest hrest => ⟨hgap, fits_mark hm _ _, hread rest hrest⟩,
    fun at_ => ?_⟩
  exact ⟨_, _, rfl, ⟨rfl, rfl⟩, rfl, rfl, hks _⟩

/-- Two texts one behind the other, the second one beginning with what may come
behind a type. -/
theorem Makes.append (h : Makes t P) (h' : Makes u Q) (hu : ∀ rest, Breaks rest → Breaks (u ++ rest)) :
    Makes (t ++ u) fun ts => ∃ as bs, ts = as ++ bs ∧ P as ∧ Q bs := by
  obtain ⟨ks, htext, hread, hks⟩ := h
  obtain ⟨ls, htext', hread', hls⟩ := h'
  refine ⟨ks ++ ls, by rw [texts_append, htext, htext'], fun rest hrest => ?_, fun at_ => ?_⟩
  · rw [readable_append, htext']
    exact ⟨hread _ (hu rest hrest), hread' rest hrest⟩
  · rw [tokens_append]
    exact ⟨_, _, rfl, hks at_, hls _⟩

/-- A single token behind white space. -/
theorem makes_token {raw : Text} {lexeme : Lexeme} (hgap : IsGap gap)
    (hfits : ∀ rest, Breaks rest → Fits ⟨gap, raw, lexeme⟩ rest) :
    Makes (gap ++ raw) fun ts => ∃ t, ts = [t] ∧ t.lexeme = lexeme ∧ t.raw = raw ∧
      t.spaceBefore = !gap.isEmpty ∧ t.docs = [] := by
  refine ⟨[⟨gap, raw, lexeme⟩], by simp [text], fun rest hrest => ⟨hgap, ?_, trivial⟩, fun at_ => ?_⟩
  · simpa using hfits rest hrest
  · exact ⟨_, rfl, rfl, rfl, rfl, rfl⟩

theorem makes_word {w : Text} (hgap : IsGap gap) (hw : Text.isName w = true) :
    Makes (gap ++ w) fun ts => ∃ t, ts = [t] ∧ t.Names ∧ t.raw = w ∧ t.docs = [] := by
  refine (makes_token hgap fun rest hrest => fits_word hw (hrest.stays (by decide)) gap).mono ?_
  rintro ts ⟨t, rfl, hl, rfl, _, hd⟩
  exact ⟨t, rfl, ⟨hl, hw⟩, rfl, hd⟩

/-! ## Literals and names -/

theorem isGap_nil : IsGap [] := by simp [IsGap]

theorem isGap_space : IsGap " " := by
  unfold IsGap
  decide

theorem isGap_gapText (gap : Bool) : IsGap (gapText gap) := by
  cases gap
  · exact isGap_nil
  · exact isGap_space

theorem printed_keyword {name : Text} (hk : name ∈ keywords) : Printed .primary (.keyword name) name := by
  intro gap hgap
  have hname : ∀ k ∈ keywords, Text.isName k = true := by decide
  refine (makes_word hgap (hname name hk)).mono ?_
  rintro ts ⟨t, rfl, ht, rfl, _⟩
  exact .keyword ht hk

theorem printed_boolean {word : Text} (hb : word = "true" ∨ word = "false") :
    Printed .primary (.literal word) word := by
  intro gap hgap
  have hname : Text.isName word = true := by rcases hb with rfl | rfl <;> decide
  refine (makes_word hgap hname).mono ?_
  rintro ts ⟨t, rfl, ht, rfl, _⟩
  exact .boolean ht hb

theorem printed_string {v w : Text} (h : Text.Quotes v w) :
    Printed .primary (.literal (Text.quote v)) ("\"" ++ w ++ "\"") := by
  intro gap hgap
  refine (makes_token hgap fun rest _ => fits_string h gap rest).mono ?_
  rintro ts ⟨t, rfl, hl, _⟩
  exact .string hl

theorem printed_number {raw : Text} (h : Text.isNumeral raw = true) :
    Printed .primary (.literal raw) raw := by
  intro gap hgap
  refine (makes_token hgap fun rest hrest => fits_number h hrest gap).mono ?_
  rintro ts ⟨t, rfl, hl, rfl, _⟩
  exact .number hl

theorem join_cons (sep t : Text) (rest : List Text) :
    Text.join sep (t :: rest) = t ++ rest.flatMap (sep ++ ·) := by
  induction rest generalizing t with
  | nil => simp [Text.join]
  | cons u rest ih => rw [Text.join, ih, List.flatMap_cons]; simp

theorem isName_head {w : Text} (hw : Text.isName w = true) {p : CodePoint → Bool}
    (hp : ∀ c : CodePoint, p c = true → c.beginsWord = false ∨ c.isDigit = true) (s : Text) :
    Stays p (w ++ s) := by
  cases w with
  | nil => cases hw
  | cons c rest =>
    rintro d ⟨⟩
    simp only [Text.isName, Bool.and_eq_true, Bool.not_eq_true'] at hw
    cases hpc : p c with
    | false => rfl
    | true =>
      rcases hp c hpc with hb | hd
      · rw [hb] at hw; cases hw.1.1.1
      · rw [hd] at hw; cases hw.1.2

theorem stays_dotted {names : List Text} (h : DottedText names t) {rest : Text} (hrest : Breaks rest) :
    Stays CodePoint.continuesWord (t ++ rest) := by
  cases h with
  | nil => exact hrest.stays (by decide)
  | cons before behind _ _ =>
    cases before <;> rintro d ⟨⟩ <;> decide

theorem makes_dotted {names : List Text} (h : DottedText names t) :
    ∃ ks, texts ks = t ∧ (∀ rest, Breaks rest → Readable ks rest) ∧
      ∀ at_, Dotted names (tokens at_ ks) := by
  induction h with
  | nil => exact ⟨[], rfl, fun _ _ => trivial, fun _ => .nil⟩
  | @cons w t names before behind hw hnames ih =>
    obtain ⟨ks, rfl, hread, hks⟩ := ih
    refine ⟨⟨gapText before, ".", .mark⟩ :: ⟨gapText behind, w, .word⟩ :: ks, by simp [text],
      fun rest hrest => ?_, fun at_ => ?_⟩
    · have hstays := stays_dotted hnames hrest
      refine ⟨isGap_gapText before, fits_dot ?_ ?_ _, isGap_gapText behind, fits_word hw hstays _,
        hread rest hrest⟩
      · cases behind with
        | false =>
          rw [texts_cons, List.append_assoc]
          exact isName_head hw (fun c hc => .inl (by rw [beq_iff_eq.1 hc]; decide)) _
        | true => rintro d ⟨⟩; decide
      · cases behind with
        | false =>
          rw [texts_cons, List.append_assoc]
          exact isName_head hw (fun c hc => .inr hc) _
        | true => rintro d ⟨⟩; decide
    · exact .cons (w := Chunk.token ⟨gapText behind, w, .word⟩ _) ⟨rfl, rfl⟩ ⟨rfl, hw⟩ (hks _)

theorem makes_qualified {w : Text} {names : List Text} (hgap : IsGap gap) (hw : Text.isName w = true)
    (hdotted : DottedText names t) (hlead : w ∉ leadingWords)
    (hreserved : names = [] → w ∉ reservedWords) :
    Makes (gap ++ (w ++ t)) (Qualified (Text.join "." (w :: names))) := by
  obtain ⟨ks, rfl, hread, hks⟩ := makes_dotted hdotted
  refine ⟨⟨gap, w, .word⟩ :: ks, by simp [text],
    fun rest hrest => ⟨hgap, fits_word hw (stays_dotted hdotted hrest) gap, hread rest hrest⟩,
    fun at_ => ?_⟩
  have hdots := hks (at_ + (text ⟨gap, w, .word⟩).length)
  refine .mk (w := Chunk.token ⟨gap, w, .word⟩ _) ⟨rfl, hw⟩ hdots hlead fun hts => hreserved ?_
  have hlen := hdots.length_le
  rw [hts] at hlen
  exact List.eq_nil_of_length_eq_zero (Nat.le_zero.1 hlen)

/-- Names with nothing but a dot before each. -/
theorem dottedText_flatMap {names : List Text} (h : ∀ v ∈ names, Text.isName v = true) :
    DottedText names (names.flatMap (Text.ofString "." ++ ·)) := by
  induction names with
  | nil => exact .nil
  | cons w names ih =>
    have := DottedText.cons false false (h w List.mem_cons_self)
      (ih fun v hv => h v (List.mem_cons_of_mem _ hv))
    simpa [gapText] using this

theorem makes_joined {w : Text} {names : List Text} (hgap : IsGap gap)
    (hnames : ∀ v ∈ w :: names, Text.isName v = true) (hlead : w ∉ leadingWords)
    (hreserved : names = [] → w ∉ reservedWords) :
    Makes (gap ++ Text.join "." (w :: names)) (Qualified (Text.join "." (w :: names))) := by
  have hdotted := dottedText_flatMap fun v hv => hnames v (List.mem_cons_of_mem _ hv)
  have := makes_qualified hgap (hnames w List.mem_cons_self) hdotted hlead hreserved
  rwa [← join_cons] at this

theorem printed_name {w : Text} {names : List Text}
    (hnames : ∀ v ∈ w :: names, Text.isName v = true) (hlead : w ∉ leadingWords)
    (hreserved : names = [] → w ∉ reservedWords) (x : Text) :
    Printed .primary (.reference (Text.join "." (w :: names)) [] x) (Text.join "." (w :: names)) := by
  intro gap hgap
  exact (makes_joined hgap hnames hlead hreserved).mono fun ts h => .name h

/-- The text of a reference without arguments is read as that reference. -/
theorem printed_reference {name : Text} (h : ReferenceText name t) (hreserved : name ∉ reservedWords)
    (x : Text) : Printed .primary (.reference name [] x) t := by
  intro gap hgap
  cases h with
  | name hw hlead hdotted =>
    refine (makes_qualified hgap hw hdotted hlead ?_).mono fun ts h => .name h
    rintro rfl
    exact hreserved
  | brackets behind hw hlead hdotted =>
    have hname := makes_qualified hgap hw hdotted hlead (by rintro rfl; exact hreserved)
    have hopen := (makes_nil.behind (m := ">") (isGap_gapText behind) (by decide)).behind (m := "<")
      isGap_nil (by decide)
    have := hname.append hopen fun rest _ => breaks_mark (m := "<") (by decide) _
    simp only [List.nil_append, List.append_nil, List.append_assoc] at this ⊢
    refine this.mono ?_
    rintro ts ⟨as, _, rfl, has, o, _, rfl, ho, hspace, _, k, _, rfl, hk, _, _, rfl⟩
    exact .application [] has ho hspace hk (by simp) .nil

/-- The text of a literal is read as that literal. -/
theorem printed_literal (h : LiteralText t) : Printed .primary (.literal t) t := by
  cases h with
  | string value => exact printed_string (Text.quoteInside_quotes value)
  | number hraw => exact printed_number hraw
  | boolean hb => exact printed_boolean hb
  | @negative raw behind hraw =>
    intro gap hgap
    have := ((makes_token (isGap_gapText behind) fun rest hrest => fits_number hraw hrest _).behind
      (m := "-") hgap (by decide))
    simp only [List.append_assoc] at this ⊢
    refine this.mono ?_
    rintro ts ⟨m, _, rfl, hm, _, _, t, rfl, ht, rfl, hspace, _⟩
    have hgaps : gapText t.spaceBefore = gapText behind := by cases behind <;> rw [hspace] <;> rfl
    have := Spelled.negative hm ht
    simpa [spell_cons, hm.2, hgaps] using this

/-! ## Operators and brackets -/

theorem Printed.mono {tier' : Tier} (h : Printed tier e t)
    (hs : ∀ ts, Spelled tier e ts → Spelled tier' e ts) : Printed tier' e t :=
  fun gap hgap => (h gap hgap).mono hs

/-- A closing bracket right behind a text. -/
theorem Makes.close (h : Makes t P) (hgap : IsGap gap) (hm : m ∈ plainMarks.map fun c => [c])
    (hb : ∀ rest, Breaks (gap ++ m ++ rest)) :
    Makes (t ++ (gap ++ m)) fun ts => ∃ as k, ts = as ++ [k] ∧ P as ∧ k.Marks m := by
  have hmark := makes_nil.behind hgap hm
  rw [List.append_nil] at hmark
  refine (h.append hmark fun rest _ => hb rest).mono ?_
  rintro ts ⟨as, bs, rfl, has, k, cs, rfl, hk, _, _, rfl⟩
  exact ⟨as, k, rfl, has, hk⟩

theorem Printed.parenthesized (h : Printed .union e t) : Printed .primary e ("(" ++ t ++ ")") := by
  intro gap hgap
  have hinner := (h [] isGap_nil).close (m := ")") isGap_nil (by decide) fun rest =>
    breaks_mark (by decide) rest
  have := hinner.behind (m := "(") hgap (by decide)
  simp only [List.nil_append, List.append_assoc] at this ⊢
  refine this.mono ?_
  rintro ts ⟨o, _, rfl, ho, _, _, as, k, rfl, has, hk⟩
  exact .parenthesized ho hk has

theorem Printed.array (h : Printed .operand e t) (x : Text) :
    Printed .operand (.array e x) (t ++ "[]") := by
  intro gap hgap
  have hbrackets := (makes_nil.behind (m := "]") isGap_nil (by decide)).behind (m := "[") isGap_nil (by decide)
  have := (h gap hgap).append hbrackets fun rest _ => breaks_mark (m := "[") (by decide) _
  simp only [List.nil_append, List.append_assoc] at this ⊢
  refine this.mono ?_
  rintro ts ⟨as, _, rfl, has, o, _, rfl, ho, hspace, hline, k, _, rfl, hk, _, _, rfl⟩
  exact .array has ho hline hk

/-! ## Several types -/

section Several
variable {ps : List (TypeExpr × Text)}

/-- Tokens of several types, in runs that are put together as `R` says. -/
def Runs (R : List (List Token) → List Token → Prop) (tier : Tier) (es : List TypeExpr)
    (ts : List Token) : Prop :=
  ∃ parts : List (TypeExpr × List Token), parts.map (·.1) = es ∧
    (∀ p ∈ parts, Spelled tier p.1 p.2) ∧ R (parts.map (·.2)) ts

theorem makes_separated {before : Text} (hne : ps ≠ []) (h : ∀ p ∈ ps, Printed tier p.1 p.2)
    (hbefore : IsGap before) (hm : m ∈ plainMarks.map fun c => [c])
    (hb : ∀ rest, Breaks (before ++ m ++ rest)) (hgap : IsGap gap) :
    Makes (gap ++ Text.join (before ++ m ++ " ") (ps.map (·.2))) (Runs (Separated m) tier (ps.map (·.1))) := by
  induction ps generalizing gap with
  | nil => exact absurd rfl hne
  | cons q ps ih =>
    have hq := h q List.mem_cons_self gap hgap
    cases ps with
    | nil =>
      refine hq.mono fun ts hts => ⟨[(q.1, ts)], rfl, ?_, .one ts⟩
      exact fun p hp => List.mem_singleton.1 hp ▸ hts
    | cons q' ps =>
      have hrest := ih (List.cons_ne_nil _ _) (fun d hd => h d (List.mem_cons_of_mem _ hd)) isGap_space
      have hboth := hq.append (hrest.behind hbefore hm) fun rest _ => by
        rw [List.append_assoc]; exact hb _
      simp only [List.append_assoc, List.map_cons, Text.join] at hboth ⊢
      refine hboth.mono ?_
      rintro ts ⟨as, _, rfl, has, k, bs, rfl, hk, _, _, parts, hes, hparts, hbs⟩
      refine ⟨(q.1, as) :: parts, by simp [hes], List.forall_mem_cons.2 ⟨has, hparts⟩, ?_⟩
      exact .more hk hbs

theorem makes_listed (h : ∀ p ∈ ps, Printed tier p.1 p.2) :
    Makes (Text.join ", " (ps.map (·.2))) (Runs Listed tier (ps.map (·.1))) := by
  cases ps with
  | nil => exact makes_nil.mono fun ts hts => ⟨[], rfl, by simp, hts ▸ .nil⟩
  | cons q ps =>
    refine (makes_separated (m := ",") (List.cons_ne_nil _ _) h isGap_nil
      (by decide) (fun rest => breaks_mark (by decide) rest) isGap_nil).mono ?_
    rintro ts ⟨parts, hes, hparts, hts⟩
    exact ⟨parts, hes, hparts, .some hts⟩

theorem printed_tuple (h : ∀ p ∈ ps, Printed .union p.1 p.2) (x : Text) :
    Printed .primary (.tuple (ps.map (·.1)) x false) ("[" ++ Text.join ", " (ps.map (·.2)) ++ "]") := by
  intro gap hgap
  have hinner := (makes_listed h).close (m := "]") isGap_nil (by decide) fun rest =>
    breaks_mark (by decide) rest
  have := hinner.behind (m := "[") hgap (by decide)
  simp only [List.nil_append, List.append_assoc] at this ⊢
  refine this.mono ?_
  rintro ts ⟨o, _, rfl, ho, _, _, as, k, rfl, ⟨parts, hes, hparts, has⟩, hk⟩
  rw [← hes]
  exact .tuple parts ho hk hparts has

theorem printed_application {w : Text} {names : List Text} (h : ∀ p ∈ ps, Printed .union p.1 p.2)
    (hnames : ∀ v ∈ w :: names, Text.isName v = true) (hlead : w ∉ leadingWords)
    (hreserved : names = [] → w ∉ reservedWords) (x : Text) :
    Printed .primary (.reference (Text.join "." (w :: names)) (ps.map (·.1)) x)
      (Text.join "." (w :: names) ++ "<" ++ Text.join ", " (ps.map (·.2)) ++ ">") := by
  intro gap hgap
  have hinner := (makes_listed h).close (m := ">") isGap_nil (by decide) fun rest =>
    breaks_mark (by decide) rest
  have := (makes_joined hgap hnames hlead hreserved).append
    (hinner.behind (m := "<") isGap_nil (by decide)) fun rest _ => breaks_mark (m := "<") (by decide) _
  simp only [List.nil_append, List.append_assoc] at this ⊢
  refine this.mono ?_
  rintro ts ⟨as, _, rfl, has, o, _, rfl, ho, hspace, _, bs, k, rfl, ⟨parts, hes, hparts, hbs⟩, hk⟩
  rw [← hes]
  exact .application parts has ho hspace hk hparts hbs

theorem printed_union (hlen : 2 ≤ ps.length) (h : ∀ p ∈ ps, Printed .intersection p.1 p.2) (x : Text) :
    Printed .union (.union (ps.map (·.1)) x) (Text.join " | " (ps.map (·.2))) := by
  intro gap hgap
  refine (makes_separated (m := "|") (by rintro rfl; cases hlen) h isGap_space
    (by decide) (fun rest => breaks_mark (m := " ") (by decide) _) hgap).mono ?_
  rintro ts ⟨parts, hes, hparts, hts⟩
  have hsame : parts.length = ps.length := by simpa using congrArg List.length hes
  rw [← hes]
  exact .union parts (by omega) hparts hts

theorem printed_intersection (hlen : 2 ≤ ps.length) (h : ∀ p ∈ ps, Printed .operand p.1 p.2)
    (x : Text) : Printed .intersection (.intersection (ps.map (·.1)) x) (Text.join " & " (ps.map (·.2))) := by
  intro gap hgap
  refine (makes_separated (m := "&") (by rintro rfl; cases hlen) h isGap_space
    (by decide) (fun rest => breaks_mark (m := " ") (by decide) _) hgap).mono ?_
  rintro ts ⟨parts, hes, hparts, hts⟩
  have hsame : parts.length = ps.length := by simpa using congrArg List.length hes
  rw [← hes]
  exact .intersection parts (by omega) hparts hts

end Several

/-! ## Members -/

/-- The text is a way to write the name of a member. -/
inductive NameText (name : Text) : Text → Prop where
  | word : Text.isName name = true → NameText name name
  | string {w : Text} : Text.Quotes name w → NameText name ("\"" ++ w ++ "\"")

/-- A question mark if a member is optional. -/
def optionalMark (isOptional : Bool) : Text := if isOptional then "?" else []

section Members
variable {member : Property TypeExpr} {ps : List (Property TypeExpr × Text)} {n : Property TypeExpr → Text} {before : Text}

theorem makes_name {nt : Text} (h : NameText member.name nt) (hgap : IsGap gap) :
    Makes (gap ++ nt) fun ts => ∃ t, ts = [t] ∧ (t.Names ∨ t.isString = true) ∧
      t.value = member.name ∧ t.docs = [] := by
  cases h with
  | word hname =>
    refine (makes_word hgap hname).mono ?_
    rintro ts ⟨t, rfl, ht, hraw, hd⟩
    exact ⟨t, rfl, .inl ht, by rw [Token.value, ht.1, hraw], hd⟩
  | string hq =>
    refine (makes_token hgap fun rest _ => fits_string hq gap rest).mono ?_
    rintro ts ⟨t, rfl, hl, _, _, hd⟩
    exact ⟨t, rfl, .inr (by rw [Token.isString, hl]), by rw [Token.value, hl], hd⟩

/-- The text of a member. -/
def memberText (name : Text) (isOptional : Bool) (type : Text) : Text :=
  name ++ optionalMark isOptional ++ ": " ++ type ++ ";"

theorem makes_member {nt t : Text} (hname : NameText member.name nt) (hdocs : member.docs = {})
    (htype : Printed .union member.type t) (hgap : IsGap gap) :
    Makes (gap ++ memberText nt member.isOptional t) fun ts => ∃ g : Signature, g.member = member ∧
      g.Fits ∧ Spelled .union g.member.type g.type ∧ ts = g.tokens := by
  have hend := (htype " " isGap_space).close (m := ";") isGap_nil (by decide) fun rest =>
    breaks_mark (by decide) rest
  have hcolon := hend.behind (m := ":") isGap_nil (by decide)
  have hnt := makes_name hname hgap
  have hempty : DocComment.ofBlocks [] = {} := by decide
  cases hopt : member.isOptional with
  | false =>
    have := hnt.append hcolon fun rest _ => breaks_mark (m := ":") (by decide) _
    simp only [memberText, optionalMark, List.nil_append, List.append_assoc] at this ⊢
    refine this.mono ?_
    rintro ts ⟨_, _, rfl, ⟨n, rfl, hkind, hvalue, hd⟩, c, _, rfl, hc, _, _, as, k, rfl, has, hk⟩
    exact ⟨⟨member, n, [], c, as, k⟩, rfl,
      ⟨hkind, hvalue, by rw [hd, hempty, hdocs], .inl ⟨rfl, hopt⟩, hc, hk⟩, has, rfl⟩
  | true =>
    have := hnt.append (hcolon.behind (m := "?") isGap_nil (by decide)) fun rest _ =>
      breaks_mark (m := "?") (by decide) _
    simp only [memberText, optionalMark, List.nil_append, List.append_assoc] at this ⊢
    refine this.mono ?_
    rintro ts ⟨_, _, rfl, ⟨n, rfl, hkind, hvalue, hd⟩, q, _, rfl, hq, _, _, c, _, rfl, hc, _, _, as, k, rfl,
      has, hk⟩
    exact ⟨⟨member, n, [q], c, as, k⟩, rfl,
      ⟨hkind, hvalue, by rw [hd, hempty, hdocs], .inr ⟨q, rfl, hq, hopt⟩, hc, hk⟩, has, rfl⟩

/-- The text is one for the member, whose name is written as `n` says. -/
structure PrintedMember (n : Property TypeExpr → Text) (member : Property TypeExpr) (t : Text) : Prop where
  name : NameText member.name (n member)
  docs : member.docs = {}
  type : Printed .union member.type t

/-- Members, each behind some white space. -/
theorem makes_members (h : ∀ p ∈ ps, PrintedMember n p.1 p.2) (hgap : IsGap gap)
    (hb : ∀ rest, Breaks (gap ++ rest)) :
    Makes (ps.flatMap fun p => gap ++ memberText (n p.1) p.1.isOptional p.2) fun ts =>
      ∃ gs : List Signature, gs.map (·.member) = ps.map (·.1) ∧ (∀ g ∈ gs, g.Fits) ∧
        (∀ g ∈ gs, Spelled .union g.member.type g.type) ∧ ts = gs.flatMap (·.tokens) := by
  induction ps with
  | nil => exact makes_nil.mono fun ts hts => ⟨[], rfl, by simp, by simp, hts⟩
  | cons p ps ih =>
    obtain ⟨hname, hdocs, htype⟩ := h p List.mem_cons_self
    have hp := makes_member hname hdocs htype hgap
    have hps := ih fun q hq => h q (List.mem_cons_of_mem _ hq)
    rw [List.flatMap_cons]
    refine (hp.append hps fun rest hrest => ?_).mono ?_
    · cases ps with
      | nil => exact hrest
      | cons q ps => rw [List.flatMap_cons, List.append_assoc, List.append_assoc]; exact hb _
    · rintro ts ⟨as, bs, rfl, ⟨g, hmember, hfits, hg, rfl⟩, gs, hmembers, hgs, hspelled, rfl⟩
      exact ⟨g :: gs, by rw [List.map_cons, List.map_cons, hmember, hmembers],
        List.forall_mem_cons.2 ⟨hfits, hgs⟩, List.forall_mem_cons.2 ⟨hg, hspelled⟩, rfl⟩

theorem printed_object (h : ∀ p ∈ ps, PrintedMember n p.1 p.2) (hbefore : IsGap before)
    (hb : ∀ rest, Breaks (before ++ rest)) {last : Text} (hlast : IsGap last)
    (hl : ∀ rest, Breaks (last ++ "\x7d" ++ rest)) (x : Text) :
    Printed .primary (.object (ps.map (·.1)) x)
      ("\x7b" ++ (ps.flatMap fun p => before ++ memberText (n p.1) p.1.isOptional p.2) ++ (last ++ "\x7d")) := by
  intro gap hgap
  have hinner := (makes_members h hbefore hb).close hlast (by decide) hl
  have := hinner.behind (m := "\x7b") hgap (by decide)
  simp only [List.append_assoc] at this ⊢
  refine this.mono ?_
  rintro ts ⟨o, _, rfl, ho, _, _, as, k, rfl, ⟨gs, hmembers, hfits, hgs, rfl⟩, hk⟩
  rw [← hmembers]
  exact .object gs ho hk hfits hgs

end Members

/-! ## Whole texts -/

/-- A text that spells a type is read as that type, up to the texts it keeps. -/
theorem Printed.parse (h : Printed .union e t) :
    ∃ found, TypeExpr.parse t = .ok found ∧ found.bare = e.bare := by
  obtain ⟨ks, htext, hread, hks⟩ := h [] isGap_nil
  rw [List.nil_append] at htext
  have hreadable : Readable ks [] := hread [] breaks_nil
  obtain ⟨last, hlast, htokens⟩ := hreadable.tokenize_eq
  rw [htext] at htokens
  have hlen : (tokens 0 ks).length ≤ t.length + 1 := by
    have := hreadable.length_le
    rw [htext] at this
    rw [tokens_length]
    omega
  obtain ⟨found, hbare, honly⟩ := (hks 0).only_ofTokens hlen hlast .trailingAfterType
  refine ⟨found, ?_, hbare⟩
  rw [TypeExpr.parse, htokens]
  show (only (Rules.of t).type .trailingAfterType (Cursor.ofTokens (tokens 0 ks ++ [last]))).bind
    (fun x => .ok x.1) = _
  rw [honly]
  rfl

end

end TypeGrammar

end WireSchema

/-!
## Parsing undoes printing

A printer for the structural types: keywords, literals, references, arrays,
tuples, object shapes, unions and intersections. What it prints is read as the
very type, up to the texts that types keep.
-/

namespace WireSchema

open TypeGrammar

namespace TypeExpr

def isUnion : TypeExpr → Bool
  | union .. => true
  | _ => false

def isIntersection : TypeExpr → Bool
  | intersection .. => true
  | _ => false

/-- The type has a mark between its parts. -/
def isChained (e : TypeExpr) : Bool := e.isUnion || e.isIntersection

/-- A text between parentheses if there is need for them. -/
def parenthesize (needed : Bool) (t : Text) : Text := if needed then "(" ++ t ++ ")" else t

mutual

/-- The text of a type. A union or an intersection stands between parentheses as
an array element or a member of an intersection, a union also as a member of a
union. -/
def print : TypeExpr → Text
  | keyword name => name
  | literal text => text
  | template _ text => text
  | array element _ => parenthesize element.isChained (print element) ++ "[]"
  | tuple elements _ _ => "[" ++ Text.join ", " (printAll (fun _ => false) elements) ++ "]"
  | object members _ => "\x7b" ++ printMembers members ++ " \x7d"
  | union members _ => Text.join " | " (printAll isUnion members)
  | intersection members _ => Text.join " & " (printAll isChained members)
  | reference name [] _ => name
  | reference name (first :: rest) _ =>
    name ++ "<" ++ Text.join ", " (print first :: printAll (fun _ => false) rest) ++ ">"
  | verbatim text _ => text

/-- The texts of several types, those that are `loose` between parentheses. -/
def printAll (loose : TypeExpr → Bool) : List TypeExpr → List Text
  | [] => []
  | e :: rest => parenthesize (loose e) (print e) :: printAll loose rest

/-- The text of members, each behind a space. -/
def printMembers : List (Property TypeExpr) → Text
  | [] => []
  | ⟨name, isOptional, type, _⟩ :: rest =>
    " " ++ memberText (Text.quote name) isOptional (print type) ++ printMembers rest

end

@[simp] theorem printAll_eq_map (loose : TypeExpr → Bool) (es : List TypeExpr) :
    printAll loose es = es.map fun e => parenthesize (loose e) (print e) := by
  induction es with
  | nil => rfl
  | cons e rest ih => simp [printAll, ih]

@[simp] theorem printMembers_eq_flatMap (ms : List (Property TypeExpr)) :
    printMembers ms =
      ms.flatMap fun m => Text.ofString " " ++ memberText (Text.quote m.name) m.isOptional (print m.type) := by
  induction ms with
  | nil => rfl
  | cons m rest ih => cases m; simp [printMembers, ih]

/-- The types that the printer is for. A reference has a name of words that mean
nothing to the grammar, with dots between them. -/
inductive Structural : TypeExpr → Prop where
  | keyword {name : Text} : name ∈ keywords → Structural (.keyword name)
  | string (value : Text) : Structural (.literal (Text.quote value))
  | number {raw : Text} : Text.isNumeral raw = true → Structural (.literal raw)
  | boolean {word : Text} : word = "true" ∨ word = "false" → Structural (.literal word)
  | array {element : TypeExpr} {text : Text} : Structural element → Structural (.array element text)
  | tuple {elements : List TypeExpr} {text : Text} :
    (∀ e ∈ elements, Structural e) → Structural (.tuple elements text false)
  | object {members : List (Property TypeExpr)} {text : Text} :
    (∀ m ∈ members, m.docs = {}) → (∀ m ∈ members, Structural m.type) →
    Structural (.object members text)
  | union {members : List TypeExpr} {text : Text} :
    2 ≤ members.length → (∀ e ∈ members, Structural e) → Structural (.union members text)
  | intersection {members : List TypeExpr} {text : Text} :
    2 ≤ members.length → (∀ e ∈ members, Structural e) → Structural (.intersection members text)
  | reference {first text : Text} {others : List Text} {arguments : List TypeExpr} :
    (∀ w ∈ first :: others, Text.isName w = true ∧ w ∉ reservedWords) →
    (∀ e ∈ arguments, Structural e) →
    Structural (.reference (Text.join "." (first :: others)) arguments text)

/-- The tier whose marks stand at the top of the printed type. -/
def tier : TypeExpr → Tier
  | union .. => .union
  | intersection .. => .intersection
  | array .. => .operand
  | _ => .primary

end TypeExpr

namespace TypeGrammar

open TypeExpr

section
variable {e : TypeExpr} {t : Text}

theorem Printed.to_union {tier : Tier} (h : Printed tier e t) : Printed .union e t :=
  match tier with
  | .primary => h.mono fun _ hs => .alternative (.single (.operand hs))
  | .operand => h.mono fun _ hs => .alternative (.single hs)
  | .intersection => h.mono fun _ hs => .alternative hs
  | .union => h

/-- Between parentheses any type is an operand. -/
theorem Printed.to_operand (h : Printed e.tier e t) :
    Printed .operand e (parenthesize e.isChained t) := by
  cases e
  case union => exact h.parenthesized.mono fun _ hs => .operand hs
  case intersection => exact h.to_union.parenthesized.mono fun _ hs => .operand hs
  case array => exact h
  all_goals exact h.mono fun _ hs => .operand hs

/-- Between parentheses a union is a member of a union. -/
theorem Printed.to_intersection (h : Printed e.tier e t) :
    Printed .intersection e (parenthesize e.isUnion t) := by
  cases e
  case union => exact h.parenthesized.mono fun _ hs => .single (.operand hs)
  case intersection => exact h
  case array => exact h.mono fun _ hs => .single hs
  all_goals exact h.mono fun _ hs => .single (.operand hs)

end

/-- What is printed of a structural type is read as the type. -/
theorem printed_print {e : TypeExpr} (h : Structural e) : Printed e.tier e e.print := by
  induction h with
  | keyword hk => exact printed_keyword hk
  | string value => exact printed_string (Text.quoteInside_quotes value)
  | number hraw => exact printed_number hraw
  | boolean hb => exact printed_boolean hb
  | array _ ih => exact ih.to_operand.array _
  | @tuple elements text _ ih =>
    rw [print, printAll_eq_map]
    have := @printed_tuple (elements.map fun e => (e, print e))
      (List.forall_mem_map.2 fun e he => (ih e he).to_union) text
    simp only [List.map_map, Function.comp_def, List.map_id'] at this
    exact this
  | @object members text hdocs _ ih =>
    rw [print, printMembers_eq_flatMap]
    have := @printed_object (members.map fun m => (m, print m.type)) (fun m => Text.quote m.name) _
      (List.forall_mem_map.2 fun m hm =>
        ⟨.string (Text.quoteInside_quotes m.name), hdocs m hm, (ih m hm).to_union⟩)
      isGap_space (fun rest => breaks_mark (by decide) rest) _ isGap_space
      (fun rest => breaks_mark (m := " ") (by decide) _) text
    simp only [List.map_map, Function.comp_def, List.map_id', List.flatMap_map] at this
    exact this
  | @union members text hlen _ ih =>
    rw [print, printAll_eq_map]
    have := @printed_union (members.map fun e => (e, parenthesize e.isUnion (print e)))
      (by simpa using hlen) (List.forall_mem_map.2 fun e he => (ih e he).to_intersection) text
    simp only [List.map_map, Function.comp_def, List.map_id'] at this
    exact this
  | @intersection members text hlen _ ih =>
    rw [print, printAll_eq_map]
    have := @printed_intersection (members.map fun e => (e, parenthesize e.isChained (print e)))
      (by simpa using hlen) (List.forall_mem_map.2 fun e he => (ih e he).to_operand) text
    simp only [List.map_map, Function.comp_def, List.map_id'] at this
    exact this
  | @reference first text others arguments hnames _ ih =>
    have hlead : first ∉ leadingWords := fun hl =>
      (hnames first List.mem_cons_self).2 (List.mem_append_left _ (List.mem_append_left _ hl))
    have hreserved : others = [] → first ∉ reservedWords := fun _ =>
      (hnames first List.mem_cons_self).2
    cases arguments with
    | nil => exact printed_name (fun w hw => (hnames w hw).1) hlead hreserved text
    | cons a rest =>
      rw [print, printAll_eq_map]
      have := @printed_application ((a :: rest).map fun e => (e, print e)) _ _
        (List.forall_mem_map.2 fun e he => (ih e he).to_union) (fun w hw => (hnames w hw).1)
        hlead hreserved text
      simp only [List.map_map, Function.comp_def, List.map_id'] at this
      exact this

end TypeGrammar

namespace TypeExpr

/-- Parsing the printed text of a structural type takes the whole text and gives
the type back, up to the texts that types keep. -/
theorem parse_print {e : TypeExpr} (h : Structural e) :
    ∃ found, parse e.print = .ok found ∧ found.bare = e.bare :=
  (printed_print h).to_union.parse

/-- `("s" | { "a b"?: N.M<1>; })[]` is such a type. -/
theorem parse_print_union_array :
    let e : TypeExpr := .array (.union [.literal (Text.quote "s"), .object [⟨"a b", true,
      .reference (Text.join "." ["N", "M"]) [.literal "1"] [], {}⟩] []] []) []
    e.print = "(\"s\" | \x7b \"a b\"?: N.M<1>; \x7d)[]" ∧ Structural e ∧
      ∃ found, parse e.print = .ok found ∧ found.bare = e.bare := by
  intro e
  have h : Structural e := by
    refine .array (.union (by decide) ?_)
    simp only [List.forall_mem_cons, List.not_mem_nil, false_implies, implies_true, and_true]
    refine ⟨.string "s", .object (by simp) ?_⟩
    simp only [List.forall_mem_cons, List.not_mem_nil, false_implies, implies_true, and_true]
    refine .reference (by decide) ?_
    simp only [List.forall_mem_cons, List.not_mem_nil, false_implies, implies_true, and_true]
    exact .number (by decide)
  exact ⟨by decide, h, parse_print h⟩

end TypeExpr

end WireSchema
