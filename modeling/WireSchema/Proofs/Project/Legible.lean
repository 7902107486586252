import WireSchema.Proofs.Grammar.Visible
import WireSchema.Proofs.Project.History
import WireSchema.Proofs.Project.Origin
/-!
# Texts of a project

What a project has been read from leaves it no blank text: the names of its
declarations, the texts of all types in them and the values of its enumerations
can be seen.
-/

namespace WireSchema

open Source Source.Cursor Source.Parser

/-! ## Numbers -/

theorem CodePoint.isBlank_ofChar {c : Char} (h : c.isDigit = true) : (CodePoint.ofChar c).isBlank = false := by
  simp only [Char.isDigit, ge_iff_le, Bool.and_eq_true, decide_eq_true_eq, UInt32.le_iff_toNat_le] at h
  have hlow : 48 ≤ c.toNat := h.1
  have hhigh : c.toNat ≤ 57 := h.2
  have hval : (CodePoint.ofChar c).val = c.toNat := rfl
  rw [CodePoint.isBlank, hval]
  simp only [Bool.or_eq_false_iff, Bool.and_eq_false_iff, decide_eq_false_iff_not, beq_eq_false_iff_ne]
  omega

namespace Text

/-- A number is written with a digit at least. -/
theorem isBlank_ofNat (n : Nat) : isBlank (ofNat n) = false := by
  cases hdigits : Nat.toDigits 10 n with
  | nil => exact absurd hdigits Nat.toDigits_ne_nil
  | cons c rest =>
    have hdigit : c.isDigit = true :=
      Nat.isDigit_of_mem_toDigits (by decide) (by decide) (hdigits ▸ List.mem_cons_self)
    rw [ofNat, hdigits, List.map_cons, isBlank, List.all_cons, CodePoint.isBlank_ofChar hdigit, Bool.false_and]

theorem isBlank_ofInt (n : Int) : isBlank (ofInt n) = false := by
  cases n with
  | ofNat n => exact isBlank_ofNat n
  | negSucc n => exact isBlank_append_right [CodePoint.ofChar '-'] (isBlank_ofNat (n + 1))

end Text

/-! ## Types -/

namespace TypeExpr.Visible

variable {e part : TypeExpr}

theorem text (h : e.Visible) : Text.isBlank e.text = false := by
  cases h <;> assumption

theorem of_holes {spans : List (Span TypeExpr)} (h : ∀ e, .hole e ∈ spans → e.Visible) (hpart : part ∈ holes spans) :
    part.Visible := by
  induction spans with
  | nil => cases hpart
  | cons span rest ih =>
    have hrest := ih fun e he => h e (List.mem_cons_of_mem span he)
    cases span with
    | chunk text => exact hrest hpart
    | hole e =>
      rcases List.mem_cons.1 hpart with rfl | hpart
      · exact h part List.mem_cons_self
      · exact hrest hpart

theorem of_mem_parts (h : e.Visible) (hpart : part ∈ e.parts) : part.Visible := by
  cases h with
  | keyword _ => cases hpart
  | literal _ => cases hpart
  | verbatim _ => cases hpart
  | object _ _ => cases hpart
  | template _ hspans => exact of_holes hspans hpart
  | array _ helement =>
    cases List.mem_singleton.1 hpart
    exact helement
  | @tuple _ _ variadic _ hall =>
    cases variadic with
    | true => cases hpart
    | false => exact hall part hpart
  | union _ _ hall => exact hall part hpart
  | intersection _ _ hall => exact hall part hpart
  | reference _ _ hall => exact hall part hpart

theorem partAt {steps : List Nat} (h : e.Visible) (hpart : e.partAt steps = some part) : part.Visible := by
  induction steps generalizing part with
  | nil =>
    cases hpart
    exact h
  | cons i steps ih =>
    rw [TypeExpr.partAt, Option.bind_eq_some_iff] at hpart
    obtain ⟨whole, hwhole, hpart⟩ := hpart
    exact (ih hwhole).of_mem_parts (List.mem_of_getElem? hpart)

end TypeExpr.Visible

/-! ## Declarations -/

namespace Source.Cursor

variable {source : Text} {limit : Nat} {tokens : List Token} {c d : Cursor}

/-- The cursor stands in the source before tokens of the lexer. -/
def Reading (source : Text) (limit : Nat) (c : Cursor) : Prop := c.Fits source limit ∧ c.Lexed

theorem Reading.here (h : c.Reading source limit) : On source limit c c := ⟨h.1, .refl c⟩

theorem Reading.on (h : c.Reading source limit) (hd : On source limit c d) : d.Reading source limit := by
  obtain ⟨ts, rfl⟩ := hd.reaches
  exact ⟨hd.now, fun t ht => h.2.rest t (List.mem_append_right ts ht), h.2.last⟩

theorem reading_ofTokens (h : tokenize source 0 source.length = .ok tokens) :
    (ofTokens tokens).Reading source (source.length + 2) := by
  have hfits : (ofTokens tokens).Fits source (source.length + 2) :=
    (Cursor.fits_ofTokens (.inl rfl) (Nat.zero_le _) h).mono (by omega)
  obtain ⟨ts, last, rfl, hlexed, hlast⟩ := tokenize_lexed h
  exact ⟨hfits, .ofTokens hlexed hlast⟩

end Source.Cursor

/-- No text of an enumeration's member is blank. -/
def EnumMember.Visible (m : EnumMember) : Prop := ∀ value, m.value = some value → Text.isBlank value = false

/-- No text of what is declared is blank. -/
def DeclarationBody.Visible : DeclarationBody → Prop
  | .interface _ _ members => ∀ m ∈ members, m.type.Visible
  | .typeAlias _ e => e.Visible
  | .enumeration members => ∀ m ∈ members, m.Visible

/-- No text of the declaration is blank. -/
structure Declaration.Visible (d : Declaration) : Prop where
  name : Text.isBlank d.name = false
  body : d.body.Visible

namespace DeclarationGrammar

section
variable {source : Text} {limit : Nat} {rules : Rules} {c : Cursor} (hr : rules.Show source limit)
include hr

theorem shows_interface {docs : DocComment} (h : c.Clear source limit) :
    Answers (interface rules docs) c fun d _ => d.Visible := by
  refine (ends_expect "interface" h.here).answers.bind fun _ c₁ h₁ => ?_
  have hclear₁ := h.on h₁.on
  refine ((TypeGrammar.answers_expectName hclear₁).and (ends_expectName hclear₁.here).answers).bind fun name c₂ h₂ => ?_
  have hclear₂ := hclear₁.on h₂.2.on
  refine (ends_parameters hr.toEnd hclear₂.here).answers.bind fun _ c₃ h₃ => ?_
  have hclear₃ := hclear₂.on h₃
  refine (ends_bases hr.toEnd hclear₃.here).answers.bind fun _ c₄ h₄ => ?_
  exact (TypeGrammar.shows_members hr (hclear₃.on h₄).grow).bind fun members _ hmembers => .pure ⟨h₂.1, hmembers⟩

theorem shows_typeAlias {docs : DocComment} (h : c.Clear source limit) :
    Answers (typeAlias rules docs) c fun d _ => d.Visible := by
  refine (ends_expect "type" h.here).answers.bind fun _ c₁ h₁ => ?_
  have hclear₁ := h.on h₁.on
  refine ((TypeGrammar.answers_expectName hclear₁).and (ends_expectName hclear₁.here).answers).bind fun name c₂ h₂ => ?_
  have hclear₂ := hclear₁.on h₂.2.on
  refine (ends_parameters hr.toEnd hclear₂.here).answers.bind fun _ c₃ h₃ => ?_
  have hclear₃ := hclear₂.on h₃
  refine (ends_expect "=" hclear₃.here).answers.bind fun _ c₄ h₄ => ?_
  exact (hr.types (hclear₃.on h₄.on)).bind fun e _ he => .next fun _ _ => .pure ⟨h₂.1, he⟩

omit hr in
/-- A value that is kept is a quoted string or a number. -/
theorem answers_value (h : c.Clear source limit) :
    Answers value c fun found _ => ∀ value, found.1 = some value → Text.isBlank value = false := by
  have hskip {d : Cursor} : Answers (do
      skipValue
      return (none, none) : Parser (Option Text × Option Int)) d
      fun found _ => ∀ value, found.1 = some value → Text.isBlank value = false :=
    .next fun _ _ => .pure fun value hvalue => by cases hvalue
  unfold value
  refine (ends_accept "-" h.here).answers.bind fun isNegative d hd => ?_
  simp only [answers_peek_bind]
  refine .ite (fun _ => .ite (fun _ => .next fun _ _ => .pure ?_) fun _ => .ite (fun hnumber => .next fun _ e => ?_)
    fun _ => hskip) fun _ => hskip
  · rintro value ⟨⟩
    exact TypeGrammar.isBlank_quote _
  · have hend : d.peek.isEnd = false := Token.not_isEnd_of_isNumber hnumber
    split
    · refine .pure ?_
      rintro value ⟨⟩
      exact Text.isBlank_ofInt _
    · refine .pure ?_
      rintro value ⟨⟩
      exact Text.isBlank_append_right _ ((h.on hd.on).peek hend)

omit hr in
theorem shows_enumMembers (h : c.Clear source limit) :
    Answers enumMembers c fun found _ => ∀ m ∈ found, m.Visible := by
  refine answers_loop (I := fun state d => (∀ m ∈ state.1, m.Visible) ∧ d.Clear source limit) ⟨by simp, h⟩ ?_
  rintro ⟨found, counter⟩ d ⟨hstate, hd⟩
  have hcomma {m : EnumMember} {counter : Option Int} (hm : m.Visible) (e : Cursor) (he : e.Clear source limit) :
      Answers (do
        if ← accept "," then return .again (m :: found, counter)
        else return .done (m :: found).reverse : Parser (Turn (List EnumMember × Option Int) (List EnumMember))) e
        (Rounds (fun state d => (∀ m ∈ state.1, m.Visible) ∧ d.Clear source limit) fun found _ => ∀ m ∈ found, m.Visible) := by
    have hall : ∀ m' ∈ m :: found, m'.Visible := List.forall_mem_cons.2 ⟨hm, hstate⟩
    refine (ends_accept "," he.here).answers.bind fun taken e' he' => ?_
    exact .ite (fun _ => .pure ⟨hall, he.on he'.on⟩) fun _ => .pure fun m' hm' => hall m' (List.mem_reverse.1 hm')
  simp only [answers_sees_bind]
  refine .ite (fun _ => .pure fun m hm => hstate m (List.mem_reverse.1 hm)) fun _ => ?_
  refine (ends_next hd.here).answers.bind fun name e he => .ite (fun _ => answers_rejectAt) fun _ => ?_
  have hclear := hd.on he.2.1
  refine (ends_accept "=" hclear.here).answers.bind fun taken e₁ he₁ => .ite (fun _ => ?_) fun _ => ?_
  · have hclear₁ := hclear.on he₁.on
    refine ((answers_value hclear₁).and (ends_value hclear₁.here).answers).bind ?_
    rintro found e₂ ⟨hfound, he₂⟩
    have hm : EnumMember.Visible { name := name.value, value := found.1 } := hfound
    exact hcomma hm e₂ (hclear₁.on he₂)
  · have hclear₁ := hclear.on he₁.on
    cases counter with
    | none =>
      have hm : EnumMember.Visible { name := name.value, value := none } := fun _ hnone => by cases hnone
      exact hcomma hm e₁ hclear₁
    | some n =>
      have hm : EnumMember.Visible { name := name.value, value := some (Text.ofInt n) } := by
        rintro value ⟨⟩
        exact Text.isBlank_ofInt n
      exact hcomma hm e₁ hclear₁

omit hr in
theorem shows_enumeration {docs : DocComment} (h : c.Clear source limit) :
    Answers (enumeration docs) c fun d _ => d.Visible := by
  refine (ends_expect "enum" h.here).answers.bind fun _ c₁ h₁ => ?_
  have hclear₁ := h.on h₁.on
  refine ((TypeGrammar.answers_expectName hclear₁).and (ends_expectName hclear₁.here).answers).bind fun name c₂ h₂ => ?_
  have hclear₂ := hclear₁.on h₂.2.on
  refine (ends_expect _ hclear₂.here).answers.bind fun _ c₃ h₃ => ?_
  exact (shows_enumMembers (hclear₂.on h₃.on)).bind fun members _ hmembers => .next fun _ _ => .pure ⟨h₂.1, hmembers⟩

end

/-! ## Statements -/

section
variable {source : Text} {limit : Nat} {rules : Rules} {c : Cursor} {I : Cursor → Prop} {P : Declaration → Prop}
  (hfits : ∀ {c}, I c → c.Fits source limit) (hon : ∀ {c d}, I c → On source limit c d → I d)
  (hinterface : ∀ {docs c}, I c → Answers (interface rules docs) c fun d _ => P d)
  (halias : ∀ {docs c}, I c → Answers (typeAlias rules docs) c fun d _ => P d)
  (henumeration : ∀ {docs c}, I c → Answers (enumeration docs) c fun d _ => P d)
include hfits hon hinterface halias henumeration

/-- What holds of every interface, alias and enumeration holds of what a statement declares. -/
theorem answers_statement (h : I c) : Answers (statement rules) c fun found _ => ∀ d ∈ found, P d := by
  have hhere {d : Cursor} (hd : I d) : On source limit d d := ⟨hfits hd, .refl d⟩
  have hskip {d : Cursor} : Answers (do
      skipStatement
      return none : Parser (Option Declaration)) d fun found _ => ∀ d ∈ found, P d :=
    .next fun _ _ => .pure fun d hd => by cases hd
  have hsome {p : Parser Declaration} {d : Cursor} (hp : Answers p d fun found _ => P found) :
      Answers (do return some (← p) : Parser (Option Declaration)) d fun found _ => ∀ d ∈ found, P d := by
    refine hp.bind fun found _ hfound => .pure ?_
    rintro d ⟨⟩
    exact hfound
  have henum {d : Cursor} (hd : I d) {docs : DocComment} : Answers (do
      let c ← get
      if c.sees "enum" && (c.peek 1).isWord then return some (← enumeration docs)
      else
        skipStatement
        return none : Parser (Option Declaration)) d fun found _ => ∀ d ∈ found, P d := by
    simp only [answers_get_bind]
    exact .ite (fun _ => hsome (henumeration hd)) fun _ => hskip
  simp only [statement, answers_peek_bind]
  refine (ends_accept ";" (hhere h)).answers.bind fun taken c₁ h₁ => .ite (fun _ => .pure fun d hd => by cases hd) fun _ => ?_
  have hafter := hon h h₁.on
  simp only [answers_sees_bind]
  refine .ite (fun _ => hskip) fun _ => ?_
  refine Answers.bind (Q := fun _ d => I d) ?_ fun _ d hd => ?_
  · refine answers_loop (I := fun _ d => I d) hafter fun _ d hd => ?_
    refine (ends_acceptEither "export" "declare" (hhere hd)).answers.bind fun taken e he => ?_
    exact .ite (fun _ => .pure (hon hd he.on)) fun _ => .pure (hon hd he.on)
  simp only [answers_get_bind]
  refine .ite (fun _ => hsome (hinterface hd)) fun _ => .ite (fun _ => hsome (halias hd)) fun _ =>
    .ite (fun _ => ?_) fun _ => henum hd
  exact (ends_next (hhere hd)).answers.bind fun _ e he => henum (hon hd he.2.1)

/-- It holds of all that is declared. -/
theorem answers_statements (hr : rules.End source limit) (h : I c) :
    Answers (statements rules) c fun found _ => ∀ d ∈ found, P d := by
  refine answers_loop (I := fun found d => (∀ d ∈ found, P d) ∧ I d) ⟨by simp, h⟩ ?_
  rintro found d ⟨hfound, hd⟩
  simp only [answers_peek_bind]
  refine .ite (fun _ => .pure fun d hd => hfound d (List.mem_reverse.1 hd)) fun hend => ?_
  have hone := answers_statement hfits hon hinterface halias henumeration hd
  have hhere : On source limit d d := ⟨hfits hd, .refl d⟩
  refine (hone.and (ends_statement hr hhere (Bool.eq_false_iff.2 hend)).answers).bind ?_
  rintro one e ⟨hone, he⟩
  refine .pure ⟨fun d hd => ?_, hon hd he.on⟩
  rcases List.mem_append.1 hd with hd | hd
  · exact hone d (Option.mem_toList.1 hd)
  · exact hfound d hd

end

end DeclarationGrammar

/-- No text of a declaration that is read is blank. -/
theorem Declaration.visible_of_parse {source : Text} {declarations : List Declaration}
    (h : parse source = .ok declarations) : ∀ d ∈ declarations, d.Visible := by
  obtain ⟨tokens, htokens, h⟩ := Except.bind_eq_ok.1 h
  obtain ⟨⟨found, after⟩, hfound, heq⟩ := Except.bind_eq_ok.1 h
  cases heq
  have hclear : (ofTokens tokens).Clear source (source.length + 2) :=
    clear_ofTokens (.inl rfl) (Nat.zero_le _) htokens (by omega)
  have hr := Rules.show_upTo source (source.length + 2)
  exact DeclarationGrammar.answers_statements Clear.toFits Clear.on (DeclarationGrammar.shows_interface hr)
    (DeclarationGrammar.shows_typeAlias hr) DeclarationGrammar.shows_enumeration hr.toEnd hclear _ after hfound

/-! ## Projects -/

namespace Project

/-- No text of a declaration in the project is blank. -/
def Visible (p : Project) : Prop := ∀ unit ∈ p.units, ∀ d ∈ unit.declarations, d.Visible

/-- What holds of all declarations that are read holds of all those of the project,
whatever calls are made. -/
theorem declarations_after {P : Declaration → Prop}
    (hparse : ∀ {source declarations}, Declaration.parse source = .ok declarations → ∀ d ∈ declarations, P d)
    (calls : List (Text × Text)) : ∀ unit ∈ (after calls).units, ∀ d ∈ unit.declarations, P d := by
  have hbehind (p : Project) (call : Text × Text) (hp : ∀ unit ∈ p.units, ∀ d ∈ unit.declarations, P d) :
      ∀ unit ∈ (p.behind call).units, ∀ d ∈ unit.declarations, P d := by
    rw [behind]
    cases hadd : p.add call.1 call.2 with
    | error fault => exact hp
    | ok p' =>
      obtain ⟨_, unit, hunit, rfl⟩ := add_eq_ok.1 hadd
      rw [readUnit] at hunit
      intro unit' hmem
      rcases List.mem_append.1 hmem with hmem | hmem
      · exact hp unit' hmem
      · cases List.mem_singleton.1 hmem
        split at hunit
        next declarations hread =>
          cases hunit
          exact hparse hread
        · cases hunit
        · cases hunit
  have hall (calls : List (Text × Text)) (p : Project) (hp : ∀ unit ∈ p.units, ∀ d ∈ unit.declarations, P d) :
      ∀ unit ∈ (calls.foldl behind p).units, ∀ d ∈ unit.declarations, P d := by
    induction calls generalizing p with
    | nil => exact hp
    | cons call rest ih => exact ih _ (hbehind p call hp)
  exact hall calls {} fun unit hunit => by cases hunit

/-- Whatever calls are made, no text in the project is blank. -/
theorem visible_after (calls : List (Text × Text)) : (after calls).Visible :=
  declarations_after Declaration.visible_of_parse calls

/-- What is looked up is a declaration of a unit. -/
theorem mem_of_declaration? {p : Project} {d : DeclarationId} {declaration : Declaration}
    (hd : p.declaration? d = some declaration) : ∃ unit ∈ p.units, declaration ∈ unit.declarations := by
  rw [declaration?] at hd
  obtain ⟨unit, hunit, hd⟩ := Option.bind_eq_some_iff.1 hd
  exact ⟨unit, List.mem_of_getElem? hunit, List.mem_of_getElem? hd⟩

variable {p : Project} (h : p.Visible)
include h

theorem Visible.declaration {d : DeclarationId} {declaration : Declaration} (hd : p.declaration? d = some declaration) :
    declaration.Visible := by
  obtain ⟨unit, hunit, hmem⟩ := mem_of_declaration? hd
  exact h unit hunit declaration hmem

theorem Visible.body {d : DeclarationId} {body : DeclarationBody} (hd : p.body? d = some body) : body.Visible := by
  obtain ⟨declaration, hdeclaration, rfl⟩ := Option.map_eq_some_iff.1 hd
  exact (h.declaration hdeclaration).body

mutual

theorem Visible.rootType {context : Context} {e : TypeExpr} :
    (root : Root) → p.rootType? root = some (context, e) → e.Visible
  | .body d, hroot => by
    rw [rootType?] at hroot
    split at hroot
    next hbody =>
      cases hroot
      exact h.body hbody
    · cases hroot
  | .member owner index, hroot => by
    rw [rootType?, Option.bind_eq_some_iff] at hroot
    obtain ⟨⟨context', members⟩, hmembers, hroot⟩ := hroot
    obtain ⟨m, hm, heq⟩ := Option.map_eq_some_iff.1 hroot
    cases heq
    exact Visible.membersOf owner hmembers m (List.mem_of_getElem? hm)

theorem Visible.membersOf {context : Context} {members : List (Property TypeExpr)} :
    (o : Origin) → p.membersOf? o = some (context, members) → ∀ m ∈ members, m.type.Visible
  | .declaration d, hmembers => by
    rw [membersOf?] at hmembers
    split at hmembers
    next hbody =>
      cases hmembers
      exact h.body hbody
    · cases hmembers
  | .value _ _, hmembers => by
    rw [membersOf?] at hmembers
    cases hmembers
  | .part root steps choice, hmembers => by
    rw [membersOf?] at hmembers
    split at hmembers
    next context' e hroot =>
      split at hmembers
      next hpart =>
        cases hmembers
        cases TypeExpr.Visible.partAt (Visible.rootType root hroot) hpart with
        | object _ hall => exact hall
      · cases hmembers
    · cases hmembers

end

/-- No text of a type anywhere in the project is blank. -/
theorem Visible.partType {root : Root} {steps : List Nat} {context : Context} {e : TypeExpr}
    (hpart : p.partType? root steps = some (context, e)) : e.Visible := by
  obtain ⟨whole, hroot, hpart⟩ := partType?_eq_some.1 hpart
  exact (h.rootType root hroot).partAt hpart

end Project

end WireSchema
