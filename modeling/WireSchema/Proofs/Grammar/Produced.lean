import WireSchema.Proofs.Grammar.Answers
import WireSchema.Proofs.Grammar.Printed
/-!
# What the type parser produces

The parser keeps texts in the types that it answers with. A keyword is one of
the keywords, and the texts of literals and of references without arguments are
those of the tokens that were read.
-/

namespace WireSchema

open Source Source.Parser

namespace TypeExpr

open TypeGrammar

/-- The parts of the type that are written from their texts have texts that were
read. Templates, intersections and verbatim types are not looked into. -/
inductive Lexical : TypeExpr → Prop where
  | keyword {name : Text} : name ∈ keywords → Lexical (.keyword name)
  | literal {text : Text} : LiteralText text → Lexical (.literal text)
  | name {name text : Text} : ReferenceText name text → Lexical (.reference name [] text)
  | application {w text : Text} {names : List Text} {arguments : List TypeExpr} :
    (∀ v ∈ w :: names, Text.isName v = true) → w ∉ leadingWords → arguments ≠ [] →
    (∀ e ∈ arguments, Lexical e) →
    Lexical (.reference (Text.join "." (w :: names)) arguments text)
  | array {element : TypeExpr} {text : Text} : Lexical element → Lexical (.array element text)
  | tuple {elements : List TypeExpr} {text : Text} {variadic : Bool} :
    (∀ e ∈ elements, Lexical e) → Lexical (.tuple elements text variadic)
  | object {members : List (Property TypeExpr)} {text : Text} :
    (∀ m ∈ members, Lexical m.type) → Lexical (.object members text)
  | union {members : List TypeExpr} {text : Text} :
    2 ≤ members.length → (∀ e ∈ members, Lexical e) → Lexical (.union members text)
  | intersection {members : List TypeExpr} {text : Text} : Lexical (.intersection members text)
  | template {spans : List (Span TypeExpr)} {text : Text} : Lexical (.template spans text)
  | verbatim {text : Text} {reason : Unmodelled} : Lexical (.verbatim text reason)

end TypeExpr

namespace TypeGrammar

open TypeExpr

/-! ## Names -/

section
variable {c c' : Cursor}

theorem isName_of_dotted {names : List Text} {ts : List Token} (h : Dotted names ts) :
    ∀ v ∈ names, Text.isName v = true := by
  induction h with
  | nil => simp
  | cons _ hw _ ih => exact List.forall_mem_cons.2 ⟨hw.2, ih⟩

theorem dottedText_of_dotted {names : List Text} {ts : List Token} (h : Dotted names ts) :
    DottedText names (ts.flatMap fun u => gapText u.spaceBefore ++ u.raw) := by
  induction h with
  | nil => exact .nil
  | @cons d w names ts hd hw _ ih =>
    have := DottedText.cons d.spaceBefore w.spaceBefore hw.2 ih
    simpa only [List.flatMap_cons, hd.2, List.append_assoc] using this

theorem dotted_of_rounds {n : Nat} {acc parts : List Text} (hc : c.Lexed)
    (h : rounds qualifiedRound n acc c = .ok (parts, c')) :
    ∃ names ts, Dotted names ts ∧ parts = acc.reverse ++ names ∧ c = c'.before ts ∧ c'.Lexed := by
  induction n generalizing acc c with
  | zero => cases h
  | succ n ih =>
    by_cases hdot : (c.sees "." && (c.peek 1).isWord) = true
    · obtain ⟨hsees, hword⟩ := Bool.and_eq_true_iff.1 hdot
      obtain ⟨d, b, rfl, hd, hb⟩ := hc.exists_mark hsees (by decide)
      obtain ⟨w, b, rfl, hw, hb⟩ := hb.exists_word hword
      have hround : qualifiedRound acc ((b.before [w]).before [d]) = .ok (.again (w.raw :: acc), b) := by
        simp only [qualifiedRound, bind_apply, sees_apply, peek_apply, ok_bind, hdot, if_true]
        rfl
      rw [rounds_again hround] at h
      obtain ⟨names, ts, hnames, rfl, rfl, hc'⟩ := ih hb h
      refine ⟨w.raw :: names, d :: w :: ts, .cons hd hw hnames, ?_, rfl, hc'⟩
      rw [List.reverse_cons, List.append_assoc, List.singleton_append]
    · have hround : qualifiedRound acc c = .ok (.done acc.reverse, c) := by
        simp only [qualifiedRound, bind_apply, sees_apply, peek_apply, ok_bind, hdot]
        rfl
      rw [rounds_done hround (Nat.succ_pos n)] at h
      cases h
      exact ⟨[], [], .nil, (List.append_nil _).symm, rfl, hc⟩

/-- A name takes a word, and dots with a word behind each. -/
theorem qualifiedName_ok {name : Text} (hc : c.Lexed) (h : qualifiedName c = .ok (name, c')) :
    ∃ (w : Token) (names : List Text) (ts : List Token), w.Names ∧ Dotted names ts ∧
      name = Text.join "." (w.raw :: names) ∧ c = c'.before (w :: ts) ∧ c'.Lexed := by
  obtain ⟨first, b, hfirst, h⟩ := bind_ok.1 h
  obtain ⟨parts, d, hparts, h⟩ := bind_ok.1 h
  cases h
  rw [expectName, bind_apply, peek_apply, ok_bind] at hfirst
  by_cases hword : c.peek.isWord = true
  · obtain ⟨w, b, rfl, hw, hb⟩ := hc.exists_word hword
    rw [if_pos hword] at hfirst
    cases hfirst
    obtain ⟨names, ts, hnames, rfl, rfl, hd⟩ := dotted_of_rounds hb hparts
    exact ⟨w, names, ts, hw, hnames, rfl, rfl, hd⟩
  · rw [if_neg hword] at hfirst
    cases hfirst

theorem gives_qualifiedName : Gives qualifiedName fun _ => True := by
  intro c name c' hc h
  obtain ⟨_, _, _, _, _, _, _, hc'⟩ := qualifiedName_ok hc h
  exact ⟨trivial, hc'⟩

/-- A list of items is empty only where its closer comes at once. -/
theorem listed_ok_nil {α : Type} {closer : Text} {item : Parser α} (hitem : Gives item fun _ => True)
    (hc : c.Lexed) (h : listed closer item c = .ok ([], c')) : c.sees closer = true ∧ c' = c := by
  have hmore : ∀ acc : List α, Gives (do
      let items := (← item) :: acc
      if ← accept "," then return .again items
      else return .done items.reverse : Parser (Turn (List α) (List α))) (Keeps (· ≠ []) (· ≠ [])) := by
    intro acc
    refine .bind hitem fun a _ => .bind (gives_accept ",") fun comma _ => ?_
    refine .ite (fun _ => .pure (List.cons_ne_nil a acc)) fun _ => .pure ?_
    show (a :: acc).reverse ≠ []
    simp
  have hround : ∀ acc : List α, acc ≠ [] →
      Gives (listedRound closer item acc) (Keeps (· ≠ []) (· ≠ [])) := by
    intro acc hacc
    refine .bind (gives_sees closer 0) fun closes _ => .ite (fun _ => .pure ?_) fun _ => hmore acc
    show acc.reverse ≠ []
    simpa using hacc
  rw [listed, loop_apply] at h
  by_cases hsees : c.sees closer = true
  · have hround : listedRound closer item [] c = .ok (.done [], c) := by simp [listedRound, hsees]
    rw [rounds_done hround (Nat.succ_pos _)] at h
    cases h
    exact ⟨hsees, rfl⟩
  · obtain ⟨turn, b, hturn, h⟩ := bind_ok.1 h
    rw [listedRound, bind_apply, sees_apply, ok_bind, if_neg hsees] at hturn
    obtain ⟨hkeeps, hb⟩ := hmore [] c turn b hc hturn
    cases turn with
    | again acc =>
      obtain ⟨hne, _⟩ := gives_rounds hround _ hkeeps b [] c' hb h
      exact absurd rfl hne
    | done found =>
      cases h
      exact absurd rfl hkeeps

/-- Type arguments take nothing, or they take angle brackets. -/
theorem typeArguments_ok {rules : Rules} {arguments : List TypeExpr} (htype : Gives rules.type Lexical)
    (hc : c.Lexed) (h : typeArguments rules c = .ok (arguments, c')) :
    c'.Lexed ∧ (∀ e ∈ arguments, Lexical e) ∧
      (arguments = [] → c' = c ∨ ∃ o k : Token, o.Marks "<" ∧ o.spaceBefore = false ∧ k.Marks ">" ∧
        c = c'.before [o, k]) := by
  obtain ⟨b, d, hget, h⟩ := bind_ok.1 h
  cases hget
  by_cases hopen : (c.sees "<" && !c.peek.spaceBefore) = true
  · rw [if_pos hopen] at h
    obtain ⟨hsees, hgap⟩ := Bool.and_eq_true_iff.1 hopen
    obtain ⟨o, b, rfl, ho, hb⟩ := hc.exists_mark hsees (by decide)
    rw [bind_apply, skip_before, ok_bind] at h
    obtain ⟨found, d, hlisted, h⟩ := bind_ok.1 h
    obtain ⟨hfound, hd⟩ := gives_listed ">" htype b found d hb hlisted
    obtain ⟨_, e, hexpect, h⟩ := bind_ok.1 h
    cases h
    obtain ⟨_, he⟩ := gives_expect ">" d () c' hd hexpect
    refine ⟨he, hfound, ?_⟩
    rintro rfl
    obtain ⟨hclose, rfl⟩ := listed_ok_nil htype.any hb hlisted
    obtain ⟨k, d, rfl, hk, hd⟩ := hb.exists_mark hclose (by decide)
    rw [expect_before (by simp [hk.is_eq])] at hexpect
    cases hexpect
    refine .inr ⟨o, k, ho, ?_, hk, rfl⟩
    simpa using hgap
  · rw [if_neg hopen] at h
    cases h
    exact ⟨hc, by simp, fun _ => .inl rfl⟩

/-- A reference keeps the text of its tokens. -/
theorem reference_ok {rules : Rules} {word : Text} (htype : Gives rules.type Lexical) (hc : c.Lexed)
    (hword : c.peek.raw = word) (hlead : word ∉ leadingWords) {e : TypeExpr}
    (h : reference rules c = .ok (e, c')) : Lexical e ∧ c'.Lexed := by
  obtain ⟨start, b, hget, h⟩ := bind_ok.1 h
  cases hget
  obtain ⟨name, b, hname, h⟩ := bind_ok.1 h
  obtain ⟨w, names, ts, hw, hnames, rfl, rfl, hb⟩ := qualifiedName_ok hc hname
  obtain ⟨arguments, d, harguments, h⟩ := bind_ok.1 h
  obtain ⟨hd, hlexical, hnil⟩ := typeArguments_ok htype hb harguments
  cases h
  rw [Cursor.peek_before] at hword
  subst hword
  refine ⟨?_, hd⟩
  cases arguments with
  | nil =>
    rcases hnil rfl with rfl | ⟨o, k, ho, hgap, hk, rfl⟩
    · rw [Cursor.upTo_before, spell_cons]
      exact .name (.name hw.2 hlead (dottedText_of_dotted hnames))
    · rw [← Cursor.before_append, Cursor.upTo_before, List.cons_append, spell_cons]
      have := ReferenceText.brackets k.spaceBefore hw.2 hlead (dottedText_of_dotted hnames)
      simpa [ho.2, hk.2, hgap, gapText] using Lexical.name this
  | cons a rest =>
    refine .application ?_ hlead (List.cons_ne_nil a rest) hlexical
    exact List.forall_mem_cons.2 ⟨hw.2, isName_of_dotted hnames⟩

end

/-! ## Rules -/

section
variable {rules : Rules} (htype : Gives rules.type Lexical) (hoperand : Gives rules.operand Lexical)
include htype

theorem gives_returnType : Gives (returnType rules) Lexical := by
  refine .bind gives_get fun start _ => .bind (gives_sees _ 0) fun asserts _ =>
    .bind (gives_peek 1) fun t _ => .bind (gives_when gives_skip) fun _ _ =>
    .bind htype fun type ht => .bind (gives_accept "is") fun is _ => .ite (fun _ => ?_) fun _ => .pure ht
  exact .bind htype fun _ _ => .bind (gives_textSince start) fun _ _ => .pure .verbatim

theorem gives_functionType : Gives (functionType rules) Lexical := by
  refine .bind gives_get fun start _ => .bind (gives_sees "<" 0) fun _ _ =>
    .bind (gives_when gives_skipBalanced) fun _ _ => .bind (gives_sees "(" 0) fun _ _ =>
    .bind (gives_when (gives_reject _)) fun _ _ => .bind gives_skipBalanced fun _ _ =>
    .bind (gives_expect "=>") fun _ _ => .bind (gives_returnType htype) fun _ _ => ?_
  exact .bind (gives_textSince start) fun _ _ => .pure .verbatim

theorem gives_skipPiece : Gives (skipPiece rules) fun _ => True := by
  refine .bind (gives_peek 0) fun _ _ => .ite (fun _ => gives_skipBalanced) fun _ => ?_
  refine .bind (gives_acceptEither ":" "=>") fun _ _ => .ite (fun _ => ?_) fun _ => gives_skip
  exact .bind htype fun _ _ => .pure trivial

theorem gives_skipSignature : Gives (skipSignature rules) fun _ => True := by
  refine gives_loop (I := fun _ => True) (fun _ _ => ?_) trivial
  refine .bind gives_get fun c _ => .ite (fun _ => .pure trivial) fun _ => ?_
  exact .bind (gives_skipPiece htype) fun _ _ => .pure trivial

theorem gives_resultText : Gives (resultText rules) fun _ => True := by
  refine .bind (gives_accept ":") fun _ _ => .ite (fun _ => ?_) fun _ => .pure trivial
  exact .bind (gives_returnType htype) fun _ _ => .pure trivial

theorem gives_methodType : Gives (methodType rules) Lexical := by
  refine .bind gives_get fun start _ => .bind (gives_sees "<" 0) fun _ _ =>
    .bind (gives_when gives_skipBalanced) fun _ _ => .bind gives_skipBalanced fun _ _ =>
    .bind (gives_textSince start) fun parameters _ => .bind (gives_resultText htype) fun _ _ => ?_
  exact .pure .verbatim

theorem gives_memberType : Gives (memberType rules) Lexical := by
  refine .bind gives_get fun c _ => .ite (fun _ => gives_methodType htype) fun _ => ?_
  refine .bind (gives_accept ":") fun _ _ => .ite (fun _ => htype) fun _ => .pure (.keyword ?_)
  decide

theorem gives_member :
    Gives (member rules) fun found => ∀ m ∈ found, Lexical m.type := by
  have hskipped : Gives (do
      skipSignature rules
      return none : Parser (Option (Property TypeExpr))) fun found => ∀ m ∈ found, Lexical m.type :=
    .bind (gives_skipSignature htype) fun _ _ => .pure (by simp)
  refine .bind (gives_peek 0) fun _ _ => .bind (gives_loop (I := fun _ => True) (fun _ _ => ?_) trivial)
    fun _ (_ : True) => .bind gives_get fun c _ => ?_
  · refine .bind gives_get fun c _ => .ite (fun _ => ?_) fun _ => .pure trivial
    exact .bind gives_next fun _ _ => .pure trivial
  refine .ite (fun _ => hskipped) fun _ => .ite (fun _ => ?_) fun _ => .ite (fun _ => hskipped) fun _ => ?_
  · exact .bind gives_next fun _ _ => hskipped
  refine .bind gives_next fun name _ => .bind (gives_when (gives_rejectAt _ _)) fun _ _ =>
    .bind (gives_accept "?") fun _ _ => .bind (gives_memberType htype) fun type ht => .pure ?_
  rintro m ⟨⟩
  exact ht

theorem gives_members : Gives (members rules) fun found => ∀ m ∈ found, Lexical m.type := by
  have hseparator : Gives (loop separatorRound ()) fun _ => True := by
    refine gives_loop (I := fun _ => True) (fun _ _ => ?_) trivial
    refine .bind (gives_acceptEither ";" ",") fun _ _ => ?_
    exact .ite (fun _ => .pure trivial) fun _ => .pure trivial
  refine .bind (gives_expect _) fun _ _ =>
    .bind (gives_loop (I := fun found => ∀ m ∈ found, Lexical m.type) (fun acc hacc => ?_) (by simp))
    fun found (hfound : ∀ m ∈ found, Lexical m.type) => .bind (gives_expect _) fun _ _ => .pure hfound
  refine .bind gives_get fun c _ => .ite (fun _ => .pure ?_) fun _ => ?_
  · exact fun m hm => hacc m (List.mem_reverse.1 hm)
  refine .bind (gives_when (gives_reject _)) fun _ _ => .bind (gives_member htype) fun found hfound =>
    .bind hseparator fun _ _ => .pure fun m hm => ?_
  rcases List.mem_append.1 hm with hm | hm
  · exact hfound m (Option.mem_toList.1 hm)
  · exact hacc m hm

omit htype in
theorem gives_elementName : Gives elementName fun _ => True := by
  refine .bind gives_get fun c _ => .ite (fun _ => ?_) fun _ => .pure trivial
  exact .bind gives_next fun _ _ => .bind (gives_accept "?") fun _ _ => .bind (gives_expect ":") fun _ _ =>
    .pure trivial

theorem gives_tuple : Gives (tuple rules) Lexical := by
  refine .bind gives_get fun start _ => .bind (gives_expect "[") fun _ _ =>
    .bind (gives_loop (I := fun state => ∀ e ∈ state.1, Lexical e) (fun state hstate => ?_) (by simp))
    fun found (hfound : ∀ e ∈ found.1, Lexical e) => .bind (gives_expect "]") fun _ _ =>
    .bind (gives_textSince start) fun _ _ => .pure (.tuple hfound)
  obtain ⟨elements, variadic⟩ := state
  refine .bind (gives_sees "]" 0) fun _ _ => .ite (fun _ => .pure fun e he => ?_) fun _ => ?_
  · exact hstate e (List.mem_reverse.1 he)
  refine .bind (gives_accept "...") fun _ _ => .bind gives_elementName fun _ _ =>
    .bind htype fun element helement => .bind (gives_accept "?") fun _ _ => .bind (gives_accept ",") fun _ _ => ?_
  have hcons : ∀ e ∈ element :: elements, Lexical e := List.forall_mem_cons.2 ⟨helement, hstate⟩
  exact .ite (fun _ => .pure hcons) fun _ => .pure fun e he => hcons e (List.mem_reverse.1 he)

theorem wordType_ok {word : Text} {c c' : Cursor} {e : TypeExpr} (hc : c.Lexed)
    (hword : c.peek.raw = word) (h : wordType rules word c = .ok (e, c')) : Lexical e ∧ c'.Lexed := by
  obtain ⟨start, b, hget, h⟩ := bind_ok.1 h
  cases hget
  have hverbatim (reason : Unmodelled) : Gives (do
      return .verbatim (← textSince c) reason : Parser TypeExpr) Lexical :=
    .bind (gives_textSince c) fun _ _ => .pure .verbatim
  -- one branch for each word that begins a type, and a name last
  split at h
  next hboolean =>
    exact Gives.bind gives_next (fun _ _ => .pure (.literal (.boolean hboolean))) c e c' hc h
  next hboolean =>
  split at h
  next hnew =>
    refine Gives.bind (gives_loop (I := fun _ => True) (fun _ _ => ?_) trivial) (fun _ (_ : True) =>
      .bind (gives_functionType htype) fun _ _ => hverbatim _) c e c' hc h
    refine .bind gives_get fun c _ => .ite (fun _ => .pure trivial) fun _ => ?_
    exact .bind gives_next fun _ _ => .pure trivial
  next hnew =>
  split at h
  next htypeof =>
    refine Gives.bind gives_next (fun _ _ => .bind gives_qualifiedName fun _ _ => .bind gives_get
      fun _ _ => .bind (gives_when gives_skipBalanced) fun _ _ => hverbatim _) c e c' hc h
  next htypeof =>
  split at h
  next himport =>
    refine Gives.bind gives_next (fun _ _ => .bind gives_skipBalanced fun _ _ =>
      .bind (gives_loop (I := fun _ => True) (fun _ _ => ?_) trivial) fun _ (_ : True) =>
      .bind (gives_sees "<" 0) fun _ _ => .bind (gives_when gives_skipBalanced) fun _ _ => hverbatim _)
      c e c' hc h
    refine .bind (gives_accept ".") fun _ _ => .ite (fun _ => ?_) fun _ => .pure trivial
    exact .bind gives_expectName fun _ _ => .pure trivial
  next himport =>
  split at h
  next hkeyword =>
    have hmem : word ∈ keywords := List.contains_iff_mem.1 (Bool.and_eq_true_iff.1 hkeyword).1
    exact Gives.bind gives_next (fun _ _ => .pure (.keyword hmem)) c e c' hc h
  next hkeyword =>
    refine reference_ok htype hc hword ?_ h
    simp only [leadingWords, List.mem_cons, List.not_mem_nil, or_false, not_or]
    exact ⟨fun hw => hboolean (.inl hw), fun hw => hboolean (.inr hw), fun hw => hnew (.inl hw), htypeof⟩

omit htype in
/-- A negative number keeps the text of its two tokens. -/
theorem negative_ok {c c' : Cursor} {e : TypeExpr} (hc : c.Lexed) (hsees : c.sees "-" = true)
    (hnumber : (c.peek 1).isNumber = true)
    (h : (do
      let _ ← next
      let _ ← next
      return .literal (← textSince c) : Parser TypeExpr) c = .ok (e, c')) : Lexical e ∧ c'.Lexed := by
  obtain ⟨m, b, rfl, hm, hb⟩ := hc.exists_mark hsees (by decide)
  have hl : b.peek.lexeme = .number := beq_iff_eq.1 hnumber
  obtain ⟨t, b, rfl, ht, hb⟩ := hb.exists_of_not_end (by rw [Token.isEnd, hl]; rfl)
  simp only [bind_apply, next_before, ok_bind, Cursor.before_nil, textSince_apply, pure_apply] at h
  rw [← Cursor.before_append, Cursor.upTo_before] at h
  cases h
  refine ⟨.literal ?_, hb⟩
  simpa [spell_cons, hm.2] using LiteralText.negative t.spaceBefore (ht.number hl)

theorem markType_ok {c c' : Cursor} {e : TypeExpr} (hc : c.Lexed) (hmark : c.peek.isMark = true)
    (h : markType rules c.peek c = .ok (e, c')) : Lexical e ∧ c'.Lexed := by
  obtain ⟨start, b, hget, h⟩ := bind_ok.1 h
  cases hget
  split at h
  next => exact gives_functionType htype c e c' hc h
  split at h
  next =>
    exact Gives.bind gives_next (fun _ _ => .bind htype fun _ ht => .bind (gives_expect ")") fun _ _ => .pure ht)
      c e c' hc h
  split at h
  next =>
    refine Gives.ite (fun _ => ?_) (fun _ => ?_) c e c' hc h
    · exact .bind gives_skipBalanced fun _ _ => .bind (gives_textSince c) fun _ _ => .pure .verbatim
    · exact .bind (gives_members htype) fun _ hm => .bind (gives_textSince c) fun _ _ => .pure (.object hm)
  split at h
  next => exact gives_tuple htype c e c' hc h
  split at h
  next hnegative =>
    have hsees : c.sees "-" = true := by simp [Cursor.sees, Token.is, hmark, hnegative.1]
    exact negative_ok hc hsees hnegative.2 h
  next => exact gives_reject _ c e c' hc h

theorem gives_primary : Gives (primary rules) Lexical := by
  intro c e c' hc h
  obtain ⟨token, b, hpeek, h⟩ := bind_ok.1 h
  cases hpeek
  cases hl : c.peek.lexeme with
  | mark =>
    rw [hl] at h
    exact markType_ok htype hc (beq_iff_eq.2 hl) h
  | string value =>
    rw [hl] at h
    exact Gives.bind gives_next (fun _ _ => .pure (.literal (.string value))) c e c' hc h
  | number =>
    rw [hl] at h
    have hraw := (hc.peek 0).number hl
    exact Gives.bind gives_next (fun _ _ => .pure (.literal (.number hraw))) c e c' hc h
  | template parts =>
    rw [hl] at h
    exact Gives.bind gives_next (fun _ _ => .bind (gives_lift _) fun _ _ => .pure .template) c e c' hc h
  | endOfInput =>
    rw [hl] at h
    exact gives_reject _ c e c' hc h
  | word =>
    rw [hl] at h
    exact wordType_ok htype hc rfl h


theorem gives_postfixed : Gives (postfixed rules) Lexical := by
  refine .bind gives_get fun start _ => .bind (gives_primary htype) fun first hfirst =>
    gives_loop (I := Lexical) (fun type ht => ?_) hfirst
  refine .bind gives_get fun c _ => .ite (fun _ => ?_) fun _ => .pure ht
  refine .bind gives_next fun _ _ => .bind (gives_accept "]") fun _ _ => .ite (fun _ => ?_) fun _ => ?_
  · exact .bind (gives_textSince start) fun _ _ => .pure (Lexical.array ht)
  · exact .bind htype fun _ _ => .bind (gives_expect "]") fun _ _ => .bind (gives_textSince start) fun _ _ =>
      .pure Lexical.verbatim

omit htype in
theorem gives_chain {mark : Text} {item : Parser TypeExpr} {build : List TypeExpr → Text → TypeExpr}
    (hitem : Gives item Lexical)
    (hbuild : ∀ types text, 2 ≤ types.length → (∀ e ∈ types, Lexical e) → Lexical (build types text)) :
    Gives (chain mark item build) Lexical := by
  refine .bind (gives_accept mark) fun _ _ => .bind gives_get fun start _ =>
    .bind (gives_separated mark hitem) fun types htypes => ?_
  obtain ⟨hne, hlexical⟩ := htypes
  match types with
  | [] => exact absurd rfl hne
  | [type] => exact .pure (hlexical type (List.mem_singleton.2 rfl))
  | first :: second :: rest =>
    exact .bind (gives_textSince start) fun _ _ =>
      .pure (hbuild _ _ (Nat.le_add_left 2 rest.length) hlexical)

include hoperand

omit htype in
theorem gives_inferBound : Gives (inferBound rules) fun _ => True := by
  refine .bind gives_get fun c _ => .ite (fun _ => ?_) fun _ => .pure trivial
  exact .bind gives_skip fun _ _ => .bind hoperand fun _ _ => .pure trivial

theorem gives_operand : Gives (operand rules) Lexical := by
  refine .bind gives_get fun start _ => .ite (fun _ => ?_) fun _ => .ite (fun _ => ?_) fun _ =>
    gives_postfixed htype
  · refine .bind gives_next fun _ _ => .bind hoperand fun inner hinner => .ite (fun _ => .pure hinner) fun _ => ?_
    exact .bind (gives_textSince start) fun _ _ => .pure .verbatim
  · exact .bind gives_skip fun _ _ => .bind gives_skip fun _ _ => .bind (gives_inferBound hoperand) fun _ _ =>
      .bind (gives_textSince start) fun _ _ => .pure .verbatim

theorem gives_type : Gives (type rules) Lexical := by
  have hunion : Gives (union rules) Lexical := by
    refine gives_chain (gives_chain (gives_operand htype hoperand) ?_) ?_
    · exact fun _ _ _ _ => .intersection
    · exact fun _ _ hlen hes => .union hlen hes
  refine .bind gives_get fun start _ => .bind hunion fun found hfound => .bind (gives_accept "extends")
    fun _ _ => .ite (fun _ => ?_) fun _ => .pure hfound
  exact .bind hunion fun _ _ => .bind (gives_expect "?") fun _ _ => .bind htype fun _ _ =>
    .bind (gives_expect ":") fun _ _ => .bind htype fun _ _ => .bind (gives_textSince start) fun _ _ =>
    .pure .verbatim

end

theorem only_ok {p : Parser TypeExpr} {trailing : Rejection} {c c' : Cursor} {e : TypeExpr}
    (h : only p trailing c = .ok (e, c')) : p c = .ok (e, c') := by
  obtain ⟨found, d, hp, h⟩ := bind_ok.1 h
  rw [bind_apply, peek_apply, ok_bind] at h
  split at h
  · cases h
    exact hp
  · cases h

/-- However deep types may be nested, the parsers answer with such types. -/
theorem gives_upTo (source : Text) (depth : Nat) :
    Gives (Rules.upTo source depth).type Lexical ∧ Gives (Rules.upTo source depth).operand Lexical := by
  induction depth with
  | zero => exact ⟨gives_fail _, gives_fail _⟩
  | succ depth ih =>
    obtain ⟨htype, hoperand⟩ := ih
    exact ⟨gives_type htype hoperand, gives_operand htype hoperand⟩

end TypeGrammar

namespace TypeExpr

open TypeGrammar

/-- The type parser answers with the type somewhere in a source, in a window of
it that the lexer reads and behind any number of its tokens. -/
def Produced (e : TypeExpr) : Prop :=
  ∃ source start stop skipped tokens depth after,
    tokenize source start stop = .ok (skipped ++ tokens) ∧ tokens ≠ [] ∧
      (Rules.upTo source depth).type (Cursor.ofTokens tokens) = .ok (e, after)

theorem produced_of_parse {source : Text} {e : TypeExpr} (h : parse source = .ok e) : Produced e := by
  cases htokens : tokenize source 0 source.length with
  | error fault => simp [parse, htokens, bind, Except.bind] at h
  | ok tokens =>
    obtain ⟨ts, last, rfl, _, _⟩ := tokenize_lexed htokens
    cases honly : only (Rules.of source).type .trailingAfterType (Cursor.ofTokens (ts ++ [last])) with
    | error fault => simp [parse, htokens, honly, bind, Except.bind] at h
    | ok x =>
      obtain ⟨found, after⟩ := x
      have hfound : found = e := by
        simpa [parse, htokens, honly, bind, Except.bind, pure, Except.pure] using h
      rw [← hfound]
      exact ⟨source, 0, source.length, [], ts ++ [last], _, after, htokens, by simp, only_ok honly⟩

/-- What is produced keeps the texts that were read. -/
theorem Produced.lexical {e : TypeExpr} (h : Produced e) : Lexical e := by
  obtain ⟨source, start, stop, skipped, tokens, depth, after, htokens, hne, htype⟩ := h
  obtain ⟨ts, last, hts, hlexed, hlast⟩ := tokenize_lexed htokens
  obtain ⟨kept, t, rfl⟩ := (List.eq_nil_or_concat tokens).resolve_left hne
  rw [List.concat_eq_append] at htype hts
  rw [← List.append_assoc] at hts
  obtain ⟨rfl, ht⟩ := List.append_inj' hts rfl
  cases ht
  have hkept : ∀ t ∈ kept, t.Lexed := fun t ht => hlexed t (List.mem_append_right _ ht)
  exact ((gives_upTo source depth).1 _ e after (.ofTokens hkept hlast) htype).1

end TypeExpr

end WireSchema
