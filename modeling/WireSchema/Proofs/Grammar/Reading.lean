import WireSchema.Proofs.Grammar.Runs
/-!
# What the type parser makes of a spelling

The parser takes exactly the tokens of a spelling and answers with the type that
is spelled, up to the texts it keeps, wherever no token behind could go on with
the type. Nesting is never deeper than there are tokens.
-/

namespace WireSchema.TypeGrammar

open Source Source.Token Source.Parser

/-! ## What is to be shown of each tier -/

/-- What the rule of the tier makes of the tokens, if it has rules for types
nested as deep as there are tokens. An operand ends with the loop over its
brackets, which may yet go on. -/
def ReadAs (source : Text) (e : TypeExpr) (ts : List Token) : Tier → Prop
  | .primary => ∀ d c, ts.length ≤ d → Stops .primary c →
    ∃ found, found.bare = e.bare ∧ Takes (primary (.upTo source d)) ts c found
  | .operand => ∀ d c, ts.length ≤ d → Stops .primary c →
    ∃ found n, found.bare = e.bare ∧ c.rest.length < n ∧
      operand (.upTo source d) (c.before ts) =
        rounds (bracketRound (.upTo source d) (c.before ts)) n found c
  | .intersection => ∀ d c, ts.length ≤ d → Stops .intersection c →
    ∃ found, found.bare = e.bare ∧ Takes (intersection (.upTo source d)) ts c found
  | .union => ∀ d c, ts.length ≤ d → Stops .union c →
    ∃ found, found.bare = e.bare ∧ Takes (type (.upTo source d)) ts c found

/-! ## Primary types -/

section Primary
variable {source : Text} {d : Nat} {c : Cursor} {rules : Rules} {t : Token}

theorem primary_word (hl : t.lexeme = .word) (ts : List Token) :
    primary rules (c.before (t :: ts)) = wordType rules t.raw (c.before (t :: ts)) := by
  simp [primary, hl]

theorem primary_mark (hl : t.lexeme = .mark) (ts : List Token) :
    primary rules (c.before (t :: ts)) = markType rules t (c.before (t :: ts)) := by
  simp [primary, hl]

theorem primary_string {value : Text} (hl : t.lexeme = .string value) :
    Takes (primary rules) [t] c (.literal (Text.quote value)) := by
  simp [Takes, primary, hl]

theorem primary_number (hl : t.lexeme = .number) :
    Takes (primary rules) [t] c (.literal t.raw) := by
  simp [Takes, primary, hl]

theorem primary_negative {m : Token} (hm : m.Marks "-") (hl : t.lexeme = .number) :
    Takes (primary rules) [m, t] c (.literal (spell [m, t])) := by
  have hnumber : t.isNumber = true := by simp [Token.isNumber, hl]
  have hfunction : beginsFunction (c.before [m, t]) = false := by
    simp [beginsFunction, hm.is_eq]
  rw [Takes, primary_mark hm.1, markType]
  simp [hfunction, hm.2, hnumber]

theorem wordType_eq {word : Text} (hw : word ∉ leadingWords) (hnew : c.sees "new" 1 = false)
    (hparen : c.sees "(" 1 = false) :
    wordType rules word c =
      if keywords.contains word && !c.sees "." 1 then
        (do let _ ← next; return .keyword word : Parser TypeExpr) c
      else reference rules c := by
  simp only [leadingWords, List.mem_cons, not_or] at hw
  obtain ⟨htrue, hfalse, hnew', htypeof, _⟩ := hw
  simp only [wordType, bind_apply, get_apply, ok_bind, htrue, hfalse, hnew', htypeof, hnew, hparen,
    Bool.false_eq_true, and_false, or_false, if_false]
  split <;> rfl

theorem primary_keyword (ht : t.Names) (hk : t.raw ∈ keywords) (hc : Stops .primary c) :
    Takes (primary rules) [t] c (.keyword t.raw) := by
  have hlead : t.raw ∉ leadingWords := by
    revert hk
    generalize t.raw = w
    decide +revert
  have hsees {w : Text} (hw : w ∉ closers) : (c.before [t]).sees w 1 = false := hc.sees (.inl hw)
  rw [Takes, primary_word ht.1, wordType_eq hlead (hsees (by decide)) (hsees (by decide))]
  simp [hk, hsees (w := ".") (by decide)]

theorem primary_boolean (ht : t.Names) (hb : t.raw = "true" ∨ t.raw = "false") :
    Takes (primary rules) [t] c (.literal t.raw) := by
  rw [Takes, primary_word ht.1]
  simp [wordType, hb]

/-- A name that is no word of the grammar is read as a reference. -/
theorem primary_qualified {name : Text} {ts : List Token} (h : Qualified name ts)
    (hc : c.peek.Closes ∨ c.peek.Marks "<") :
    primary rules (c.before ts) = reference rules (c.before ts) := by
  have hsees {w : Text} (hw : w ∉ Text.ofString "<" :: closers) : c.sees w = false := by
    simp only [List.mem_cons, not_or] at hw
    rcases hc with hc | hc
    · exact hc.is_eq_false hw.2
    · rw [Cursor.sees, hc.is_eq]
      exact beq_eq_false_iff_ne.2 fun e => hw.1 e.symm
  cases h with
  | @mk w names ts hw hd hlead hreserved =>
    rw [primary_word hw.1]
    cases hd with
    | nil =>
      have hk : w.raw ∉ keywords := fun hk =>
        hreserved rfl (List.mem_append_left _ (List.mem_append_right _ hk))
      rw [wordType_eq hlead (hsees (by decide)) (hsees (by decide))]
      simp [hk]
    | @cons d v names ts hd _ _ =>
      have hdot (w' : Text) : (c.before (w :: d :: v :: ts)).sees w' 1 = (Text.ofString "." == w') := by
        rw [Cursor.sees_before_succ, Cursor.sees_before, hd.is_eq]
      rw [wordType_eq hlead (by rw [hdot]; decide) (by rw [hdot]; decide), hdot]
      simp

theorem primary_name {name : Text} {ts : List Token} (h : Qualified name ts)
    (hc : Stops .primary c) :
    ∃ text, Takes (primary rules) ts c (.reference name [] text) := by
  have hname : qualifiedName (c.before ts) = .ok (name, c) := h.takes (hc.sees (.inl (by decide)))
  have hopen : c.sees "<" = false := hc.sees (.inl (by decide))
  refine ⟨spell ts, ?_⟩
  rw [Takes, primary_qualified h (.inl hc.closes)]
  simp [reference, typeArguments, hname, hopen]

variable {parts : List (TypeExpr × List Token)} {inner : List Token}

/-- The rules for types nested one deeper read each of the parts that are no
longer than `d`. -/
theorem readsEach_type (h : ∀ p ∈ parts, ReadAs source p.1 p.2 .union)
    (hl : ∀ p ∈ parts, p.2.length ≤ d) :
    ReadsEach (Rules.upTo source (d + 1)).type .union parts :=
  fun p hp c hc => h p hp d c (hl p hp) hc

theorem primary_application {name : Text} {ts : List Token} {o k : Token} (hq : Qualified name ts)
    (ho : o.Marks "<") (hgap : o.spaceBefore = false) (hk : k.Marks ">")
    (hs : Listed (parts.map (·.2)) inner) (hopen : OpenEach parts)
    (hitem : ReadsEach rules.type .union parts) :
    ∃ found : List TypeExpr, found.map TypeExpr.bare = parts.map (·.1.bare) ∧
      ∃ text, Takes (primary rules) (ts ++ o :: (inner ++ [k])) c (.reference name found text) := by
  have hkc : (c.before [k]).sees ">" = true := by simp [hk.is_eq]
  obtain ⟨found, hbare, hlisted⟩ := hs.listed_takes hitem hopen hkc (by decide) (by decide)
    (.ofMark hk (by decide) (by decide) []) (by simp [hk.is_eq])
  refine ⟨found, hbare, spell (ts ++ o :: (inner ++ [k])), ?_⟩
  have hlist : listed ">" rules.type ((c.before [k]).before inner) = .ok (found, c.before [k]) :=
    hlisted
  have hname : qualifiedName ((c.before (o :: (inner ++ [k]))).before ts) =
      .ok (name, c.before (o :: (inner ++ [k]))) := by
    refine hq.takes ?_
    simp [ho.is_eq]
  have hup : (c.before (ts ++ o :: (inner ++ [k]))).upTo c = ts ++ o :: (inner ++ [k]) :=
    Cursor.upTo_before c _
  have hopener : o.is "<" = true := by simp [ho.is_eq]
  have hcloser : k.is ">" = true := by simp [hk.is_eq]
  rw [Cursor.before_append] at hup
  rw [Takes, Cursor.before_append,
    primary_qualified (c := c.before (o :: (inner ++ [k]))) hq (.inr ho)]
  simp [reference, typeArguments, hname, hopener, hgap, Cursor.before_append, hlist, expect_before hcloser, hup]

theorem elementName_of_opensBefore {ts : List Token} (h : OpensBefore c ts) :
    elementName (c.before ts) = .ok (false, c.before ts) := by
  obtain ⟨t, rest, rfl, ht⟩ := h
  have hname : ((c.before (t :: rest)).peek.isWord && ((c.before (t :: rest)).sees ":" 1 ||
      ((c.before (t :: rest)).sees "?" 1 && (c.before (t :: rest)).sees ":" 2))) = false := by
    cases hw : t.isWord with
    | false => simp [hw]
    | true =>
      have hcolon : (c.before rest).sees ":" = false := ht.next_is_eq_false hw (by decide)
      have hmark : (c.before rest).sees "?" = false := ht.next_is_eq_false hw (by decide)
      simp [hcolon, hmark]
  simp only [elementName, bind_apply, get_apply, ok_bind, hname, Bool.false_eq_true, if_false,
    pure_apply]

theorem tupleRound_takesEach (hitem : ReadsEach rules.type .union parts) (hopen : OpenEach parts) :
    TakesEach (tupleRound rules) (fun state e => (e :: state.1, state.2))
      (fun state => (state.1.reverse, state.2)) parts := by
  intro p hp c hc
  obtain ⟨found, hbare, hfound⟩ := hitem p hp c hc
  refine ⟨found, hbare, fun ⟨elements, variadic⟩ => ?_⟩
  have hread : rules.type (c.before p.2) = .ok (found, c) := hfound
  have hbegin := hopen p hp c hc.closes
  have hdots : (c.before p.2).sees "..." = false := hbegin.sees (by decide) (by decide)
  have hclose : (c.before p.2).sees "]" = false := hbegin.sees (by decide) (by decide)
  have hmark : c.sees "?" = false := hc.sees (.inl (by decide))
  simp only [tupleRound, bind_apply, sees_apply, ok_bind, hclose, Bool.false_eq_true, if_false,
    accept_of_not_sees hdots, elementName_of_opensBefore hbegin, hread, accept_of_not_sees hmark,
    Bool.or_false]
  refine congrArg _ (funext fun x => ?_)
  cases x.1 <;> rfl

theorem foldl_push (found : List TypeExpr) (state : List TypeExpr × Bool) :
    found.foldl (fun state e => (e :: state.1, state.2)) state =
      (found.reverse ++ state.1, state.2) := by
  induction found generalizing state with
  | nil => rfl
  | cons e rest ih => simp [ih]

theorem primary_tuple {o k : Token} (ho : o.Marks "[") (hk : k.Marks "]")
    (hs : Listed (parts.map (·.2)) inner) (hopen : OpenEach parts)
    (hitem : ReadsEach rules.type .union parts) :
    ∃ found : List TypeExpr, found.map TypeExpr.bare = parts.map (·.1.bare) ∧
      ∃ text, Takes (primary rules) (o :: (inner ++ [k])) c (.tuple found text false) := by
  obtain ⟨found, hbare, hfound⟩ := hs.loop_eq (c := c.before [k]) (tupleRound_takesEach hitem hopen)
    (.ofMark hk (by decide) (by decide) []) (by simp [hk.is_eq])
    fun state => by simp [tupleRound, hk.is_eq]
  refine ⟨found, hbare, spell (o :: (inner ++ [k])), ?_⟩
  have hloop := hfound ([], false)
  rw [foldl_push] at hloop
  simp only [List.append_nil, List.reverse_reverse] at hloop
  have hup : ((c.before [k]).before (o :: inner)).upTo c = o :: (inner ++ [k]) := by
    rw [← Cursor.before_append]; exact Cursor.upTo_before c _
  have hfunction : beginsFunction ((c.before [k]).before (o :: inner)) = false := by
    simp [beginsFunction, ho.is_eq]
  rw [Takes, ← List.cons_append, Cursor.before_append, primary_mark ho.1, markType]
  simp [hfunction, ho.2, tuple, expect_before (show o.is "[" = true by simp [ho.is_eq]), hloop,
    expect_before (show k.is "]" = true by simp [hk.is_eq]), hup]

theorem primary_parenthesized {e : TypeExpr} {ts : List Token} {o k : Token} (ho : o.Marks "(")
    (hk : k.Marks ")") (hb : Balanced ts) (hc : Stops .primary c)
    (htype : Takes rules.type ts (c.before [k]) e) :
    Takes (primary rules) (o :: (ts ++ [k])) c e := by
  have hread : rules.type ((c.before [k]).before ts) = .ok (e, c.before [k]) := htype
  have hfunction : beginsFunction ((c.before [k]).before (o :: ts)) = false := by
    have hindex : closerIndex "(" ")" 0 ((c.before [k]).before (o :: ts)).rest = 1 + ts.length :=
      hb.closerIndex_cons ho hk 0 c.rest
    have hpeek : ((c.before [k]).before (o :: ts)).peek (1 + ts.length + 1) = c.peek := by
      rw [← Cursor.before_append]
      have := Cursor.peek_before_length c (o :: ts ++ [k]) 0
      simpa [Nat.add_comm 1] using this
    have harrow : (c.peek).is "=>" = false := hc.sees (.inl (by decide))
    have hopen : ((c.before [k]).before (o :: ts)).sees "<" = false := by simp [ho.is_eq]
    rw [beginsFunction, hopen, hindex, Cursor.sees, Cursor.sees, hpeek, harrow, Bool.and_false]
    rfl
  rw [Takes, ← List.cons_append, Cursor.before_append, primary_mark ho.1, markType]
  simp [hfunction, ho.2, hread, expect_before (show k.is ")" = true by simp [hk.is_eq])]

end Primary

/-! ## Members -/

section Members
variable {source : Text} {d : Nat} {c : Cursor} {rules : Rules}

theorem name_is {name : Token} (hn : name.Names ∨ name.isString = true) {w : Text}
    (hw : Text.isName w = false) : name.is w = false := by
  rcases hn with hn | hn
  · exact hn.is_eq_false hw
  · rw [Token.is, Token.not_isWord_of_isString hn, Token.not_isMark_of_isString hn, Bool.or_self, Bool.false_and]

theorem name_isMark {name : Token} (hn : name.Names ∨ name.isString = true) :
    name.isMark = false := by
  rcases hn with hn | hn
  · exact hn.isMark
  · exact Token.not_isMark_of_isString hn

/-- The name of a member is a word or a string with a question mark or a colon
behind it, so it is no modifier and begins no signature. -/
theorem member_name {name t : Token} {us : List Token} (hn : name.Names ∨ name.isString = true)
    (ht : t.Marks "?" ∨ t.Marks ":") :
    member rules (c.before (name :: t :: us)) =
      (do
        let isOptional ← accept "?"
        let type ← memberType rules
        return some { name := name.value, isOptional, type, docs := .ofBlocks name.docs } :
        Parser (Option (Property TypeExpr))) (c.before (t :: us)) := by
  have hnext : t.isWord = false ∧ t.isString = false ∧ t.isNumber = false ∧
      t.isOneOf ["["] = false ∧ t.is "(" = false ∧ t.is "<" = false := by
    rcases ht with ht | ht <;>
      simp [ht.isWord, ht.isString, ht.isNumber, ht.isOneOf_eq, ht.is_eq]
  obtain ⟨h1, h2, h3, h4, h5, h6⟩ := hnext
  have hkind : (!(name.isWord || name.isString || name.isNumber)) = false := by
    rcases hn with hn | hn
    · simp [hn.isWord]
    · simp [hn]
  have hmodified : beginsModified "readonly" (c.before (name :: t :: us)) = false := by
    simp [beginsModified, h1, h2, h3, h4]
  have hloop : loop readonlyRound () (c.before (name :: t :: us)) =
      .ok ((), c.before (name :: t :: us)) :=
    loop_done (by simp [readonlyRound, hmodified])
  simp [member, hloop, name_is hn (w := "[") (by decide), name_is hn (w := "(") (by decide),
    name_is hn (w := "<") (by decide), h1, h2, h5, h6, hkind, -Bool.not_or]

/-- A member is taken up to its semicolon. -/
theorem member_before {g : Signature} (h : g.Fits) {found : TypeExpr}
    (htype : Takes rules.type g.type (c.before [g.stop]) found) :
    member rules (c.before g.tokens) =
      .ok (some { g.member with type := found }, c.before [g.stop]) := by
  have hread : rules.type ((c.before [g.stop]).before g.type) = .ok (found, c.before [g.stop]) :=
    htype
  have hcut : c.before (g.type ++ [g.stop]) = (c.before [g.stop]).before g.type :=
    Cursor.before_append c g.type [g.stop]
  have hcolon : g.colon.is ":" = true := by simp [h.colon.is_eq]
  rcases h.mark with ⟨hm, hopt⟩ | ⟨q, hm, hq, hopt⟩
  · have hnone : (((c.before [g.stop]).before g.type).before [g.colon]).sees "?" = false := by
      simp [h.colon.is_eq]
    rw [Signature.tokens, hm, List.nil_append, member_name h.kind (.inr h.colon),
      Cursor.before_cons, hcut]
    simp [memberType, accept_of_not_sees hnone, h.colon.is_eq, accept_before hcolon, hread, hopt, h.value,
      h.docs]
  · have hmark : q.is "?" = true := by simp [hq.is_eq]
    rw [Signature.tokens, hm, List.singleton_append, member_name h.kind (.inl hq)]
    simp [memberType, accept_before hmark, h.colon.is_eq, accept_before hcolon, hcut, hread, hopt, h.value,
      h.docs]

/-- The braces of an object shape hold its members, each with its semicolon. -/
theorem membersRound_before {g : Signature} (h : g.Fits) {found : TypeExpr}
    (htype : Takes rules.type g.type (c.before [g.stop]) found)
    (hc : c.sees ";" = false ∧ c.sees "," = false) (acc : List (Property TypeExpr)) :
    membersRound rules acc (c.before g.tokens) =
      .ok (.again ({ g.member with type := found } :: acc), c) := by
  have hsees : (c.before g.tokens).sees "\x7d" = false := name_is h.kind (by decide)
  have hpeek : (c.before g.tokens).peek.isEnd = false := by
    show g.name.isEnd = false
    rcases h.kind with hn | hs
    · simp [Token.isEnd, hn.1]
    · exact Token.not_isEnd_of_isString hs
  have hstop : separatorRound () (c.before [g.stop]) = .ok (.again (), c) := by
    simp [separatorRound, acceptEither,
      accept_before (show g.stop.is ";" = true by simp [h.stop.is_eq])]
  have hloop : loop separatorRound () (c.before [g.stop]) = .ok ((), c) := by
    rw [loop_apply, rounds_again hstop]
    exact rounds_done (by simp [separatorRound, acceptEither_of_not_sees hc.1 hc.2]) (by simp)
  simp [membersRound, hsees, hpeek, member_before h htype, hloop]

/-- Whether they are members or the closing brace, no separator comes next. -/
theorem sees_members {members : List Signature} (hfits : ∀ g ∈ members, g.Fits) {k : Token}
    (hk : k.Marks "\x7d") {w : Text} (hw : Text.isName w = false) (hne : w ≠ "\x7d") :
    ((c.before [k]).before (members.flatMap (·.tokens))).sees w = false := by
  cases members with
  | nil => simp [hk.is_eq, Ne.symm hne]
  | cons g rest =>
    rw [List.flatMap_cons, Signature.tokens, List.cons_append, Cursor.sees_before]
    exact name_is (hfits g List.mem_cons_self).kind hw

theorem rounds_members {members : List Signature} {k : Token} (hk : k.Marks "\x7d")
    (hfits : ∀ g ∈ members, g.Fits)
    (htype : ∀ g ∈ members, ∀ c, Stops .union c →
      ∃ found, found.bare = g.member.type.bare ∧ Takes rules.type g.type c found) :
    ∃ found : List (Property TypeExpr),
      found.map TypeExpr.bareMember = members.map (TypeExpr.bareMember ·.member) ∧
        ∀ (n : Nat) (acc : List (Property TypeExpr)), members.length < n →
          rounds (membersRound rules) n acc ((c.before [k]).before (members.flatMap (·.tokens))) =
            .ok (acc.reverse ++ found, c.before [k]) := by
  induction members with
  | nil =>
    refine ⟨[], rfl, fun n acc hn => ?_⟩
    exact rounds_done (by simp [membersRound, hk.is_eq]) hn
  | cons g rest ih =>
    have hg := hfits g List.mem_cons_self
    have hrest : ∀ g ∈ rest, g.Fits := fun g hg => hfits g (List.mem_cons_of_mem _ hg)
    obtain ⟨others, hothers, hrounds⟩ := ih hrest fun g hg => htype g (List.mem_cons_of_mem _ hg)
    let after := (c.before [k]).before (rest.flatMap (·.tokens))
    obtain ⟨found, hbare, hfound⟩ := htype g List.mem_cons_self (after.before [g.stop])
      (.ofMark hg.stop (by decide) (by decide) [])
    refine ⟨{ g.member with type := found } :: others, ?_, fun n acc hn => ?_⟩
    · simp [TypeExpr.bareMember_eq, hbare, hothers]
    · obtain ⟨n, rfl⟩ : ∃ k, n = k + 1 := ⟨n - 1, by omega⟩
      have hsep : after.sees ";" = false ∧ after.sees "," = false :=
        ⟨sees_members hrest hk (by decide) (by decide), sees_members hrest hk (by decide) (by decide)⟩
      rw [List.flatMap_cons, Cursor.before_append, rounds_again (membersRound_before hg hfound hsep _),
        hrounds n _ (by simpa using hn)]
      simp

theorem Signature.length_le (members : List Signature) :
    members.length ≤ (members.flatMap (·.tokens)).length := by
  induction members with
  | nil => simp
  | cons g rest ih =>
    have : 1 ≤ g.tokens.length := by simp [Signature.tokens]
    simp only [List.flatMap_cons, List.length_append, List.length_cons]
    omega

theorem Signature.type_length_le {members : List Signature} {g : Signature} (hg : g ∈ members) :
    g.type.length ≤ (members.flatMap (·.tokens)).length := by
  induction members with
  | nil => cases hg
  | cons a rest ih =>
    rw [List.flatMap_cons, List.length_append]
    rcases List.mem_cons.1 hg with rfl | hg
    · simp only [Signature.tokens, List.length_cons, List.length_append]
      omega
    · have := ih hg
      omega

/-- Behind an opening brace comes no index of a mapped type. -/
theorem beginsMapped_members {members : List Signature} (hfits : ∀ g ∈ members, g.Fits) {k : Token}
    (hk : k.Marks "\x7d") (o : Token) :
    beginsMapped ((c.before [k]).before (o :: members.flatMap (·.tokens))) = false := by
  cases members with
  | nil => simp [beginsMapped, hk.is_eq, hk.isOneOf_eq]
  | cons g rest =>
    have hg := hfits g List.mem_cons_self
    obtain ⟨t, us, hus, ht⟩ : ∃ t us, g.mark ++ g.colon :: (g.type ++ [g.stop]) = t :: us ∧
        (t.Marks "?" ∨ t.Marks ":") := by
      rcases hg.mark with ⟨hm, _⟩ | ⟨q, hm, hq, _⟩ <;> rw [hm]
      · exact ⟨_, _, rfl, .inr hg.colon⟩
      · exact ⟨_, _, rfl, .inl hq⟩
    have hbracket : g.name.is "[" = false := name_is hg.kind (by decide)
    have hsign : g.name.isOneOf ["+", "-"] = false := by
      rw [Token.isOneOf, name_isMark hg.kind, Bool.false_and]
    have hnext : t.is "[" = false := by
      rcases ht with ht | ht <;> simp [ht.is_eq]
    rw [List.flatMap_cons, Signature.tokens, hus]
    by_cases hr : g.name.is "readonly" = true
    · simp [beginsMapped, hsign, hr, hnext]
    · simp [beginsMapped, hsign, hr, hbracket]

theorem primary_object {members : List Signature} {o k : Token} (ho : o.Marks "\x7b")
    (hk : k.Marks "\x7d") (hfits : ∀ g ∈ members, g.Fits)
    (htype : ∀ g ∈ members, ∀ c, Stops .union c →
      ∃ found, found.bare = g.member.type.bare ∧ Takes rules.type g.type c found) :
    ∃ found : List (Property TypeExpr),
      found.map TypeExpr.bareMember = members.map (TypeExpr.bareMember ·.member) ∧
        ∃ text, Takes (primary rules) (o :: (members.flatMap (·.tokens) ++ [k])) c
          (.object found text) := by
  obtain ⟨found, hbare, hrounds⟩ := rounds_members (c := c) hk hfits htype
  refine ⟨found, hbare, spell (o :: (members.flatMap (·.tokens) ++ [k])), ?_⟩
  have hloop : loop (membersRound rules) [] ((c.before [k]).before (members.flatMap (·.tokens))) =
      .ok (found, c.before [k]) := by
    have := Signature.length_le members
    rw [loop_apply, hrounds _ _ (by simp only [Cursor.rest_before, List.length_append]; omega)]
    rfl
  have hup : ((c.before [k]).before (o :: members.flatMap (·.tokens))).upTo c =
      o :: (members.flatMap (·.tokens) ++ [k]) := by
    rw [← Cursor.before_append]; exact Cursor.upTo_before c _
  have hfunction : beginsFunction ((c.before [k]).before (o :: members.flatMap (·.tokens))) = false := by
    simp [beginsFunction, ho.is_eq]
  have hmapped := beginsMapped_members (c := c) hfits hk o
  have hopener : o.is "\x7b" = true := by simp [ho.is_eq]
  have hcloser : k.is "\x7d" = true := by simp [hk.is_eq]
  rw [Takes, ← List.cons_append, Cursor.before_append, primary_mark ho.1, markType]
  simp [hfunction, hmapped, ho.2, TypeGrammar.members, expect_before hopener, hloop,
    expect_before hcloser, hup]

end Members

/-! ## Operators -/

section Operators
variable {source : Text} {d : Nat} {c : Cursor} {rules : Rules} {e : TypeExpr} {ts : List Token}

theorem operand_of_opensBefore (h : OpensBefore c ts) :
    operand rules (c.before ts) = postfixed rules (c.before ts) := by
  obtain ⟨t, rest, rfl, ht⟩ := h
  have hword : ((c.before (t :: rest)).peek.isWord &&
      operatorWords.contains (c.before (t :: rest)).peek.raw &&
      beginsOperand ((c.before (t :: rest)).peek 1)) = false := ht.not_operator
  have hinfer : ((c.before (t :: rest)).sees "infer" && ((c.before (t :: rest)).peek 1).isWord) =
      false := by
    show (t.is "infer" && (c.before rest).peek.isWord) = false
    cases ht with
    | word hw hu ho => rw [(Opens.word hw hu ho).next_isWord hw.isWord, Bool.and_false]
    | literal hword hmark => simp [Token.is, hword, hmark]
    | mark hm ht =>
      rw [ht.is_eq, Bool.and_eq_false_iff]
      refine .inl (beq_eq_false_iff_ne.2 fun e => ?_)
      subst e
      exact absurd hm (by decide)
  simp only [operand, bind_apply, get_apply, ok_bind, hword, hinfer, Bool.false_eq_true, if_false]

theorem operand_readAs (h : ReadAs source e ts .primary) (hopen : ∀ c : Cursor, c.peek.Closes → OpensBefore c ts) :
    ReadAs source e ts .operand := by
  intro d c hd hc
  obtain ⟨found, hbare, hfound⟩ := h d c hd hc
  refine ⟨found, c.rest.length + 1, hbare, Nat.lt_succ_self _, ?_⟩
  have hread : primary (.upTo source d) (c.before ts) = .ok (found, c) := hfound
  rw [operand_of_opensBefore (hopen c hc.closes)]
  simp [postfixed, hread, loop_apply]

theorem array_readAs {text : Text} {o k : Token} (h : ReadAs source e ts .operand) (ho : o.Marks "[") (hline : o.lineBreak = false)
    (hk : k.Marks "]") : ReadAs source (.array e text) (ts ++ [o, k]) .operand := by
  intro d c hd hc
  obtain ⟨found, n, hbare, hn, hread⟩ := h d (c.before [o, k]) (by simp at hd; omega)
    (.ofMark ho (by decide) (by decide) [k])
  obtain ⟨n, rfl⟩ : ∃ k, n = k + 1 := ⟨n - 1, by omega⟩
  have hround : bracketRound (.upTo source d) (c.before (ts ++ [o, k])) found (c.before [o, k]) =
      .ok (.again (.array found (spell (ts ++ [o, k]))), c) := by
    simp [bracketRound, ho.is_eq, hline, accept_before (show k.is "]" = true by simp [hk.is_eq])]
  refine ⟨.array found (spell (ts ++ [o, k])), n, by simp [TypeExpr.bare, hbare], ?_, ?_⟩
  · simp only [Cursor.rest_before, List.length_append, List.length_cons] at hn
    omega
  · rw [Cursor.before_append] at hround ⊢
    rw [hread, rounds_again hround]

/-- The loop over brackets ends where no bracket comes. -/
theorem operand_takes (h : ReadAs source e ts .operand) (hd : ts.length ≤ d)
    (hc : Stops .operand c) :
    ∃ found, found.bare = e.bare ∧ Takes (operand (.upTo source d)) ts c found := by
  obtain ⟨found, n, hbare, hn, hread⟩ := h d c hd (hc.tighter (List.nil_subset _))
  have hbracket : c.sees "[" = false := hc.sees (.inr (by decide))
  refine ⟨found, hbare, ?_⟩
  rw [Takes, hread]
  exact rounds_done (by simp [bracketRound, hbracket]) (by omega)

section Chain
variable {m : Text} {item : Parser TypeExpr} {tier : Tier} (build : List TypeExpr → Text → TypeExpr)
  {parts : List (TypeExpr × List Token)} {out : List Token}

theorem chain_one (h : OpensBefore c ts) (hname : Text.isName m = false) (ho : m ∉ openers)
    (hend : c.sees m = false) (hitem : Takes item ts c e) : Takes (chain m item build) ts c e := by
  have hread : item (c.before ts) = .ok (e, c) := hitem
  have hloop : loop (separatedRound m item) [e] c = .ok ([e], c) :=
    loop_done (by simp [separatedRound, accept_of_not_sees hend])
  simp [Takes, chain, accept_of_not_sees (h.sees hname ho), separated, hread, hloop]

theorem chain_more (hlen : 2 ≤ parts.length) (hs : Separated m (parts.map (·.2)) out)
    (h : OpensBefore c out) (hname : Text.isName m = false) (ho : m ∉ openers) (hm : m ∈ closers)
    (htier : m ∉ tier.marks) (hitem : ReadsEach item tier parts) (hc : Stops tier c)
    (hend : c.sees m = false) :
    ∃ found : List TypeExpr, found.map TypeExpr.bare = parts.map (·.1.bare) ∧
      ∃ text, Takes (chain m item build) out c (build found text) := by
  obtain ⟨found, hbare, hfound⟩ := hs.takes hitem hm htier hc hend
  have hread : separated m item (c.before out) = .ok (found, c) := hfound
  have hlength : 2 ≤ found.length := by
    have := congrArg List.length hbare
    simp only [List.length_map] at this
    omega
  obtain ⟨a, b, rest, rfl⟩ : ∃ a b rest, found = a :: b :: rest := by
    match found, hlength with
    | a :: b :: rest, _ => exact ⟨a, b, rest, rfl⟩
  exact ⟨_, hbare, spell out, by simp [Takes, chain, accept_of_not_sees (h.sees hname ho), hread]⟩

end Chain

theorem intersection_readAs_one (h : ReadAs source e ts .operand)
    (hopen : ∀ c : Cursor, c.peek.Closes → OpensBefore c ts) : ReadAs source e ts .intersection := by
  intro d c hd hc
  obtain ⟨found, hbare, hfound⟩ := operand_takes h hd (hc.tighter (by decide))
  have hend : c.sees "&" = false := hc.sees (.inr (by decide))
  exact ⟨found, hbare, chain_one .intersection (hopen c hc.closes) (by decide) (by decide) hend hfound⟩

theorem intersection_readAs {text : Text} {parts : List (TypeExpr × List Token)}
    {out : List Token} (hlen : 2 ≤ parts.length) (hs : Separated "&" (parts.map (·.2)) out)
    (h : ∀ p ∈ parts, ReadAs source p.1 p.2 .operand)
    (hopen : ∀ c : Cursor, c.peek.Closes → OpensBefore c out) :
    ReadAs source (.intersection (parts.map (·.1)) text) out .intersection := by
  intro d c hd hc
  have hitem : ReadsEach (operand (.upTo source d)) .operand parts := fun p hp c hc =>
    operand_takes (h p hp) (Nat.le_trans (hs.length_le _ (List.mem_map_of_mem hp)) hd) hc
  have hend : c.sees "&" = false := hc.sees (.inr (by decide))
  obtain ⟨found, hbare, text', hfound⟩ := chain_more .intersection hlen hs
    (hopen c hc.closes) (by decide) (by decide) (by decide) (by decide) hitem
    (hc.tighter (by decide)) hend
  exact ⟨_, by simp [TypeExpr.bare, hbare], hfound⟩

/-- A whole type is a union where no condition comes behind it. -/
theorem type_takes (hc : Stops .union c) (h : Takes (union rules) ts c e) :
    Takes (type rules) ts c e := by
  have hread : union rules (c.before ts) = .ok (e, c) := h
  have hextends : c.sees "extends" = false := hc.sees (.inl (by decide))
  simp [Takes, type, hread, accept_of_not_sees hextends]

theorem union_readAs_one (h : ReadAs source e ts .intersection)
    (hopen : ∀ c : Cursor, c.peek.Closes → OpensBefore c ts) : ReadAs source e ts .union := by
  intro d c hd hc
  obtain ⟨found, hbare, hfound⟩ := h d c hd (hc.tighter (by decide))
  have hend : c.sees "|" = false := hc.sees (.inr (by decide))
  exact ⟨found, hbare,
    type_takes hc (chain_one .union (hopen c hc.closes) (by decide) (by decide) hend hfound)⟩

theorem union_readAs {text : Text} {parts : List (TypeExpr × List Token)} {out : List Token}
    (hlen : 2 ≤ parts.length) (hs : Separated "|" (parts.map (·.2)) out)
    (h : ∀ p ∈ parts, ReadAs source p.1 p.2 .intersection)
    (hopen : ∀ c : Cursor, c.peek.Closes → OpensBefore c out) :
    ReadAs source (.union (parts.map (·.1)) text) out .union := by
  intro d c hd hc
  have hitem : ReadsEach (intersection (.upTo source d)) .intersection parts := fun p hp c hc =>
    h p hp d c (Nat.le_trans (hs.length_le _ (List.mem_map_of_mem hp)) hd) hc
  have hend : c.sees "|" = false := hc.sees (.inr (by decide))
  obtain ⟨found, hbare, text', hfound⟩ := chain_more .union hlen hs
    (hopen c hc.closes) (by decide) (by decide) (by decide) (by decide) hitem
    (hc.tighter (by decide)) hend
  exact ⟨_, by simp [TypeExpr.bare, hbare], type_takes hc hfound⟩

end Operators

/-! ## All tiers -/

/-- The type parser takes a spelling and answers with the type that is spelled. -/
theorem Spelled.readAs (source : Text) {tier : Tier} {e : TypeExpr} {ts : List Token}
    (h : Spelled tier e ts) : ReadAs source e ts tier := by
  -- by induction on the spelling; one level of the rules is used up for each bracket
  induction h with
  | keyword ht hk => exact fun d c _ hc => ⟨_, rfl, primary_keyword ht hk hc⟩
  | boolean ht hb => exact fun d c _ _ => ⟨_, rfl, primary_boolean ht hb⟩
  | string hl => exact fun d c _ _ => ⟨_, rfl, primary_string hl⟩
  | number hl => exact fun d c _ _ => ⟨_, rfl, primary_number hl⟩
  | negative hm hl => exact fun d c _ _ => ⟨_, rfl, primary_negative hm hl⟩
  | name hq =>
    intro d c _ hc
    obtain ⟨text, htakes⟩ := primary_name hq hc
    exact ⟨_, by simp [TypeExpr.bare], htakes⟩
  | @application name text ts inner o k parts hq ho hgap hk hparts hs ih =>
    intro d c hd hc
    obtain ⟨d, rfl⟩ : ∃ k, d = k + 1 := ⟨d - 1, by simp at hd; omega⟩
    have hl : ∀ p ∈ parts, p.2.length ≤ d := hs.part_length_le (by simp at hd; omega)
    obtain ⟨found, hbare, text', htakes⟩ := primary_application (c := c) hq ho hgap hk hs
      (fun p hp => (hparts p hp).opens) (readsEach_type ih hl)
    exact ⟨_, by simp [TypeExpr.bare, hbare], htakes⟩
  | @tuple text inner o k parts ho hk hparts hs ih =>
    intro d c hd hc
    obtain ⟨d, rfl⟩ : ∃ k, d = k + 1 := ⟨d - 1, by simp at hd; omega⟩
    have hl : ∀ p ∈ parts, p.2.length ≤ d := hs.part_length_le (by simp at hd; omega)
    obtain ⟨found, hbare, text', htakes⟩ := primary_tuple (c := c) ho hk hs
      (fun p hp => (hparts p hp).opens) (readsEach_type ih hl)
    exact ⟨_, by simp [TypeExpr.bare, hbare], htakes⟩
  | @object text o k members ho hk hfits _ ih =>
    intro d c hd hc
    obtain ⟨d, rfl⟩ : ∃ k, d = k + 1 := ⟨d - 1, by simp at hd; omega⟩
    have hl : ∀ g ∈ members, g.type.length ≤ d := fun g hg => by
      have := Signature.type_length_le hg
      simp only [List.length_cons, List.length_append] at hd
      omega
    have htype : ∀ g ∈ members, ∀ c, Stops .union c → ∃ found, found.bare = g.member.type.bare ∧
        Takes (Rules.upTo source (d + 1)).type g.type c found :=
      fun g hg c hc => ih g hg d c (hl g hg) hc
    obtain ⟨found, hbare, text', htakes⟩ := primary_object (c := c) ho hk hfits htype
    exact ⟨_, by simp [TypeExpr.bare, hbare], htakes⟩
  | @parenthesized e ts o k ho hk hspelled ih =>
    intro d c hd hc
    obtain ⟨d, rfl⟩ : ∃ k, d = k + 1 := ⟨d - 1, by simp at hd; omega⟩
    obtain ⟨found, hbare, htakes⟩ := ih d (c.before [k]) (by simp at hd; omega)
      (.ofMark hk (by decide) (by decide) [])
    exact ⟨found, hbare, primary_parenthesized ho hk hspelled.balanced hc htakes⟩
  | operand h ih => exact operand_readAs ih h.opens
  | array _ ho hline hk ih => exact array_readAs ih ho hline hk
  | single h ih => exact intersection_readAs_one ih h.opens
  | @intersection text out parts hlen hparts hs ih =>
    have hspelled : Spelled .intersection (.intersection (parts.map (·.1)) text) out :=
      .intersection parts hlen hparts hs
    exact intersection_readAs hlen hs ih hspelled.opens
  | alternative h ih => exact union_readAs_one ih h.opens
  | @union text out parts hlen hparts hs ih =>
    have hspelled : Spelled .union (.union (parts.map (·.1)) text) out :=
      .union parts hlen hparts hs
    exact union_readAs hlen hs ih hspelled.opens

/-- Reading the tokens of a spelling with nothing behind them gives the type that
is spelled. -/
theorem Spelled.only_ofTokens {source : Text} {e : TypeExpr} {ts : List Token} {last : Token}
    (h : Spelled .union e ts) (hl : ts.length ≤ source.length + 1) (hlast : last.isEnd = true)
    (trailing : Rejection) :
    ∃ found, found.bare = e.bare ∧
      only (Rules.of source).type trailing (Cursor.ofTokens (ts ++ [last])) =
        .ok (found, { rest := [], last }) := by
  let c : Cursor := { rest := [], last }
  have hc : Stops .union c :=
    ⟨.inl hlast, fun m _ => by
      simp only [Token.isEnd, beq_iff_eq] at hlast
      show last.is m = false
      simp [Token.is, Token.isWord, Token.isMark, hlast]⟩
  obtain ⟨found, hbare, htakes⟩ := h.readAs source (source.length + 1) c hl hc
  refine ⟨found, hbare, ?_⟩
  have hcursor : Cursor.ofTokens (ts ++ [last]) = c.before ts := by
    simp [Cursor.ofTokens, Cursor.before, c]
  have hread : (Rules.of source).type (c.before ts) = .ok (found, c) := htakes
  rw [hcursor, only]
  simp [hread, c, Cursor.peek, hlast]

end WireSchema.TypeGrammar
