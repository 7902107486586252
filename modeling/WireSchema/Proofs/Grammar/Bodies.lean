import WireSchema.Proofs.Grammar.Lines
import WireSchema.Proofs.Grammar.Reading
import WireSchema.Proofs.Grammar.Statements
/-!
# Bodies of interfaces and object types

The members of an interface or an object type are the same whether semicolons
close them or each stands on lines of its own, as long as the line breaks keep
them apart. Without a semicolon an index, call or construct signature takes the
properties and methods behind it with it.
-/

namespace WireSchema

open Source Source.Cursor Source.Parser

namespace MemberLine

/-- The members between braces are `found`: those of an interface, those of an
object type, and wherever else the braces stand. -/
structure ReadsAs (text : Text) (found : List (Property TypeExpr)) : Prop where
  interface : Declaration.parse ("interface X \x7b" ++ (text ++ "\n\x7d")) =
    .ok [{ name := "X", docs := {}, body := .interface [] [] found }]
  objectType : ∃ written, TypeExpr.parse ("\x7b" ++ (text ++ "\n\x7d")) = .ok (.object found written)
  anywhere : ∀ (front back source : Text) (fs vs : List Token) (brace last final : Token) (n : Nat),
    source = front ++ (text ++ ("\n\x7d" ++ back)) → tokenize front 0 front.length = .ok (fs ++ [brace, last]) →
      brace.is "\x7b" = true → last.spaceBefore = false →
      tokensFrom source.length (front.length + text.length + 2) {} back = .ok (vs ++ [final]) → text.length + 2 ≤ n →
      ∃ ts, tokenize source 0 source.length = .ok (fs ++ brace :: (ts ++ (vs ++ [final]))) ∧
        TypeGrammar.members (Rules.upTo source n) (Cursor.before ⟨vs, final⟩ (brace :: ts)) = .ok (found, ⟨vs, final⟩)

variable {lines : List (MemberLine × Bool)} {front back source : Text} {fs us : List Token} {brace last t : Token} {c : Cursor}
  {n k : Nat}

/-- The brace behind the last line. -/
def closing : Chunk := ⟨"\n", "\x7d", .mark⟩

theorem closing_marks (k : Nat) : (closing.token k).Marks "\x7d" := ⟨rfl, rfl⟩

theorem length_le_body {p : MemberLine × Bool} (hp : p ∈ lines) : p.1.line.length ≤ (body lines).length := by
  induction lines with
  | nil => cases hp
  | cons q lines ih =>
    obtain ⟨m, closed⟩ := q
    rw [body, List.length_append, List.length_append]
    rcases List.mem_cons.1 hp with rfl | hp
    · exact Nat.le_add_right _ _
    · have := ih hp
      omega

theorem tokensFrom_closing {stop : Nat} (hstop : k + 2 ≤ stop) (h : tokensFrom stop (k + 2) {} back = .ok us) :
    tokensFrom stop k {} ("\n\x7d" ++ back) = .ok (closing.token k :: us) := by
  have hreadable : Chunk.Readable [closing] back := ⟨by decide, Chunk.fits_mark (by decide) _ _, trivial⟩
  have hread := hreadable.tokensFrom_eq (show k + (Chunk.texts [closing]).length ≤ stop from hstop)
  rw [show k + (Chunk.texts [closing]).length = k + 2 from rfl, h] at hread
  exact hread

/-- The tokens of lines between braces are those they have alone. -/
theorem tokenize_body (hsource : source = front ++ (body lines ++ ("\n\x7d" ++ back)))
    (hfront : tokenize front 0 front.length = .ok (fs ++ [last])) (hspace : last.spaceBefore = false)
    (hback : tokensFrom source.length (front.length + (body lines).length + 2) {} back = .ok us) :
    tokenize source 0 source.length =
      .ok (fs ++ (bodyTokens front.length lines ++ closing.token (front.length + (body lines).length) :: us)) := by
  have hlength : source.length = front.length + (body lines).length + 2 + back.length := by
    rw [hsource]
    simp only [List.length_append, show ("\n\x7d" : Text).length = 2 from rfl]
    omega
  have hclosing := tokensFrom_closing (k := front.length + (body lines).length) (by omega) hback
  have hparted : Parted ("\n\x7d" ++ back) := parted_cons (by decide) _
  have hbody := tokensFrom_body hparted (by omega) hclosing
  have hall := tokenize_behind (k := 0) hfront hspace (parted_body hparted) (by omega) hbody
  rw [List.map_congr_left fun t _ => Token.later_zero t, List.map_id', ← hsource] at hall
  rw [tokenize, List.drop_zero]
  exact hall

/-- The members of lines between braces are those of the lines. -/
theorem members_body (hapart : lines.IsChain fun p p' => p.2 = true ∨ Apart p.1 p'.1)
    (hsource : source = front ++ (body lines ++ ("\n\x7d" ++ back))) (hn : (body lines).length + 2 ≤ n)
    (hbrace : brace.is "\x7b" = true) (ht : t.Marks "\x7d") :
    TypeGrammar.members (Rules.upTo source n) (c.before (brace :: (bodyTokens front.length lines ++ [t]))) =
      .ok (lines.filterMap (·.1.property), c) := by
  have hlines : ∀ p ∈ lines, p.1.line.length + 2 ≤ n := fun p hp => by
    have := length_le_body hp
    omega
  obtain ⟨hreads, _⟩ := reads_lines (e := c.before [t]) (parted_cons (by decide) _) ht hlines hapart hsource
  refine bind_ok.2 ⟨_, _, expect_before hbrace _ c, bind_ok.2 ⟨_, c.before [t], ?_, bind_ok.2 ⟨(), _, ?_, rfl⟩⟩⟩
  · rw [Cursor.before_append, loop_apply]
    refine rounds_of_le ?_ (hreads [])
    have : lines.length ≤ (bodyTokens front.length lines).length := length_le_bodyTokens
    simp only [rest_before, List.length_append]
    omega
  · exact expect_before (ht.is_eq _) [] c

/-- An interface that ends the source is its only declaration. -/
theorem statements_interface {rules : Rules} {keyword name : Token} {ts : List Token} {found : List (Property TypeExpr)}
    (hkeyword : keyword.is "interface" = true) (hdocs : keyword.docs = []) (hname : name.isWord = true)
    (hbrace : brace.is "\x7b" = true) (hlast : c.last.isEnd = true) (hrest : c.rest = [])
    (hmembers : TypeGrammar.members rules (c.before (brace :: ts)) = .ok (found, c)) :
    DeclarationGrammar.statements rules (c.before (keyword :: name :: brace :: ts)) =
      .ok ([{ name := name.raw, docs := {}, body := .interface [] [] found }], c) := by
  let declaration : Declaration := { name := name.raw, docs := {}, body := .interface [] [] found }
  have hinterface : DeclarationGrammar.interface rules {} (c.before (keyword :: name :: brace :: ts)) = .ok (declaration, c) := by
    have hnot {w : Text} (hne : Text.ofString "\x7b" ≠ w) : (c.before (brace :: ts)).sees w = false := Token.is_ne hbrace hne
    simp [DeclarationGrammar.interface, expect_before hkeyword, expectName_before hname, DeclarationGrammar.parameters,
      DeclarationGrammar.bases, accept_of_not_sees (hnot (w := "<") (by decide)),
      accept_of_not_sees (hnot (w := "extends") (by decide)), hmembers, declaration]
  have hnot {w : Text} (hne : Text.ofString "interface" ≠ w) :
      (c.before (keyword :: name :: brace :: ts)).sees w = false := Token.is_ne hkeyword hne
  have hmodifiers : loop (fun () => do
      if ← acceptEither "export" "declare" then return .again () else return .done () : Unit → Parser (Turn Unit Unit)) ()
        (c.before (keyword :: name :: brace :: ts)) = .ok ((), c.before (keyword :: name :: brace :: ts)) :=
    loop_done (by simp [acceptEither_of_not_sees (hnot (w := "export") (by decide)) (hnot (w := "declare") (by decide))])
  have hstatement : DeclarationGrammar.statement rules (c.before (keyword :: name :: brace :: ts)) = .ok (some declaration, c) := by
    refine bind_ok.2 ⟨_, _, rfl, bind_ok.2 ⟨_, _, accept_of_not_sees (hnot (by decide)), ?_⟩⟩
    rw [if_neg Bool.false_ne_true]
    refine bind_ok.2 ⟨_, _, rfl, bind_ok.2 ⟨_, _, rfl, ?_⟩⟩
    rw [hnot (w := "export") (by decide), Bool.false_and, if_neg Bool.false_ne_true]
    refine bind_ok.2 ⟨_, _, hmodifiers, bind_ok.2 ⟨_, _, rfl, ?_⟩⟩
    have hbegins : ((c.before (keyword :: name :: brace :: ts)).sees "interface" &&
        ((c.before (keyword :: name :: brace :: ts)).peek 1).isWord) = true := Bool.and_eq_true_iff.2 ⟨hkeyword, hname⟩
    rw [if_pos hbegins, peek_before, hdocs]
    exact bind_ok.2 ⟨_, _, hinterface, rfl⟩
  have hround : DeclarationGrammar.statementsRound rules [] (c.before (keyword :: name :: brace :: ts)) =
      .ok (.again [declaration], c) := by
    simp [DeclarationGrammar.statementsRound, Token.not_isEnd_of_is hkeyword, hstatement]
  have hdone : DeclarationGrammar.statementsRound rules [declaration] c = .ok (.done [declaration], c) := by
    have hend : c.peek.isEnd = true := by rwa [peek_length_le (by simp [hrest])]
    simp [DeclarationGrammar.statementsRound, hend]
  rw [DeclarationGrammar.statements_eq, loop_apply, rounds_again hround, rounds_done hdone (by simp)]

/-- A body of members reads as an object type. -/
theorem type_object {ts : List Token} {found : List (Property TypeExpr)} (hbrace : brace.Marks "\x7b")
    (hmapped : TypeGrammar.beginsMapped (c.before (brace :: ts)) = false) (hlast : c.last.isEnd = true) (hrest : c.rest = [])
    (hmembers : TypeGrammar.members (Rules.upTo source n) (c.before (brace :: ts)) = .ok (found, c)) :
    TypeGrammar.type (Rules.upTo source n) (c.before (brace :: ts)) = .ok (.object found (spell (brace :: ts)), c) := by
  have hend (w : Text) : c.sees w = false := not_sees_end hlast (by simp [hrest]) w
  have hstops : TypeGrammar.Stops .union c := ⟨.inl (by rwa [peek_length_le (by simp [hrest])]), fun m _ => hend m⟩
  have hopens : TypeGrammar.OpensBefore c (brace :: ts) := ⟨brace, ts, rfl, .mark (by decide) hbrace⟩
  have hprimary : Takes (TypeGrammar.primary (Rules.upTo source n)) (brace :: ts) c (.object found (spell (brace :: ts))) := by
    have hfunction : TypeGrammar.beginsFunction (c.before (brace :: ts)) = false := by
      simp [TypeGrammar.beginsFunction, hbrace.is_eq]
    rw [Takes, TypeGrammar.primary_mark hbrace.1, TypeGrammar.markType]
    simp [hfunction, hmapped, hbrace.2, hmembers]
  have hoperand : Takes (TypeGrammar.operand (Rules.upTo source n)) (brace :: ts) c (.object found (spell (brace :: ts))) := by
    have hloop : loop (TypeGrammar.bracketRound (Rules.upTo source n) (c.before (brace :: ts)))
        (.object found (spell (brace :: ts))) c = .ok (.object found (spell (brace :: ts)), c) :=
      loop_done (by simp [TypeGrammar.bracketRound, hend])
    have hread : TypeGrammar.primary (Rules.upTo source n) (c.before (brace :: ts)) = _ := hprimary
    rw [Takes, TypeGrammar.operand_of_opensBefore hopens, TypeGrammar.postfixed]
    simp [hread, hloop]
  have hintersection : Takes (TypeGrammar.intersection (Rules.upTo source n)) (brace :: ts) c _ :=
    TypeGrammar.chain_one .intersection hopens (by decide) (by decide) (hend "&") hoperand
  have hunion : Takes (TypeGrammar.union (Rules.upTo source n)) (brace :: ts) c _ :=
    TypeGrammar.chain_one .union hopens (by decide) (by decide) (hend "|") hintersection
  exact TypeGrammar.type_takes hstops hunion

/-- The tokens of lines between braces that end the source. -/
theorem ofTokens_body {ts : List Token} (hsource : source = front ++ (body lines ++ "\n\x7d"))
    (hfront : tokenize front 0 front.length = .ok (ts ++ [last])) (hspace : last.spaceBefore = false) :
    ∃ tokens c, tokenize source 0 source.length = .ok tokens ∧ c.rest = [] ∧ c.last.isEnd = true ∧
      ofTokens tokens = Cursor.before c (ts ++ (bodyTokens front.length lines ++
        [closing.token (front.length + (body lines).length)])) := by
  have hlength : source.length = front.length + (body lines).length + 2 := by
    rw [hsource]
    simp only [List.length_append, show ("\n\x7d" : Text).length = 2 from rfl]
    omega
  let final : Token := { lexeme := .endOfInput, raw := [], start := source.length, stop := source.length,
                         spaceBefore := false, lineBreak := true, docs := [] }
  have hback : tokensFrom source.length (front.length + (body lines).length + 2) {} [] = .ok [final] :=
    tokensFrom_end (Nat.le_of_eq hlength)
  refine ⟨_, ⟨[], final⟩, tokenize_body hsource hfront hspace hback, rfl, rfl, ?_⟩
  rw [← ofTokens_before]
  simp

theorem readsAs_body (hapart : lines.IsChain fun p p' => p.2 = true ∨ Apart p.1 p'.1) :
    ReadsAs (body lines) (lines.filterMap (·.1.property)) where
  interface := by
    let token (lexeme : Lexeme) (raw : Text) (start stop : Nat) (spaceBefore lineBreak : Bool) : Token :=
      { lexeme, raw, start, stop, spaceBefore, lineBreak, docs := [] }
    let source : Text := "interface X \x7b" ++ (body lines ++ "\n\x7d")
    have hsource : source = "interface X \x7b" ++ (body lines ++ "\n\x7d") := rfl
    have hfront : tokenize "interface X \x7b" 0 ("interface X \x7b" : Text).length =
        .ok ([token .word "interface" 0 9 false false, token .word "X" 10 11 true false, token .mark "\x7b" 12 13 true false] ++
          [token .endOfInput [] 13 13 false true]) := by cbv
    obtain ⟨tokens, c, htokens, hrest, hlast, hcursor⟩ := ofTokens_body hsource hfront rfl
    refine Except.bind_eq_ok.2 ⟨tokens, htokens, Except.bind_eq_ok.2 ⟨(_, c), ?_, rfl⟩⟩
    rw [hcursor]
    refine statements_interface (by decide) rfl (by decide) (by decide) hlast hrest ?_
    exact members_body hapart hsource (by simp; omega) (by decide) (closing_marks _)
  objectType := by
    let token (lexeme : Lexeme) (raw : Text) (start stop : Nat) (lineBreak : Bool) : Token :=
      { lexeme, raw, start, stop, spaceBefore := false, lineBreak, docs := [] }
    let source : Text := "\x7b" ++ (body lines ++ "\n\x7d")
    have hsource : source = "\x7b" ++ (body lines ++ "\n\x7d") := rfl
    let brace : Token := token .mark "\x7b" 0 1 false
    have hfront : tokenize "\x7b" 0 ("\x7b" : Text).length = .ok ([brace] ++ [token .endOfInput [] 1 1 true]) := by cbv
    obtain ⟨tokens, c, htokens, hrest, hlast, hcursor⟩ := ofTokens_body hsource hfront rfl
    let ts : List Token := bodyTokens 1 lines ++ [closing.token (1 + (body lines).length)]
    have hlength : (body lines).length + 2 ≤ source.length + 1 := by
      rw [hsource, List.length_append, show ("\x7b" : Text).length = 1 from rfl, List.length_append]
      omega
    have hmembers : TypeGrammar.members (Rules.upTo source (source.length + 1)) (c.before (brace :: ts)) =
        .ok (lines.filterMap (·.1.property), c) := members_body hapart hsource hlength (by decide) (closing_marks _)
    have hclosing : (c.before [closing.token (1 + (body lines).length)]).peek.Marks "\x7d" := closing_marks _
    -- the brace begins no mapped type, so its members are read
    have hmapped : TypeGrammar.beginsMapped (c.before (brace :: ts)) = false := by
      rw [Cursor.before_cons, Cursor.before_append]
      exact not_mapped hclosing brace
    have htype := type_object ⟨rfl, rfl⟩ hmapped hlast hrest hmembers
    refine ⟨spell (brace :: ts), Except.bind_eq_ok.2 ⟨tokens, htokens, Except.bind_eq_ok.2 ⟨(_, c), ?_, rfl⟩⟩⟩
    have hend : c.peek.isEnd = true := by rwa [peek_length_le (by simp [hrest])]
    rw [hcursor]
    refine bind_ok.2 ⟨_, _, htype, bind_ok.2 ⟨_, _, rfl, ?_⟩⟩
    rw [if_pos hend]
    rfl
  anywhere front back source fs vs brace last final n hsource hfront hbrace hspace hback hn := by
    have hfront' : tokenize front 0 front.length = .ok ((fs ++ [brace]) ++ [last]) := by rw [hfront, List.append_assoc]; rfl
    have htokens := tokenize_body hsource hfront' hspace hback
    refine ⟨bodyTokens front.length lines ++ [closing.token (front.length + (body lines).length)], ?_, ?_⟩
    · rw [htokens]
      simp
    · exact members_body hapart hsource hn hbrace (closing_marks _)

/-- Members that all are closed by semicolons are those of the lines, and line
breaks do for the semicolons where they keep the lines apart. -/
theorem members_of_lines (ms : List MemberLine) :
    ReadsAs (body (ms.map (·, true))) (ms.filterMap (·.property)) ∧
      (ms.IsChain Apart → ReadsAs (body (ms.map (·, false))) (ms.filterMap (·.property))) := by
  have hproperties (closed : Bool) : (ms.map (·, closed)).filterMap (·.1.property) = ms.filterMap (·.property) :=
    List.filterMap_map ..
  refine ⟨?_, fun hapart => ?_⟩
  · rw [← hproperties true]
    refine readsAs_body ?_
    rw [List.isChain_map]
    exact (List.pairwise_of_forall fun _ _ => .inl rfl).isChain
  · rw [← hproperties false]
    refine readsAs_body ?_
    rw [List.isChain_map]
    exact hapart.imp fun _ _ => .inr

/-! ### Three lines -/

/-- A token that has no documentation. -/
def undocumented (lexeme : Lexeme) (raw : Text) (start stop : Nat) (spaceBefore lineBreak : Bool) : Token :=
  { lexeme, raw, start, stop, spaceBefore, lineBreak, docs := [] }

def propertyLine : MemberLine where
  text := "  b: string"
  tokens := [undocumented .word "b" 3 4 true true, undocumented .mark ":" 4 5 false false,
    undocumented .word "string" 6 12 true false]
  last := undocumented .endOfInput [] 12 12 false true
  property := some { name := "b", isOptional := false, type := .keyword "string", docs := {} }
  lexed := by cbv
  tight := rfl
  read := by rfl
  annotated _ := ⟨undocumented .mark ":" 4 5 false false, by simp, rfl, rfl⟩
  nested := by decide
  unmapped _ := rfl

def methodLine : MemberLine where
  text := "  m(x: string): void"
  tokens := [undocumented .word "m" 3 4 true true, undocumented .mark "(" 4 5 false false,
    undocumented .word "x" 5 6 false false, undocumented .mark ":" 6 7 false false,
    undocumented .word "string" 8 14 true false, undocumented .mark ")" 14 15 false false,
    undocumented .mark ":" 15 16 false false, undocumented .word "void" 17 21 true false]
  last := undocumented .endOfInput [] 21 21 false true
  property := some { name := "m", isOptional := false, type := .verbatim "(x: string) => void" .function, docs := {} }
  lexed := by cbv
  tight := rfl
  read := by rfl
  annotated _ := ⟨undocumented .mark ":" 6 7 false false, by simp, rfl, rfl⟩
  nested := by decide
  unmapped _ := rfl

def indexLine : MemberLine where
  text := "  [k: string]: number"
  tokens := [undocumented .mark "[" 3 4 true true, undocumented .word "k" 4 5 false false,
    undocumented .mark ":" 5 6 false false, undocumented .word "string" 7 13 true false,
    undocumented .mark "]" 13 14 false false, undocumented .mark ":" 14 15 false false,
    undocumented .word "number" 16 22 true false]
  last := undocumented .endOfInput [] 22 22 false true
  property := none
  lexed := by cbv
  tight := rfl
  read := by rfl
  annotated := nofun
  nested := by decide
  unmapped _ := rfl

/-- A property, a method and an index signature are told apart by line breaks. -/
theorem members_of_lines_property :
    [propertyLine, methodLine, indexLine].IsChain Apart ∧
      ReadsAs (body ([propertyLine, methodLine, indexLine].map (·, false)))
        ([propertyLine, methodLine, indexLine].filterMap (·.property)) := by
  have hmethod : Apart propertyLine methodLine :=
    ⟨nofun, by decide, fun his => absurd his (by decide), by decide, by decide⟩
  have hindex : Apart methodLine indexLine :=
    ⟨nofun, by decide, fun his => absurd his (by decide), by decide, by decide⟩
  have hapart : [propertyLine, methodLine, indexLine].IsChain Apart := .cons_cons hmethod (.cons_cons hindex (.singleton _))
  exact ⟨hapart, (members_of_lines _).2 hapart⟩

/-- An index signature takes the property behind it with it unless a semicolon stands between them. -/
theorem indexLine_takes_property :
    ¬ ∀ (ms : List MemberLine) (found : List (Property TypeExpr)),
      ReadsAs (body (ms.map (·, true))) found → ReadsAs (body (ms.map (·, false))) found := by
  intro hall
  let b : Property TypeExpr := { name := "b", isOptional := false, type := .keyword "string", docs := {} }
  have hclosed : ReadsAs (body ([indexLine, propertyLine].map (·, true))) [b] :=
    readsAs_body (.cons_cons (.inl rfl) (.singleton _))
  have hread : Declaration.parse "interface X \x7b\n  [k: string]: number\n  b: string\n\x7d" =
      .ok [{ name := "X", docs := {}, body := .interface [] [] [b] }] := (hall [indexLine, propertyLine] _ hclosed).interface
  have hlost : Declaration.parse "interface X \x7b\n  [k: string]: number\n  b: string\n\x7d" =
      .ok [{ name := "X", docs := {}, body := .interface [] [] [] }] := by
    generalize hsource : ("interface X \x7b\n  [k: string]: number\n  b: string\n\x7d" : Text) = source
    have htokens : tokenize source 0 source.length = .ok (
        undocumented .word "interface" 0 9 false false :: undocumented .word "X" 10 11 true false ::
        undocumented .mark "\x7b" 12 13 true false :: (bodyTokens 13 [(indexLine, false), (propertyLine, false)] ++
        [closing.token 47, undocumented .endOfInput [] 49 49 false true])) := by
      subst hsource
      cbv
    subst hsource
    rw [Declaration.parse]
    exact (congrArg (· >>= _) htokens).trans rfl
  cases Except.ok.inj (hread.symm.trans hlost)

end MemberLine

end WireSchema
