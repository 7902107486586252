import WireSchema.Declaration.TypeGrammar
import WireSchema.Proofs.Grammar.Moves
import WireSchema.Proofs.Lexing.Moved
/-!
# The gap before a type

A type does not ask for the gap before its first token: only array brackets and
type arguments are told apart by gaps, and these stand behind another token.
-/

namespace WireSchema

open Source Source.Cursor Source.Parser

namespace Source

section
variable {α β σ : Type} {line : Bool} {t : Token} {c : Cursor} {p q : Parser α} {f : α → Parser β} {w : Text}

@[simp] theorem sees_widen (line : Bool) (t : Token) (c : Cursor) (w : Text) (n : Nat) :
    (c.before [t.widen line]).sees w n = (c.before [t]).sees w n := by
  cases n <;> rfl

@[simp] theorem isWord_widen (line : Bool) (t : Token) (c : Cursor) (n : Nat) :
    ((c.before [t.widen line]).peek n).isWord = ((c.before [t]).peek n).isWord := by
  cases n <;> rfl

@[simp] theorem textSince_widen (line : Bool) (t : Token) (c : Cursor) :
    textSince (c.before [t.widen line]) = textSince (c.before [t]) := by
  funext d
  have htake (n : Nat) : spell ((t.widen line :: c.rest).take n) = spell ((t :: c.rest).take n) := by
    cases n <;> rfl
  exact congrArg (fun text => Except.ok (text, d)) (htake _)

namespace Parser

/-- The parser does not ask for the gap before the first token. -/
def Alike (line : Bool) (t : Token) (c : Cursor) (p : Parser α) : Prop := p (c.before [t.widen line]) = p (c.before [t])

theorem Alike.bind (h : Alike line t c p) (f : α → Parser β) : Alike line t c (p >>= f) := by
  rw [Alike, bind_apply, bind_apply, h]

theorem Alike.ite {b : Prop} [Decidable b] (hp : b → Alike line t c p) (hq : ¬ b → Alike line t c q) :
    Alike line t c (if b then p else q) := by
  split
  next h => exact hp h
  next h => exact hq h

theorem alike_next_bind (p : Parser β) : Alike line t c (next >>= fun _ => p) := rfl

theorem alike_accept (h : t.is w = true) : Alike line t c (accept w) := by
  rw [Alike, accept_before h, accept_before (t := t.widen line) h]

theorem alike_accept_bind {f : Bool → Parser β} (hf : t.is w = false → Alike line t c (f false)) :
    Alike line t c (accept w >>= f) := by
  cases his : t.is w with
  | true => exact (alike_accept his).bind f
  | false =>
    rw [Alike, bind_apply, bind_apply, accept_of_not_sees (c := c.before [t]) his,
      accept_of_not_sees (c := c.before [t.widen line]) his]
    exact hf his

theorem alike_expect : Alike line t c (expect w) := alike_accept_bind fun _ => rfl

theorem alike_get_bind {f : Cursor → Parser β} (hf : f (c.before [t.widen line]) = f (c.before [t]))
    (h : Alike line t c (f (c.before [t]))) : Alike line t c (get >>= f) := by
  rw [Alike, bind_apply, bind_apply, get_apply, get_apply, ok_bind, ok_bind, hf]
  exact h

theorem alike_sees_bind {f : Bool → Parser β} {n : Nat} (h : Alike line t c (f ((c.before [t]).sees w n))) :
    Alike line t c (sees w n >>= f) := by
  rw [Alike, bind_apply, bind_apply, sees_apply, sees_apply, ok_bind, ok_bind, sees_widen]
  exact h

/-- Tokens behind the first one are the same. -/
theorem alike_peek_bind {f : Token → Parser β} {n : Nat} (h : Alike line t c (f (c.peek n))) :
    Alike line t c (peek (n + 1) >>= f) := h

theorem alike_when_bind {b : Bool} {p : Parser Unit} {f : Unit → Parser β} (hp : Alike line t c p)
    (hf : Alike line t c (f ())) : Alike line t c (when b p >>= f) := by
  cases b with
  | true => exact hp.bind f
  | false => exact hf

theorem alike_loop {round : σ → Parser (Turn σ β)} {s : σ} (h : Alike line t c (round s)) :
    Alike line t c (loop round s) :=
  alike_get_bind rfl (h.bind _)

theorem alike_expectName : Alike line t c expectName := by
  cases hword : t.isWord with
  | true => rw [Alike, expectName_before hword, expectName_before (t := t.widen line) hword, Token.widen]
  | false =>
    have hword' : (t.widen line).isWord = false := hword
    simp only [Alike, expectName, bind_apply, peek_apply, peek_before, ok_bind, hword, hword']
    rfl

theorem alike_skipBalanced : Alike line t c skipBalanced := alike_loop rfl

end Parser

end

end Source

namespace TypeGrammar

section
variable {line : Bool} {t : Token} {c : Cursor} {rules : Rules} {mark : Text} {item : Parser TypeExpr}
  {build : List TypeExpr → Text → TypeExpr}

theorem beginsFunction_widen (line : Bool) (t : Token) (c : Cursor) :
    beginsFunction (c.before [t.widen line]) = beginsFunction (c.before [t]) := by
  simp only [beginsFunction, sees_widen]
  rfl

theorem beginsMapped_widen (line : Bool) (t : Token) (c : Cursor) :
    beginsMapped (c.before [t.widen line]) = beginsMapped (c.before [t]) := by
  simp only [beginsMapped, sees_widen, isWord_widen]
  rfl

theorem alike_qualifiedName : Alike line t c qualifiedName := alike_expectName.bind _

theorem alike_functionType : Alike line t c (functionType rules) := by
  refine alike_get_bind (by simp only [textSince_widen]) (alike_sees_bind (alike_when_bind alike_skipBalanced ?_))
  exact alike_sees_bind (alike_when_bind rfl (alike_skipBalanced.bind _))

theorem alike_reference : Alike line t c (reference rules) :=
  alike_get_bind (by simp only [textSince_widen]) (alike_qualifiedName.bind _)

/-- The words of a constructor type before its parameters begin with the first token. -/
theorem alike_wordType (hword : t.isWord = true) : Alike line t c (wordType rules t.raw) := by
  refine alike_get_bind (by simp only [textSince_widen, sees_widen]) (.ite (fun _ => alike_next_bind _) fun _ =>
    .ite (fun hnew => ?_) fun _ => .ite (fun _ => alike_next_bind _) fun _ => .ite (fun _ => alike_next_bind _) fun _ =>
    .ite (fun _ => alike_next_bind _) fun _ => alike_reference)
  have hnot {w : Text} (hw : w ∉ (["new", "abstract"] : List Text)) : t.is w = false := by
    refine Bool.eq_false_iff.2 fun his => hw ?_
    rw [Token.is, Bool.and_eq_true, beq_iff_eq] at his
    rw [← his.2]
    rcases hnew with hraw | ⟨hraw, _⟩ <;> simp [hraw]
  have hend : t.isEnd = false := Token.not_isEnd_of_isWord hword
  refine Alike.bind (alike_loop (alike_get_bind ?_ (.ite (fun hstop => ?_) fun _ => alike_next_bind _))) _
  · simp only [sees_widen]
    rfl
  · simp [hend, hnot (w := "(") (by decide), hnot (w := "<") (by decide)] at hstop

theorem alike_markType : Alike line t c (markType rules t) := by
  refine alike_get_bind ?_ (.ite (fun _ => alike_functionType) fun _ => .ite (fun _ => alike_next_bind _) fun _ =>
    .ite (fun _ => .ite (fun _ => alike_skipBalanced.bind _) fun _ => (alike_expect.bind _).bind _) fun _ =>
    .ite (fun _ => alike_get_bind (by simp only [textSince_widen]) (alike_expect.bind _)) fun _ =>
    .ite (fun _ => alike_next_bind _) fun _ => rfl)
  simp only [textSince_widen, beginsFunction_widen, beginsMapped_widen]
  rfl

theorem alike_primary : Alike line t c (primary rules) := by
  have hfirst : (t.widen line).lexeme = t.lexeme := rfl
  rw [Alike, primary, bind_apply, bind_apply, peek_apply, peek_apply, ok_bind, ok_bind, peek_before, peek_before]
  cases hl : t.lexeme with
  | mark =>
    simp only [hfirst, hl]
    exact alike_markType
  | word =>
    simp only [hfirst, hl]
    exact alike_wordType (by simp [Token.isWord, hl])
  | _ =>
    simp only [hfirst, hl]
    rfl

theorem bracketRound_widen (line : Bool) (t : Token) (c : Cursor) (type : TypeExpr) :
    bracketRound rules (c.before [t.widen line]) type = bracketRound rules (c.before [t]) type := by
  simp only [bracketRound, textSince_widen]

theorem alike_postfixed : Alike line t c (postfixed rules) :=
  alike_get_bind (by simp only [funext (bracketRound_widen line t c)]) (alike_primary.bind _)

theorem alike_operand : Alike line t c (operand rules) := by
  refine alike_get_bind ?_ (.ite (fun _ => alike_next_bind _) fun _ => .ite (fun _ => alike_next_bind _) fun _ =>
    alike_postfixed)
  simp only [textSince_widen, sees_widen]
  rfl

theorem alike_chain (h : Alike line t c item) : Alike line t c (chain mark item build) :=
  alike_accept_bind fun _ => alike_get_bind (by simp only [textSince_widen]) ((h.bind _).bind _)

theorem alike_intersection : Alike line t c (intersection rules) := alike_chain alike_operand

theorem alike_type : Alike line t c (TypeGrammar.type rules) :=
  alike_get_bind (by simp only [textSince_widen]) ((alike_chain alike_intersection).bind _)

theorem alike_rules (source : Text) (n : Nat) : Alike line t c (Rules.upTo source n).type := by
  cases n with
  | zero => rfl
  | succ n => exact alike_type

theorem alike_returnType (h : Alike line t c rules.type) : Alike line t c (returnType rules) :=
  alike_get_bind (by simp only [textSince_widen]) (alike_sees_bind (alike_peek_bind (alike_when_bind rfl (h.bind _))))

end

end TypeGrammar

end WireSchema
