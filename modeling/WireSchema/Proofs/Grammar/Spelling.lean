import WireSchema.Declaration.TypeGrammar
import WireSchema.Proofs.Grammar.Moves
/-!
# Spellings of types

`Spelled tier e ts` says that the tokens `ts` are one way to write the type `e`,
with the operators that are allowed at that tier. Gaps are free but for two:
array brackets stand on the line of what they follow, and type arguments stand
right behind their name. The texts that the type keeps are not looked at.
-/

namespace WireSchema

/-! ## Types without their texts -/

namespace TypeExpr

mutual

/-- The type with no text but that of its literals. -/
def bare : TypeExpr → TypeExpr
  | keyword name => keyword name
  | literal text => literal text
  | template spans _ => template (bareSpans spans) []
  | array element _ => array (bare element) []
  | tuple elements _ variadic => tuple (bareAll elements) [] variadic
  | object members _ => object (bareMembers members) []
  | union members _ => union (bareAll members) []
  | intersection members _ => intersection (bareAll members) []
  | reference name arguments _ => reference name (bareAll arguments) []
  | verbatim _ reason => verbatim [] reason

/-- Several types with no text but that of their literals. -/
def bareAll : List TypeExpr → List TypeExpr
  | [] => []
  | e :: rest => bare e :: bareAll rest

/-- A member whose type has no text but that of its literals. -/
def bareMember : Property TypeExpr → Property TypeExpr
  | ⟨name, isOptional, type, docs⟩ => ⟨name, isOptional, bare type, docs⟩

/-- Members whose types have no text but that of their literals. -/
def bareMembers : List (Property TypeExpr) → List (Property TypeExpr)
  | [] => []
  | m :: rest => bareMember m :: bareMembers rest

/-- A part of a template whose type has no text but that of its literals. -/
def bareSpan : Span TypeExpr → Span TypeExpr
  | .chunk t => .chunk t
  | .hole e => .hole (bare e)

/-- Parts of a template whose types have no text but that of their literals. -/
def bareSpans : List (Span TypeExpr) → List (Span TypeExpr)
  | [] => []
  | s :: rest => bareSpan s :: bareSpans rest

end

theorem bareMember_eq (m : Property TypeExpr) : bareMember m = { m with type := bare m.type } := by
  cases m
  rw [bareMember]

@[simp] theorem bareAll_eq_map (es : List TypeExpr) : bareAll es = es.map bare := by
  induction es with
  | nil => rfl
  | cons e rest ih => simp [bareAll, ih]

@[simp] theorem bareMembers_eq_map (ms : List (Property TypeExpr)) :
    bareMembers ms = ms.map bareMember := by
  induction ms with
  | nil => rfl
  | cons m rest ih => simp [bareMembers, ih]

end TypeExpr

/-! ## Words and numbers -/

/-- The text is read as one word. -/
def Text.isName : Text → Bool
  | [] => false
  | c :: rest => c.beginsWord && !c.isBlank && !c.isDigit && rest.all CodePoint.continuesWord

/-- The text is read as one number. -/
def Text.isNumeral : Text → Bool
  | [] => false
  | c :: rest =>
    !c.isBlank && (c.isDigit || (c == '.' && (rest.head?.map CodePoint.isDigit).getD false)) &&
      Source.numberLength (c :: rest) == rest.length + 1

namespace Source.Token

/-- The token is a word. -/
def Names (t : Token) : Prop := t.lexeme = .word ∧ Text.isName t.raw = true

variable {t : Token} {m : Text}

theorem Names.isWord (h : t.Names) : t.isWord = true := by simp [Token.isWord, h.1]

theorem Names.isMark (h : t.Names) : t.isMark = false := by simp [Token.isMark, h.1]

theorem Names.is_eq (h : t.Names) (w : Text) : t.is w = (t.raw == w) := by
  simp [Token.is, h.isWord]

/-- A word is no text that is not read as a word. -/
theorem Names.is_eq_false (h : t.Names) (hm : Text.isName m = false) : t.is m = false := by
  rw [h.is_eq]
  refine beq_eq_false_iff_ne.2 fun e => ?_
  have := h.2
  rw [e, hm] at this
  cases this

/-- The marks that may come behind a type. -/
def closers : List Text := [",", ";", "]", ")", ">", "\x7d", "|", "&", "["]

/-- The token may come behind a type: the end of the input, or a mark that
closes what the type stands in or goes on with it. -/
def Closes (t : Token) : Prop := t.isEnd = true ∨ ∃ m ∈ closers, t.Marks m

theorem Closes.isWord (h : t.Closes) : t.isWord = false := by
  rcases h with h | ⟨m, _, h⟩
  · simp [isEnd] at h; simp [Token.isWord, h]
  · exact h.isWord

theorem Closes.is_eq_false (h : t.Closes) (hm : m ∉ closers) : t.is m = false := by
  rcases h with h | ⟨k, hk, h⟩
  · simp [isEnd] at h; simp [Token.is, Token.isWord, Token.isMark, h]
  · rw [h.is_eq]
    exact beq_eq_false_iff_ne.2 fun e => hm (e ▸ hk)

theorem Marks.closes (h : t.Marks m) (hm : m ∈ closers) : t.Closes := .inr ⟨m, hm, h⟩

end Source.Token

namespace TypeGrammar

open Source

/-- The words that begin a type of their own, whatever comes behind them. -/
def leadingWords : List Text := ["true", "false", "new", "typeof"]

/-- The words that stand for something else than a declared type. -/
def reservedWords : List Text := leadingWords ++ keywords ++ operatorWords

/-! ## Texts that types keep -/

/-- A space where there was a gap. -/
def gapText (gap : Bool) : Text := if gap then " " else []

theorem spell_cons (t : Token) (ts : List Token) :
    spell (t :: ts) = t.raw ++ ts.flatMap fun u => gapText u.spaceBefore ++ u.raw := by
  rw [spell]
  congr 2
  funext u
  cases u.spaceBefore <;> rfl

/-- The texts that literals keep. -/
inductive LiteralText : Text → Prop where
  | string (value : Text) : LiteralText (Text.quote value)
  | number {raw : Text} : Text.isNumeral raw = true → LiteralText raw
  | negative {raw : Text} (gap : Bool) :
    Text.isNumeral raw = true → LiteralText ("-" ++ (gapText gap ++ raw))
  | boolean {word : Text} : word = "true" ∨ word = "false" → LiteralText word

/-- Dots with a word behind each, as they were read. -/
inductive DottedText : List Text → Text → Prop where
  | nil : DottedText [] []
  | cons {w t : Text} {names : List Text} (before behind : Bool) :
    Text.isName w = true → DottedText names t →
    DottedText (w :: names) (gapText before ++ "." ++ (gapText behind ++ w ++ t))

/-- The texts that references without arguments keep: their name as it was read,
perhaps with empty angle brackets behind it. -/
inductive ReferenceText : Text → Text → Prop where
  | name {w t : Text} {names : List Text} :
    Text.isName w = true → w ∉ leadingWords → DottedText names t →
    ReferenceText (Text.join "." (w :: names)) (w ++ t)
  | brackets {w t : Text} {names : List Text} (gap : Bool) :
    Text.isName w = true → w ∉ leadingWords → DottedText names t →
    ReferenceText (Text.join "." (w :: names)) (w ++ t ++ ("<" ++ (gapText gap ++ ">")))

/-! ## Spellings -/

/-- Dots with a name behind each. -/
inductive Dotted : List Text → List Token → Prop where
  | nil : Dotted [] []
  | cons {d w : Token} {names : List Text} {ts : List Token} :
    d.Marks "." → w.Names → Dotted names ts → Dotted (w.raw :: names) (d :: w :: ts)

/-- A name that can stand for a declared type, with dots between its parts. -/
inductive Qualified : Text → List Token → Prop where
  | mk {w : Token} {names : List Text} {ts : List Token} :
    w.Names → Dotted names ts → w.raw ∉ leadingWords → (ts = [] → w.raw ∉ reservedWords) →
    Qualified (Text.join "." (w.raw :: names)) (w :: ts)

/-- Runs of tokens with a mark between them. -/
inductive Separated (mark : Text) : List (List Token) → List Token → Prop where
  | one (ts : List Token) : Separated mark [ts] ts
  | more {t : Token} {ts out : List Token} {rest : List (List Token)} :
    t.Marks mark → Separated mark rest out → Separated mark (ts :: rest) (ts ++ t :: out)

/-- Any number of runs of tokens with commas between them. -/
inductive Listed : List (List Token) → List Token → Prop where
  | nil : Listed [] []
  | some {runs : List (List Token)} {out : List Token} : Separated "," runs out → Listed runs out

/-- A member of an object shape and its tokens: the name, perhaps a question
mark, a colon, those of the type, and a semicolon. -/
structure Signature where
  member : Property TypeExpr
  name : Token
  mark : List Token
  colon : Token
  type : List Token
  stop : Token

namespace Signature

/-- All tokens of the member. -/
def tokens (g : Signature) : List Token := g.name :: (g.mark ++ g.colon :: (g.type ++ [g.stop]))

/-- The tokens other than those of the type are those of the member. -/
structure Fits (g : Signature) : Prop where
  kind : g.name.Names ∨ g.name.isString = true
  value : g.name.value = g.member.name
  docs : DocComment.ofBlocks g.name.docs = g.member.docs
  mark : g.mark = [] ∧ g.member.isOptional = false ∨
    ∃ q : Token, g.mark = [q] ∧ q.Marks "?" ∧ g.member.isOptional = true
  colon : g.colon.Marks ":"
  stop : g.stop.Marks ";"

end Signature

/-- How loose the operators may be that stand at the top of a type. -/
inductive Tier where
  | primary
  | operand
  | intersection
  | union

/-- The tokens are a way to write the type with operators of the tier. -/
inductive Spelled : Tier → TypeExpr → List Token → Prop where
  | keyword {t : Token} : t.Names → t.raw ∈ keywords → Spelled .primary (.keyword t.raw) [t]
  | boolean {t : Token} :
    t.Names → t.raw = "true" ∨ t.raw = "false" → Spelled .primary (.literal t.raw) [t]
  | string {t : Token} {value : Text} :
    t.lexeme = .string value → Spelled .primary (.literal (Text.quote value)) [t]
  | number {t : Token} : t.lexeme = .number → Spelled .primary (.literal t.raw) [t]
  | negative {m t : Token} :
    m.Marks "-" → t.lexeme = .number → Spelled .primary (.literal (spell [m, t])) [m, t]
  | name {name text : Text} {ts : List Token} :
    Qualified name ts → Spelled .primary (.reference name [] text) ts
  | application {name text : Text} {ts inner : List Token} {o k : Token}
      (parts : List (TypeExpr × List Token)) :
    Qualified name ts → o.Marks "<" → o.spaceBefore = false → k.Marks ">" →
    (∀ p ∈ parts, Spelled .union p.1 p.2) → Listed (parts.map (·.2)) inner →
    Spelled .primary (.reference name (parts.map (·.1)) text) (ts ++ o :: (inner ++ [k]))
  | tuple {text : Text} {inner : List Token} {o k : Token} (parts : List (TypeExpr × List Token)) :
    o.Marks "[" → k.Marks "]" →
    (∀ p ∈ parts, Spelled .union p.1 p.2) → Listed (parts.map (·.2)) inner →
    Spelled .primary (.tuple (parts.map (·.1)) text false) (o :: (inner ++ [k]))
  | object {text : Text} {o k : Token} (members : List Signature) :
    o.Marks "\x7b" → k.Marks "\x7d" → (∀ g ∈ members, g.Fits) →
    (∀ g ∈ members, Spelled .union g.member.type g.type) →
    Spelled .primary (.object (members.map (·.member)) text)
      (o :: (members.flatMap (·.tokens) ++ [k]))
  | parenthesized {e : TypeExpr} {ts : List Token} {o k : Token} :
    o.Marks "(" → k.Marks ")" → Spelled .union e ts → Spelled .primary e (o :: (ts ++ [k]))
  | operand {e : TypeExpr} {ts : List Token} : Spelled .primary e ts → Spelled .operand e ts
  | array {e : TypeExpr} {text : Text} {ts : List Token} {o k : Token} :
    Spelled .operand e ts → o.Marks "[" → o.lineBreak = false → k.Marks "]" →
    Spelled .operand (.array e text) (ts ++ [o, k])
  | single {e : TypeExpr} {ts : List Token} : Spelled .operand e ts → Spelled .intersection e ts
  | intersection {text : Text} {out : List Token} (parts : List (TypeExpr × List Token)) :
    2 ≤ parts.length → (∀ p ∈ parts, Spelled .operand p.1 p.2) →
    Separated "&" (parts.map (·.2)) out →
    Spelled .intersection (.intersection (parts.map (·.1)) text) out
  | alternative {e : TypeExpr} {ts : List Token} : Spelled .intersection e ts → Spelled .union e ts
  | union {text : Text} {out : List Token} (parts : List (TypeExpr × List Token)) :
    2 ≤ parts.length → (∀ p ∈ parts, Spelled .intersection p.1 p.2) →
    Separated "|" (parts.map (·.2)) out →
    Spelled .union (.union (parts.map (·.1)) text) out

end TypeGrammar

end WireSchema
