import WireSchema.Text.Basic
/-!
# Tokens

A token keeps its text, the offsets it stands at and what stands before it:
whether there is a gap, whether the gap holds a line feed, and the
documentation comments of the gap.
-/

namespace WireSchema.Source

/-- A part of a template literal. -/
inductive TemplatePart where
  /-- Text between holes, escapes read. -/
  | chunk (text : Text)
  /-- The offsets of a hole's inside. -/
  | hole (start stop : Nat)
deriving DecidableEq

/-- What kind of token it is. -/
inductive Lexeme where
  | word
  /-- A string literal and the text it stands for. -/
  | string (value : Text)
  | number
  | template (parts : List TemplatePart)
  | mark
  | endOfInput
deriving DecidableEq

/-- A token of a source. -/
structure Token where
  lexeme : Lexeme
  raw : Text
  start : Nat
  stop : Nat
  spaceBefore : Bool
  lineBreak : Bool
  docs : List Text
deriving DecidableEq

namespace Token

/-- What the token stands for. -/
def value (t : Token) : Text :=
  match t.lexeme with
  | .string value => value
  | _ => t.raw

def isWord (t : Token) : Bool := t.lexeme == .word

def isMark (t : Token) : Bool := t.lexeme == .mark

def isNumber (t : Token) : Bool := t.lexeme == .number

def isEnd (t : Token) : Bool := t.lexeme == .endOfInput

def isString (t : Token) : Bool :=
  match t.lexeme with
  | .string _ => true
  | _ => false

def isTemplate (t : Token) : Bool :=
  match t.lexeme with
  | .template _ => true
  | _ => false

/-- The token is the word or the punctuation mark `text`. -/
def is (t : Token) (text : Text) : Bool := (t.isWord || t.isMark) && t.raw == text

/-- The token is one of the punctuation marks. -/
def isOneOf (t : Token) (marks : List Text) : Bool := t.isMark && marks.contains t.raw

end Token

/-- The text of a run of tokens, where one space stands for each gap. -/
def spell : List Token → Text
  | [] => []
  | first :: others =>
    first.raw ++ others.flatMap fun t =>
      if t.spaceBefore then CodePoint.ofChar ' ' :: t.raw else t.raw

end WireSchema.Source
