import Mathlib.Data.List.Chain
import WireSchema.Proofs.Grammar.Forth
import WireSchema.Proofs.Lexing.Respelled
/-!
# A run of tokens read again

A run of tokens is cut out of a source and read again from its text. In the text
the end of the input stands behind the run; the comments in it are gone, and so
are the line breaks. `Recalls o near F p q c c'` says that `q` does at the
copies what `p` does at the tokens, with `F` applied to the answer, as long as
`p` does not go beyond the run.
-/

namespace WireSchema

open Source Source.Cursor Source.Parser

/-! ## Types with other documentation -/

mutual

/-- The type with its members documented otherwise. What stands in the holes of
templates is left as it is. -/
@[simp]
def TypeExpr.redocument (docs : DocComment → DocComment) : TypeExpr → TypeExpr
  | .array element text => .array (redocument docs element) text
  | .tuple elements text variadic => .tuple (redocumentAll docs elements) text variadic
  | .object members text => .object (redocumentMembers docs members) text
  | .union members text => .union (redocumentAll docs members) text
  | .intersection members text => .intersection (redocumentAll docs members) text
  | .reference name arguments text => .reference name (redocumentAll docs arguments) text
  | other => other

def TypeExpr.redocumentAll (docs : DocComment → DocComment) : List TypeExpr → List TypeExpr
  | [] => []
  | e :: rest => redocument docs e :: redocumentAll docs rest

def TypeExpr.redocumentMembers (docs : DocComment → DocComment) : List (Property TypeExpr) → List (Property TypeExpr)
  | [] => []
  | ⟨name, isOptional, type, doc⟩ :: rest =>
    ⟨name, isOptional, redocument docs type, docs doc⟩ :: redocumentMembers docs rest

end

/-- The member documented otherwise, and so are the members in its type. -/
def Property.redocument (docs : DocComment → DocComment) (m : Property TypeExpr) : Property TypeExpr :=
  { m with type := m.type.redocument docs, docs := docs m.docs }

/-- The type without the documentation of its members. -/
def TypeExpr.undocumented (e : TypeExpr) : TypeExpr := e.redocument fun _ => {}

namespace TypeExpr

variable (docs : DocComment → DocComment)

@[simp] theorem redocumentAll_eq (es : List TypeExpr) : redocumentAll docs es = es.map (redocument docs) := by
  induction es with
  | nil => rfl
  | cons e es ih => rw [redocumentAll, ih, List.map_cons]

@[simp] theorem redocumentMembers_eq (ms : List (Property TypeExpr)) : redocumentMembers docs ms = ms.map (·.redocument docs) := by
  induction ms with
  | nil => rfl
  | cons m ms ih =>
    obtain ⟨name, isOptional, type, doc⟩ := m
    rw [redocumentMembers, ih, List.map_cons]
    rfl

@[simp] theorem text_redocument (e : TypeExpr) : (e.redocument docs).text = e.text := by
  cases e <;> simp [text]

@[simp] theorem isSequence_redocument (e : TypeExpr) :
    TypeGrammar.isSequence (e.redocument docs) = TypeGrammar.isSequence e := by
  cases e <;> simp [TypeGrammar.isSequence]

mutual

theorem redocument_id : (e : TypeExpr) → e.redocument id = e
  | keyword _ | literal _ | template .. | verbatim .. => by simp [redocument]
  | array e _ => by rw [redocument, redocument_id e]
  | tuple es _ _ | union es _ | intersection es _ | reference _ es _ => by rw [redocument, redocumentAll_id es]
  | object ms _ => by rw [redocument, redocumentMembers_id ms]

theorem redocumentAll_id : (es : List TypeExpr) → redocumentAll id es = es
  | [] => rfl
  | e :: es => by rw [redocumentAll, redocument_id e, redocumentAll_id es]

theorem redocumentMembers_id : (ms : List (Property TypeExpr)) → redocumentMembers id ms = ms
  | [] => rfl
  | ⟨_, _, type, _⟩ :: ms => by rw [redocumentMembers, redocument_id type, redocumentMembers_id ms]; rfl

end

end TypeExpr

namespace Source

/-! ## Copies of tokens -/

/-- What a token is told by: its kind and how it is written. -/
def Token.face (t : Token) : Kind × Text := (t.kind, t.raw)

section
variable {u v : Token}

theorem Token.kind_face (h : v.face = u.face) : v.kind = u.kind := congrArg Prod.fst h

theorem Token.isMark_face (h : v.face = u.face) : v.isMark = u.isMark := by rw [isMark_eq, isMark_eq, kind_face h]

theorem Token.isWord_face (h : v.face = u.face) : v.isWord = u.isWord := by rw [isWord_eq, isWord_eq, kind_face h]

theorem Token.isEnd_face (h : v.face = u.face) : v.isEnd = u.isEnd := by rw [isEnd_eq, isEnd_eq, kind_face h]

theorem Token.raw_face (h : v.face = u.face) : v.raw = u.raw := congrArg Prod.snd h

theorem Token.is_face (h : v.face = u.face) (w : Text) : v.is w = u.is w := by
  rw [Token.is, Token.is, isWord_face h, isMark_face h, raw_face h]

end

/-- A part of a template and its copy: the same text, or a hole with the same inside. -/
inductive TemplatePart.Copied (source text : Text) : TemplatePart → TemplatePart → Prop where
  | chunk (chunk : Text) : Copied source text (.chunk chunk) (.chunk chunk)
  | hole {a b a' b' : Nat} : EndsWindow source b → a ≤ b → EndsWindow text b' → a' ≤ b' →
    slice text a' b' = slice source a b → Copied source text (.hole a b) (.hole a' b')

/-- A lexeme and its copy. -/
inductive Lexeme.Copied (source text : Text) : Lexeme → Lexeme → Prop where
  | same {lexeme : Lexeme} : (∀ parts, lexeme ≠ .template parts) → Copied source text lexeme lexeme
  | template {parts parts' : List TemplatePart} : List.Forall₂ (TemplatePart.Copied source text) parts parts' →
    Copied source text (.template parts) (.template parts')

/-- A token and its copy: the same but for where they stand, for the documentation
and for the line break before them. -/
structure Token.Copied (source text : Text) (docs : DocComment → DocComment) (u v : Token) : Prop where
  lexeme : u.lexeme.Copied source text v.lexeme
  raw : v.raw = u.raw
  spaceBefore : v.spaceBefore = u.spaceBefore
  docs : DocComment.ofBlocks v.docs = docs (DocComment.ofBlocks u.docs)
  not_isEnd : u.isEnd = false

/-- A run of tokens of a source with their copies in a text, and what stands
behind both. The line break before a bracket is kept where a type may end, and no
dot stands behind a keyword at the end. -/
structure Excerpt where
  source : Text
  text : Text
  docs : DocComment → DocComment
  pairs : List (Token × Token)
  behind : Cursor
  final : Token
  copied : ∀ p ∈ pairs, p.1.Copied source text docs p.2
  level : pairs.IsChain fun p q => p.1.endsType = true → q.1.is "[" = true → q.2.lineBreak = q.1.lineBreak
  last_isEnd : behind.last.isEnd = true
  dotless : behind.sees "." = true → ∀ p ∈ pairs.getLast?, TypeGrammar.keywords.contains p.1.raw = false
  final_isEnd : final.isEnd = true

/-- A lexeme and its copy are of one kind. -/
theorem Lexeme.Copied.kind {source text : Text} {l l' : Lexeme} (h : l.Copied source text l') : l'.kind = l.kind := by
  cases h <;> rfl

theorem Lexeme.Copied.eq {source text : Text} {l l' : Lexeme} (h : l.Copied source text l') (hne : ∀ parts, l ≠ .template parts) :
    l' = l := by
  cases h with
  | same => rfl
  | template _ => exact absurd rfl (hne _)

theorem Lexeme.Copied.parts {source text : Text} {l l' : Lexeme} {parts : List TemplatePart} (h : l.Copied source text l')
    (hl : l = .template parts) : ∃ parts', l' = .template parts' ∧ List.Forall₂ (TemplatePart.Copied source text) parts parts' := by
  cases h with
  | same hne => exact absurd hl (hne parts)
  | template hparts =>
    cases hl
    exact ⟨_, rfl, hparts⟩

theorem Token.Copied.face {source text : Text} {docs : DocComment → DocComment} {u v : Token} (h : u.Copied source text docs v) :
    v.face = u.face := by
  rw [Token.face, Token.face, Token.kind, h.lexeme.kind, h.raw, Token.kind]

/-- A copy is not the end of the input either. -/
theorem Token.Copied.isEnd {source text : Text} {docs : DocComment → DocComment} {u v : Token} (h : u.Copied source text docs v) :
    v.isEnd = u.isEnd := Token.isEnd_face h.face

theorem Token.Copied.value {source text : Text} {docs : DocComment → DocComment} {u v : Token} (h : u.Copied source text docs v) :
    v.value = u.value := by
  have hlexeme := h.lexeme
  rw [Token.value, Token.value, h.raw]
  generalize u.lexeme = l at hlexeme ⊢
  generalize v.lexeme = l' at hlexeme ⊢
  cases hlexeme <;> rfl

/-- Whether a token says so is the same for its copies, and the end of the input does not. -/
structure Excerpt.Told (o : Excerpt) (P : Token → Bool) : Prop where
  same : ∀ {u v : Token}, u.Copied o.source o.text o.docs v → P v = P u
  ends : ∀ {t : Token}, t.isEnd = true → P t = false

namespace Excerpt

variable {o : Excerpt} {P Q : Token → Bool} {u v t : Token}

theorem told_of_kind (K : Kind → Bool) (hP : ∀ t, P t = K t.kind) (hend : K .endOfInput = false) : o.Told P where
  same h := by rw [hP, hP, Token.kind, h.lexeme.kind, Token.kind]
  ends {t} h := by rw [hP, Token.kind, show t.lexeme = .endOfInput from beq_iff_eq.1 h]; exact hend

theorem told_isWord : o.Told Token.isWord := told_of_kind (· == .word) Token.isWord_eq rfl

theorem told_isMark : o.Told Token.isMark := told_of_kind (· == .mark) Token.isMark_eq rfl

theorem told_isNumber : o.Told Token.isNumber := told_of_kind (· == .number) Token.isNumber_eq rfl

theorem told_isString : o.Told Token.isString := told_of_kind (· == .string) Token.isString_eq rfl

theorem told_isTemplate : o.Told Token.isTemplate := told_of_kind (· == .template) Token.isTemplate_eq rfl

theorem Told.or (h : o.Told P) (h' : o.Told Q) : o.Told fun t => P t || Q t :=
  ⟨fun hc => by rw [h.same hc, h'.same hc], fun ht => by rw [h.ends ht, h'.ends ht]; rfl⟩

theorem Told.raw (h : o.Told P) (Q : Text → Bool) : o.Told fun t => P t && Q t.raw :=
  ⟨fun hc => by rw [h.same hc, hc.raw], fun ht => by rw [h.ends ht]; rfl⟩

theorem told_is (w : Text) : o.Told (Token.is · w) := (told_isWord.or told_isMark).raw (· == w)

theorem told_isOneOf (ws : List Text) : o.Told (Token.isOneOf · ws) := told_isMark.raw ws.contains

theorem told_beginsOperand : o.Told TypeGrammar.beginsOperand :=
  (((told_isWord.or told_isString).or told_isNumber).or told_isTemplate).or (told_isOneOf _)

/-! ## Cursors -/

variable (o) in
/-- The cursor before tokens of the run. -/
def before (ps : List (Token × Token)) : Cursor := o.behind.before (ps.map Prod.fst)

variable (o) in
/-- The cursor before copies of tokens. -/
def again (ps : List (Token × Token)) : Cursor := Cursor.before ⟨[], o.final⟩ (ps.map Prod.snd)

variable (o) in
/-- One cursor is before the last tokens of the run, the other before their copies;
if `near` is set, there is one at least. -/
def Cut (near : Bool) (c c' : Cursor) : Prop :=
  ∃ ps, ps <:+ o.pairs ∧ c = o.before ps ∧ c' = o.again ps ∧ (near = true → ps ≠ [])

variable (o) in
/-- The cursor is behind the run or, if `near` is set, at its end. -/
def Beyond (near : Bool) (c : Cursor) : Prop := c.rest.length < o.behind.rest.length + near.toNat

variable (o) in
/-- The cursors are at a token and its copy, or the first is beyond the run. -/
structure At (near : Bool) (c c' : Cursor) : Prop where
  last : c.last.isEnd = true
  place : o.Cut near c c' ∨ o.Beyond near c

variable (o) in
/-- A word `extends` is the last but one of the run, or the last, and a question
mark may stand behind the run. -/
def Stuck (d : Cursor) : Prop :=
  d.sees "extends" = true ∧ o.behind.rest.length < d.rest.length ∧ d.rest.length ≤ o.behind.rest.length + 2

section
variable {near : Bool} {c c' d d' : Cursor} {n : Nat} {ps : List (Token × Token)} {w : Text}

theorem length_before (ps : List (Token × Token)) : (o.before ps).rest.length = o.behind.rest.length + ps.length := by
  simp [before, Nat.add_comm]

theorem Beyond.reaches (h : o.Beyond near c) (hd : c.Reaches d) : o.Beyond near d :=
  Nat.lt_of_le_of_lt hd.length_le h

theorem Beyond.nearer (h : o.Beyond false c) : o.Beyond near c := Nat.lt_of_lt_of_le h (Nat.le_add_right _ _)

theorem Cut.of_suffix (h : ps <:+ o.pairs) : o.Cut false (o.before ps) (o.again ps) := ⟨ps, h, rfl, rfl, nofun⟩

theorem Cut.farther (h : o.Cut near c c') : o.Cut false c c' := by
  obtain ⟨ps, hps, hc, hc', _⟩ := h
  exact ⟨ps, hps, hc, hc', nofun⟩

theorem Cut.length_le (h : o.Cut near c c') : o.behind.rest.length + near.toNat ≤ c.rest.length := by
  obtain ⟨ps, _, rfl, rfl, hne⟩ := h
  rw [length_before]
  cases near with
  | false => exact Nat.le_add_right _ _
  | true => exact Nat.add_le_add_left (List.length_pos_iff.2 (hne rfl)) _

theorem Cut.lengths (h : o.Cut near c c') : c.rest.length = o.behind.rest.length + c'.rest.length := by
  obtain ⟨ps, _, rfl, rfl, _⟩ := h
  simp [length_before, again]

theorem Cut.lt (h : o.Cut true c c') : o.behind.rest.length < c.rest.length := h.length_le

theorem Cut.not_beyond (h : o.Cut near c c') : ¬ o.Beyond near c := Nat.not_lt.2 h.length_le

theorem Cut.last (h : o.Cut near c c') : c.last.isEnd = true := by
  obtain ⟨ps, _, rfl, _, _⟩ := h
  exact o.last_isEnd

theorem Cut.last_copy (h : o.Cut near c c') : c'.last.isEnd = true := by
  obtain ⟨ps, _, _, rfl, _⟩ := h
  exact o.final_isEnd

/-- The end of the run is the end of the copies. -/
theorem Cut.eq_again (h : o.Cut near o.behind c') : c' = o.again [] := by
  obtain ⟨ps, _, hbefore, rfl, _⟩ := h
  have hlength := congrArg (·.rest.length) hbefore
  simp only [length_before] at hlength
  rw [List.eq_nil_of_length_eq_zero (by omega : ps.length = 0)]

theorem Cut.at_ (h : o.Cut near c c') : o.At near c c' := ⟨h.last, .inl h⟩

theorem At.forth (h : o.At near c c') : c.Forth c := .refl h.last

/-- Where the parser has to stop before the end of the run, it is still in it. -/
theorem At.nearer (h : o.At false c c') : o.At near c c' := by
  refine ⟨h.last, h.place.elim (fun hcut => ?_) fun hbeyond => .inr hbeyond.nearer⟩
  obtain ⟨ps, hps, hc, hc', _⟩ := hcut
  by_cases hne : near = true → ps ≠ []
  · exact .inl ⟨ps, hps, hc, hc', hne⟩
  · refine .inr ?_
    obtain ⟨rfl, hnil⟩ := Classical.not_imp.1 hne
    rw [Beyond, hc, length_before, Classical.not_not.1 hnil]
    exact Nat.lt_succ_self _

/-- A token of the run is told by its copy; behind the run there is the end of the input. -/
theorem Cut.told (h : o.Cut near c c') (hP : o.Told P) (n : Nat) :
    P (c'.peek n) = P (c.peek n) ∧ o.behind.rest.length + n < c.rest.length ∨
      P (c'.peek n) = false ∧ c.rest.length ≤ o.behind.rest.length + n := by
  obtain ⟨ps, hps, rfl, rfl, _⟩ := h
  rw [length_before]
  by_cases hn : n < ps.length
  · refine .inl ⟨?_, by omega⟩
    have hcopy := o.copied _ (hps.subset (List.getElem_mem hn))
    have hold : (o.before ps).peek n = ps[n].1 := by
      simp [before, Cursor.peek, List.getElem?_append_left (show n < (ps.map Prod.fst).length by simpa using hn), hn]
    have hnew : (o.again ps).peek n = ps[n].2 := by simp [again, Cursor.peek, hn]
    rw [hold, hnew, hP.same hcopy]
  · have hnew : (o.again ps).peek n = o.final := by
      simp [again, Cursor.peek, List.getElem?_eq_none (Nat.le_of_not_lt hn)]
    exact .inr ⟨by rw [hnew, hP.ends o.final_isEnd], by omega⟩

/-- What a copy says a token says. -/
theorem Cut.of_copy (h : o.Cut near c c') (hP : o.Told P) (hn : P (c'.peek n) = true) : P (c.peek n) = true := by
  rcases h.told hP n with ⟨heq, _⟩ | ⟨hfalse, _⟩
  · rw [← heq, hn]
  · rw [hfalse] at hn
    cases hn

theorem Cut.sees_of_copy (h : o.Cut near c c') (hn : c'.sees w n = true) : c.sees w n = true := h.of_copy (told_is w) hn

/-- What a copy says is said in the run. -/
theorem Cut.lt_of_copy (h : o.Cut near c c') (hP : o.Told P) (hn : P (c'.peek n) = true) :
    o.behind.rest.length + n < c.rest.length := by
  rcases h.told hP n with ⟨_, hlt⟩ | ⟨hfalse, _⟩
  · exact hlt
  · rw [hfalse] at hn
    cases hn

/-- What a token says and no copy does is said behind the run. -/
theorem Cut.outside (h : o.Cut near c c') (hP : o.Told P) (hn : P (c.peek n) = true) (hn' : P (c'.peek n) = false) :
    c.rest.length ≤ o.behind.rest.length + n := by
  rcases h.told hP n with ⟨heq, _⟩ | ⟨_, hle⟩
  · rw [← heq, hn'] at hn
    cases hn
  · exact hle

/-- What is in the run is told by its copy. -/
theorem Cut.inside (h : o.Cut near c c') (hP : o.Told P) (hn : o.behind.rest.length + n < c.rest.length) :
    P (c'.peek n) = P (c.peek n) := by
  rcases h.told hP n with ⟨heq, _⟩ | ⟨_, hle⟩
  · exact heq
  · omega

theorem Cut.sees (h : o.Cut near c c') (w : Text) (hn : o.behind.rest.length + n < c.rest.length) : c'.sees w n = c.sees w n :=
  h.inside (told_is w) hn

theorem Cut.present (h : o.Cut true c c') (hP : o.Told P) : P c'.peek = P c.peek := h.inside (n := 0) hP h.length_le

/-- What is in the run is not the end of the input. -/
theorem Cut.not_end (h : o.Cut true c c') : c.peek.isEnd = false ∧ c'.peek.isEnd = false := by
  obtain ⟨ps, hps, rfl, rfl, hne⟩ := h
  cases ps with
  | nil => exact absurd rfl (hne rfl)
  | cons p ps =>
    have hcopy := o.copied p (hps.subset List.mem_cons_self)
    exact ⟨hcopy.not_isEnd, hcopy.isEnd.trans hcopy.not_isEnd⟩

/-- A copy is documented as the rules are told. -/
theorem Cut.docs (h : o.Cut true c c') : DocComment.ofBlocks c'.peek.docs = o.docs (DocComment.ofBlocks c.peek.docs) := by
  obtain ⟨ps, hps, rfl, rfl, hne⟩ := h
  cases ps with
  | nil => exact absurd rfl (hne rfl)
  | cons p ps => exact (o.copied p (hps.subset List.mem_cons_self)).docs

theorem Cut.sees_now (h : o.Cut true c c') (w : Text) : c'.sees w = c.sees w := h.sees w h.lt

/-- A token of the run, with its copy. -/
theorem Cut.first (h : o.Cut near c c') (hlt : o.behind.rest.length < c.rest.length) : ∃ u v d d',
    c = d.before [u] ∧ c' = d'.before [v] ∧ u.Copied o.source o.text o.docs v ∧ o.Cut false d d' := by
  obtain ⟨ps, hps, rfl, rfl, _⟩ := h
  rw [length_before] at hlt
  cases ps with
  | nil => exact absurd hlt (Nat.lt_irrefl _)
  | cons p ps =>
    exact ⟨p.1, p.2, o.before ps, o.again ps, rfl, rfl, o.copied p (hps.subset List.mem_cons_self), ps,
      (List.suffix_cons p ps).trans hps, rfl, rfl, nofun⟩

/-- In the run there is the end of the input nowhere. -/
theorem Cut.isEnd (h : o.Cut near c c') (hlt : o.behind.rest.length < c.rest.length) : c'.peek.isEnd = c.peek.isEnd := by
  obtain ⟨u, v, d, d', rfl, rfl, hcopy, _⟩ := h.first hlt
  exact hcopy.isEnd

/-- Behind the copies there is the end of the input. -/
theorem Cut.ends (h : o.Cut near c c') (hle : c.rest.length ≤ o.behind.rest.length) : c'.peek.isEnd = true := by
  have hnil : c'.rest = [] := List.eq_nil_of_length_eq_zero (by have := h.lengths; omega)
  obtain ⟨ps, _, rfl, rfl, _⟩ := h
  rw [peek_length_le (by simp [hnil])]
  exact o.final_isEnd

/-- No dot stands behind the run if it ends with a keyword. -/
theorem Cut.dot (h : o.Cut near c c') (hlt : o.behind.rest.length < c.rest.length)
    (hkeyword : TypeGrammar.keywords.contains c.peek.raw = true) : c'.sees "." 1 = c.sees "." 1 := by
  rcases h.told (told_is ".") 1 with ⟨heq, _⟩ | ⟨hfalse, hle⟩
  · exact heq
  · obtain ⟨ps, ⟨front, hfront⟩, rfl, rfl, _⟩ := h
    rw [length_before] at hlt hle
    obtain ⟨p, rfl⟩ := List.length_eq_one_iff.1 (show ps.length = 1 by omega)
    refine hfalse.trans (Eq.symm (Bool.eq_false_iff.2 fun hdot => ?_))
    have hnone := o.dotless hdot p (by rw [← hfront, List.getLast?_concat]; rfl)
    rw [show TypeGrammar.keywords.contains p.1.raw = true from hkeyword] at hnone
    cases hnone

/-- Between two cursors of the run there is the text that is between the copies. -/
theorem Cut.spell_upTo (h : o.Cut near c c') (hd : o.Cut near d d') : spell (c'.upTo d') = spell (c.upTo d) := by
  obtain ⟨ps, hps, rfl, rfl, _⟩ := h
  obtain ⟨qs, _, rfl, rfl, _⟩ := hd
  have hspell (us : List (Token × Token)) (hus : ∀ p ∈ us, p ∈ o.pairs) :
      spell (us.map Prod.snd) = spell (us.map Prod.fst) := by
    cases us with
    | nil => rfl
    | cons p us =>
      have hcopy (q : Token × Token) (hq : q ∈ p :: us) := o.copied q (hus q hq)
      simp only [List.map_cons, spell, (hcopy p List.mem_cons_self).raw, List.flatMap_map]
      congr 1
      refine List.flatMap_congr fun q hq => ?_
      have := hcopy q (List.mem_cons_of_mem _ hq)
      rw [this.raw, this.spaceBefore]
  have hcut (x : Cursor) (us vs : List Token) : (x.before us).upTo (x.before vs) = us.take (us.length - vs.length) := by
    simp only [Cursor.upTo, rest_before, List.length_append]
    rw [show us.length + x.rest.length - (vs.length + x.rest.length) = us.length - vs.length by omega,
      List.take_append_of_le_length (by omega)]
  rw [before, before, again, again, hcut, hcut, List.length_map, List.length_map, List.length_map, List.length_map,
    ← List.map_take, ← List.map_take]
  exact hspell _ fun p hp => hps.subset (List.mem_of_mem_take hp)

/-- Behind a token with which a type may end, a copy of a bracket keeps its line break. -/
theorem Cut.level (h : o.Cut false c c') (hd : o.Cut near d d') (ht : c.Reaches (d.before [t])) (hends : t.endsType = true)
    (hsees : d.sees "[" = true) (hlt : o.behind.rest.length < d.rest.length) : d'.peek.lineBreak = d.peek.lineBreak := by
  obtain ⟨ps, hps, rfl, rfl, _⟩ := h
  obtain ⟨qs, hqs, rfl, rfl, _⟩ := hd
  rw [length_before] at hlt
  obtain ⟨ts, hts⟩ := ht
  have hrest : ps.map Prod.fst = (ts ++ [t]) ++ qs.map Prod.fst := by
    have := congrArg Cursor.rest hts
    simp only [before, rest_before] at this
    exact List.append_cancel_right (by simpa using this)
  have hsuffix : qs <:+ ps := by
    refine List.suffix_of_suffix_length_le hqs hps ?_
    have := congrArg List.length hrest
    simp only [List.length_append, List.length_map] at this
    omega
  obtain ⟨xs, rfl⟩ := hsuffix
  rw [List.map_append] at hrest
  have hxs := List.append_cancel_right hrest
  obtain ⟨ys, y, rfl⟩ : ∃ ys y, xs = ys ++ [y] := by
    refine (List.eq_nil_or_concat xs).elim (fun hnil => ?_) fun ⟨ys, y, h⟩ => ⟨ys, y, by rw [h, List.concat_eq_append]⟩
    rw [hnil] at hxs
    simp at hxs
  have hy : y.1 = t := by simpa using (List.append_inj' (by simpa using hxs : ys.map Prod.fst ++ [y.1] = ts ++ [t]) rfl).2
  cases qs with
  | nil => exact absurd hlt (Nat.lt_irrefl _)
  | cons q qs =>
    have hchain := o.level.suffix hps
    rw [List.append_assoc, List.singleton_append] at hchain
    have hpair := (hchain.suffix (List.suffix_append ys _)).rel
    exact hpair (by simpa using hy ▸ hends) hsees

end

end Excerpt

end Source

end WireSchema
