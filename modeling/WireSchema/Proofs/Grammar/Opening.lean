import WireSchema.Proofs.Grammar.Spelling
/-!
# How spellings begin, and their parentheses

The first token of a spelling, with the one behind it, keeps the type parser
away from what is no structural type: operators, predicates and names of tuple
elements. Parentheses are balanced in a spelling, so that the search for the
arrow of a function type looks behind the right one.
-/

namespace WireSchema.TypeGrammar

open Source Source.Token

/-- The marks that a type may begin with. -/
def openers : List Text := ["-", "(", "[", "\x7b"]

/-- A type may begin with the token `t` when `u` comes behind. -/
inductive Opens (t u : Token) : Prop where
  | word : t.Names → u.Closes ∨ u.Marks "." ∨ u.Marks "<" → (t.raw ∈ operatorWords → u.Marks ".") →
    Opens t u
  | literal : t.isWord = false → t.isMark = false → Opens t u
  | mark {m : Text} : m ∈ openers → t.Marks m → Opens t u

namespace Opens

variable {t u : Token} {w : Text}

theorem is_eq_false (h : Opens t u) (hw : Text.isName w = false) (ho : w ∉ openers) :
    t.is w = false := by
  cases h with
  | word ht _ _ => exact ht.is_eq_false hw
  | literal hword hmark => simp [Token.is, hword, hmark]
  | mark hm ht =>
    rw [ht.is_eq]
    exact beq_eq_false_iff_ne.2 fun e => ho (e ▸ hm)

theorem next_isWord (h : Opens t u) (ht : t.isWord = true) : u.isWord = false := by
  cases h with
  | word _ hu _ =>
    rcases hu with hu | hu | hu
    · exact hu.isWord
    · exact hu.isWord
    · exact hu.isWord
  | literal hword _ => rw [hword] at ht; cases ht
  | mark _ hm => rw [hm.isWord] at ht; cases ht

theorem next_is_eq_false (h : Opens t u) (ht : t.isWord = true)
    (hw : w ∉ Text.ofString "." :: Text.ofString "<" :: closers) : u.is w = false := by
  simp only [List.mem_cons, not_or] at hw
  cases h with
  | word _ hu _ =>
    rcases hu with hu | hu | hu
    · exact hu.is_eq_false hw.2.2
    · rw [hu.is_eq]; exact beq_eq_false_iff_ne.2 fun e => hw.1 e.symm
    · rw [hu.is_eq]; exact beq_eq_false_iff_ne.2 fun e => hw.2.1 e.symm
  | literal hword _ => rw [hword] at ht; cases ht
  | mark _ hm => rw [hm.isWord] at ht; cases ht

/-- No operator word stands at the beginning. -/
theorem not_operator (h : Opens t u) :
    (t.isWord && operatorWords.contains t.raw && beginsOperand u) = false := by
  cases h with
  | word ht _ ho =>
    by_cases hm : t.raw ∈ operatorWords
    · have hu := ho hm
      have : beginsOperand u = false := by
        simp only [beginsOperand, hu.isWord, hu.isString, hu.isNumber, hu.isTemplate, hu.isOneOf_eq]
        decide
      simp [this]
    · simp [hm]
  | literal hword _ => simp [hword]
  | mark _ hm => simp [hm.isWord]

end Opens

/-- The tokens begin as a type may when `c` comes behind them. -/
def OpensBefore (c : Cursor) (ts : List Token) : Prop :=
  ∃ t rest, ts = t :: rest ∧ Opens t (c.before rest).peek

section Runs
variable {c : Cursor} {runs : List (List Token)} {out : List Token} {m : Text}

theorem OpensBefore.sees {ts : List Token} (h : OpensBefore c ts) {w : Text}
    (hw : Text.isName w = false) (ho : w ∉ openers) : (c.before ts).sees w = false := by
  obtain ⟨t, rest, rfl, ht⟩ := h
  exact ht.is_eq_false hw ho

/-- What may come behind all of the tokens `us`, or behind a part of them. -/
theorem OpensBefore.append {ts us : List Token}
    (h : OpensBefore (c.before us) ts) : OpensBefore c (ts ++ us) := by
  obtain ⟨t, rest, rfl, ht⟩ := h
  refine ⟨t, rest ++ us, rfl, ?_⟩
  rwa [Cursor.before_append]

theorem Separated.opens (h : Separated m runs out) (hm : m ∈ closers) (hc : c.peek.Closes)
    (hruns : ∀ ts ∈ runs, ∀ c : Cursor, c.peek.Closes → OpensBefore c ts) : OpensBefore c out := by
  cases h with
  | one => exact hruns _ (List.mem_singleton.2 rfl) c hc
  | @more t ts out rest ht _ =>
    exact OpensBefore.append (hruns ts List.mem_cons_self (c.before (t :: out)) (ht.closes hm))

end Runs

theorem Qualified.opens {name : Text} {ts : List Token} (h : Qualified name ts) {c : Cursor}
    (hc : c.peek.Closes ∨ c.peek.Marks "<") : OpensBefore c ts := by
  cases h with
  | mk hw hd hlead hreserved =>
    refine ⟨_, _, rfl, ?_⟩
    cases hd with
    | nil =>
      refine .word hw (hc.imp_right .inr) fun ho => ?_
      exact absurd (List.mem_append_right _ ho) (hreserved rfl)
    | cons hdot _ _ => exact .word hw (.inr (.inl hdot)) fun _ => hdot

/-- A spelling begins as a type may wherever a type may end behind it. -/
theorem Spelled.opens {tier : Tier} {e : TypeExpr} {ts : List Token} (h : Spelled tier e ts) :
    ∀ c : Cursor, c.peek.Closes → OpensBefore c ts := by
  -- by induction on the spelling: the first token is a word, a literal or one of the marks that open a type
  induction h with
  | keyword ht hk =>
    refine fun c hc => ⟨_, [], rfl, .word ht (.inl hc) fun ho => absurd ho ?_⟩
    revert hk
    generalize Token.raw _ = w
    decide +revert
  | boolean ht hb =>
    refine fun c hc => ⟨_, [], rfl, .word ht (.inl hc) fun ho => absurd ho ?_⟩
    rcases hb with hb | hb <;> rw [hb] <;> decide
  | string ht =>
    exact fun c _ => ⟨_, [], rfl, .literal (by simp [Token.isWord, ht]) (by simp [Token.isMark, ht])⟩
  | number ht =>
    exact fun c _ => ⟨_, [], rfl, .literal (by simp [Token.isWord, ht]) (by simp [Token.isMark, ht])⟩
  | negative hm _ => exact fun c _ => ⟨_, _, rfl, .mark (by decide) hm⟩
  | name hq => exact fun c hc => hq.opens (.inl hc)
  | @application _ _ _ inner o k parts hq ho _ _ _ _ _ =>
    exact fun c _ => OpensBefore.append (hq.opens (c := c.before (o :: (inner ++ [k]))) (.inr ho))
  | tuple parts ho _ _ _ _ => exact fun c _ => ⟨_, _, rfl, .mark (by decide) ho⟩
  | object members ho _ _ _ _ => exact fun c _ => ⟨_, _, rfl, .mark (by decide) ho⟩
  | parenthesized ho _ _ _ => exact fun c _ => ⟨_, _, rfl, .mark (by decide) ho⟩
  | operand _ ih => exact ih
  | @array _ _ _ o k _ ho _ _ ih =>
    exact fun c _ => OpensBefore.append (ih (c.before [o, k]) (ho.closes (by decide)))
  | single _ ih => exact ih
  | intersection parts _ _ hs ih =>
    refine fun c hc => hs.opens (by decide) hc fun ts hts => ?_
    obtain ⟨p, hp, rfl⟩ := List.mem_map.1 hts
    exact ih p hp
  | alternative _ ih => exact ih
  | union parts _ _ hs ih =>
    refine fun c hc => hs.opens (by decide) hc fun ts hts => ?_
    obtain ⟨p, hp, rfl⟩ := List.mem_map.1 hts
    exact ih p hp

/-! ## Parentheses -/

/-- The search for a closing parenthesis passes over the tokens. -/
def Balanced (ts : List Token) : Prop :=
  ∀ depth rest, 1 ≤ depth →
    Parser.closerIndex "(" ")" depth (ts ++ rest) =
      ts.length + Parser.closerIndex "(" ")" depth rest

namespace Balanced

variable {ts us : List Token} {t o k : Token}

theorem nil : Balanced [] := fun depth rest _ => by simp

theorem append (h : Balanced ts) (h' : Balanced us) : Balanced (ts ++ us) := by
  intro depth rest hd
  rw [List.append_assoc, h depth _ hd, h' depth _ hd, List.length_append]
  omega

theorem single (ho : (t.isMark && t.raw == "(") = false) (hk : (t.isMark && t.raw == ")") = false) :
    Balanced [t] := by
  intro depth rest _
  rw [List.cons_append, List.nil_append, Parser.closerIndex, ho, hk]
  simp

theorem cons (h : Balanced [t]) (h' : Balanced ts) : Balanced (t :: ts) := append h h'

theorem ofMark {m : Text} (h : t.Marks m) (ho : m ≠ "(") (hk : m ≠ ")") : Balanced [t] := by
  refine single ?_ ?_
  · simp [h.2, ho]
  · simp [h.2, hk]

theorem ofOther (h : t.isMark = false) : Balanced [t] := by
  refine single ?_ ?_ <;> simp [h]

theorem flatMap {α : Type} {l : List α} {f : α → List Token} (h : ∀ a ∈ l, Balanced (f a)) :
    Balanced (l.flatMap f) := by
  induction l with
  | nil => exact .nil
  | cons a rest ih =>
    rw [List.flatMap_cons]
    exact (h a List.mem_cons_self).append (ih fun b hb => h b (List.mem_cons_of_mem _ hb))

/-- From an opening parenthesis the search runs up to the closing one. -/
theorem closerIndex_cons (h : Balanced ts) (ho : o.Marks "(") (hk : k.Marks ")") (depth : Nat)
    (rest : List Token) :
    Parser.closerIndex "(" ")" depth (o :: (ts ++ k :: rest)) =
      1 + ts.length + (if depth = 0 then 0 else 1 + Parser.closerIndex "(" ")" depth rest) := by
  rw [Parser.closerIndex]
  simp only [ho.isMark, ho.2, beq_self_eq_true, Bool.and_self, if_true]
  rw [h (depth + 1) _ (by omega), Parser.closerIndex]
  have hne : (Text.ofString ")" == Text.ofString "(") = false := by decide
  simp only [hk.isMark, hk.2, hne, Bool.and_false, Bool.false_eq_true, if_false, beq_self_eq_true,
    Bool.and_self, if_true]
  by_cases hd : depth = 0
  · simp [hd]
  · simp only [show ¬ depth + 1 ≤ 1 by omega, if_false, hd, Nat.add_sub_cancel]
    omega

theorem parenthesized (h : Balanced ts) (ho : o.Marks "(") (hk : k.Marks ")") :
    Balanced (o :: (ts ++ [k])) := by
  intro depth rest hd
  have := h.closerIndex_cons ho hk depth rest
  simp only [show depth ≠ 0 by omega, if_false] at this
  simp only [List.cons_append, List.append_assoc, List.nil_append, this, List.length_cons,
    List.length_append, List.length_nil]
  omega

end Balanced

theorem Separated.balanced {m : Text} {runs : List (List Token)} {out : List Token}
    (h : Separated m runs out) (ho : m ≠ "(") (hk : m ≠ ")") (hruns : ∀ ts ∈ runs, Balanced ts) :
    Balanced out := by
  induction h with
  | one ts => exact hruns ts (List.mem_singleton.2 rfl)
  | more ht _ ih =>
    refine (hruns _ List.mem_cons_self).append (.cons (.ofMark ht ho hk) ?_)
    exact ih fun ts hts => hruns ts (List.mem_cons_of_mem _ hts)

theorem Listed.balanced {runs : List (List Token)} {out : List Token} (h : Listed runs out)
    (hruns : ∀ ts ∈ runs, Balanced ts) : Balanced out := by
  cases h with
  | nil => exact .nil
  | some hs => exact hs.balanced (by decide) (by decide) hruns

theorem Dotted.balanced {names : List Text} {ts : List Token} (h : Dotted names ts) :
    Balanced ts := by
  induction h with
  | nil => exact .nil
  | cons hd hw _ ih => exact .cons (.ofMark hd (by decide) (by decide)) (.cons (.ofOther hw.isMark) ih)

theorem Qualified.balanced {name : Text} {ts : List Token} (h : Qualified name ts) :
    Balanced ts := by
  cases h with
  | mk hw hd _ _ => exact .cons (.ofOther hw.isMark) hd.balanced

theorem Signature.balanced {g : Signature} (h : g.Fits) (htype : Balanced g.type) :
    Balanced g.tokens := by
  have hname : Balanced [g.name] := by
    rcases h.kind with hn | hs
    · exact .ofOther hn.isMark
    · exact .ofOther (Token.not_isMark_of_isString hs)
  have hmark : Balanced g.mark := by
    rcases h.mark with ⟨hm, _⟩ | ⟨q, hm, hq, _⟩ <;> rw [hm]
    · exact .nil
    · exact .ofMark hq (by decide) (by decide)
  have hstop : Balanced [g.stop] := .ofMark h.stop (by decide) (by decide)
  exact .cons hname (hmark.append (.cons (.ofMark h.colon (by decide) (by decide)) (htype.append hstop)))

theorem Spelled.balanced {tier : Tier} {e : TypeExpr} {ts : List Token} (h : Spelled tier e ts) :
    Balanced ts := by
  induction h with
  | keyword ht _ => exact .ofOther ht.isMark
  | boolean ht _ => exact .ofOther ht.isMark
  | string ht => exact .ofOther (by simp [Token.isMark, ht])
  | number ht => exact .ofOther (by simp [Token.isMark, ht])
  | negative hm ht =>
    exact .cons (.ofMark hm (by decide) (by decide)) (.ofOther (by simp [Token.isMark, ht]))
  | name hq => exact hq.balanced
  | application parts hq ho _ hk _ hs ih =>
    have hinner := hs.balanced (List.forall_mem_map.2 ih)
    exact hq.balanced.append (.cons (.ofMark ho (by decide) (by decide))
      (hinner.append (.ofMark hk (by decide) (by decide))))
  | tuple parts ho hk _ hs ih =>
    have hinner := hs.balanced (List.forall_mem_map.2 ih)
    exact .cons (.ofMark ho (by decide) (by decide))
      (hinner.append (.ofMark hk (by decide) (by decide)))
  | object members ho hk hfits _ ih =>
    have hinner : Balanced (members.flatMap (·.tokens)) :=
      .flatMap fun g hg => Signature.balanced (hfits g hg) (ih g hg)
    exact .cons (.ofMark ho (by decide) (by decide))
      (hinner.append (.ofMark hk (by decide) (by decide)))
  | parenthesized ho hk _ ih => exact ih.parenthesized ho hk
  | operand _ ih => exact ih
  | array _ ho _ hk ih =>
    exact ih.append (.cons (.ofMark ho (by decide) (by decide)) (.ofMark hk (by decide) (by decide)))
  | single _ ih => exact ih
  | intersection parts _ _ hs ih => exact hs.balanced (by decide) (by decide) (List.forall_mem_map.2 ih)
  | alternative _ ih => exact ih
  | union parts _ _ hs ih => exact hs.balanced (by decide) (by decide) (List.forall_mem_map.2 ih)

end WireSchema.TypeGrammar
