import WireSchema.Proofs.Grammar.Reported
/-!
# Rules for deeper nesting

What rules come to, unless types are nested too deep for them, rules for deeper
nesting come to as well. So all rules that reach as deep as a source can nest
types read the same in it.
-/

namespace WireSchema

open Source Source.Cursor Source.Parser

namespace Source.Parser

variable {α β σ : Type} {p q : Parser α} {f g : α → Parser β} {w : Text}

/-- Whatever `p` comes to, `q` comes to as well, unless `p` finds the source too deep. -/
def Deepens (p q : Parser α) : Prop := ∀ c, p c = .error .depth ∨ q c = p c

theorem Deepens.refl (p : Parser α) : Deepens p p := fun _ => .inr rfl

theorem Deepens.bind (h : Deepens p q) (hf : ∀ a, Deepens (f a) (g a)) : Deepens (p >>= f) (q >>= g) := by
  intro c
  rw [bind_apply, bind_apply]
  rcases h c with hdepth | hsame
  · exact .inl (by rw [hdepth]; rfl)
  · rw [hsame]
    cases p c with
    | error fault => exact .inr rfl
    | ok x => exact hf x.1 x.2

/-- What comes first is the same. -/
theorem Deepens.behind (p : Parser α) (hf : ∀ a, Deepens (f a) (g a)) : Deepens (p >>= f) (p >>= g) := (Deepens.refl p).bind hf

theorem Deepens.before (h : Deepens p q) (f : α → Parser β) : Deepens (p >>= f) (q >>= f) := h.bind fun _ => .refl _

theorem Deepens.ite {b : Prop} [Decidable b] {p' q' : Parser α} (h : Deepens p q) (h' : Deepens p' q') :
    Deepens (if b then p else p') (if b then q else q') := by
  split
  · exact h
  · exact h'

theorem deepens_lift {x y : Except Fault α} (h : x = .error .depth ∨ y = x) :
    Deepens (liftM x : Parser α) (liftM y) := by
  intro c
  rcases h with rfl | rfl
  · exact .inl rfl
  · exact .inr rfl

theorem deepens_loop {round round' : σ → Parser (Turn σ β)} (h : ∀ s, Deepens (round s) (round' s)) (s : σ) :
    Deepens (loop round s) (loop round' s) := by
  refine .behind _ fun c => ?_
  generalize c.rest.length + 1 = n
  induction n generalizing s with
  | zero => exact .refl _
  | succ n ih =>
    refine (h s).bind fun turn => ?_
    cases turn with
    | again s => exact ih s
    | done b => exact .refl _

theorem deepens_separated {mark : Text} (h : Deepens p q) : Deepens (separated mark p) (separated mark q) :=
  h.bind fun first => deepens_loop (fun _ => .behind _ fun _ => .ite (h.bind fun _ => .refl _) (.refl _)) [first]

theorem deepens_listed {closer : Text} (h : Deepens p q) : Deepens (listed closer p) (listed closer q) :=
  deepens_loop (fun _ => .behind _ fun _ => .ite (.refl _) (h.bind fun _ => .refl _)) []

end Source.Parser

/-- Whatever the rules come to, the other rules come to as well, unless it is too deep. -/
structure Rules.Deepen (rules rules' : Rules) : Prop where
  type : Deepens rules.type rules'.type
  operand : Deepens rules.operand rules'.operand
  hole : ∀ a b, rules.hole a b = .error .depth ∨ rules'.hole a b = rules.hole a b

namespace TypeGrammar

section
variable {rules rules' : Rules} (h : rules.Deepen rules')
include h

theorem deepens_returnType : Deepens (returnType rules) (returnType rules') :=
  .behind _ fun _ => .behind _ fun _ => .behind _ fun _ => .behind _ fun _ => h.type.bind fun _ => .behind _ fun _ =>
    .ite (h.type.before _) (.refl _)

theorem deepens_functionType : Deepens (functionType rules) (functionType rules') :=
  .behind _ fun _ => .behind _ fun _ => .behind _ fun _ => .behind _ fun _ => .behind _ fun _ => .behind _ fun _ =>
    .behind _ fun _ => (deepens_returnType h).before _

theorem deepens_skipSignature : Deepens (skipSignature rules) (skipSignature rules') := by
  refine deepens_loop (fun _ => .behind _ fun _ => .ite (.refl _) (.before ?_ _)) ()
  exact .behind _ fun _ => .ite (.refl _) (.behind _ fun _ => .ite (h.type.before _) (.refl _))

theorem deepens_memberType : Deepens (memberType rules) (memberType rules') := by
  refine .behind _ fun _ => .ite ?_ (.behind _ fun _ => .ite h.type (.refl _))
  refine .behind _ fun _ => .behind _ fun _ => .behind _ fun _ => .behind _ fun _ => .behind _ fun _ => .before ?_ _
  exact .behind _ fun _ => .ite ((deepens_returnType h).before _) (.refl _)

theorem deepens_member : Deepens (member rules) (member rules') :=
  .behind _ fun _ => .behind _ fun _ => .behind _ fun _ => .ite ((deepens_skipSignature h).before _) (
    .ite (.behind _ fun _ => (deepens_skipSignature h).before _) (.ite ((deepens_skipSignature h).before _) (
      .behind _ fun _ => .behind _ fun _ => .behind _ fun _ => (deepens_memberType h).before _)))

theorem deepens_members : Deepens (members rules) (members rules') := by
  refine .behind _ fun _ => .before (deepens_loop (fun _ => ?_) []) _
  exact .behind _ fun _ => .ite (.refl _) (.behind _ fun _ => (deepens_member h).before _)

theorem deepens_tuple : Deepens (tuple rules) (tuple rules') := by
  refine .behind _ fun _ => .behind _ fun _ => .before (deepens_loop (fun _ => ?_) _) _
  exact .behind _ fun _ => .ite (.refl _) (.behind _ fun _ => .behind _ fun _ => h.type.before _)

theorem deepens_reference : Deepens (reference rules) (reference rules') := by
  refine .behind _ fun _ => .behind _ fun _ => .before ?_ _
  exact .behind _ fun _ => .ite (.behind _ fun _ => (deepens_listed h.type).before _) (.refl _)

theorem deepens_templateSpans (parts : List TemplatePart) :
    templateSpans rules parts = .error .depth ∨ templateSpans rules' parts = templateSpans rules parts := by
  induction parts with
  | nil => exact .inr rfl
  | cons part rest ih =>
    cases part with
    | chunk text =>
      rcases ih with hdepth | hsame
      · exact .inl (by rw [templateSpans, hdepth]; rfl)
      · exact .inr (by rw [templateSpans, templateSpans, hsame])
    | hole a b =>
      rcases h.hole a b with hdepth | hhole
      · exact .inl (by rw [templateSpans, hdepth]; rfl)
      · rcases ih with hdepth | hsame
        · cases hread : rules.hole a b with
          | error fault => exact .inr (by rw [templateSpans, templateSpans, hhole, hread]; rfl)
          | ok type => exact .inl (by rw [templateSpans, hread, hdepth]; rfl)
        · exact .inr (by rw [templateSpans, templateSpans, hhole, hsame])

theorem deepens_wordType (word : Text) : Deepens (wordType rules word) (wordType rules' word) :=
  .behind _ fun _ => .ite (.refl _) (.ite (.behind _ fun _ => (deepens_functionType h).before _) (.ite (.refl _) (.ite (.refl _) (
    .ite (.refl _) (deepens_reference h)))))

theorem deepens_markType (token : Token) : Deepens (markType rules token) (markType rules' token) :=
  .behind _ fun _ => .ite (deepens_functionType h) (.ite (.behind _ fun _ => h.type.before _) (
    .ite (.ite (.refl _) ((deepens_members h).before _)) (.ite (deepens_tuple h) (.refl _))))

theorem deepens_primary : Deepens (primary rules) (primary rules') := by
  refine .behind _ fun token => ?_
  cases token.lexeme with
  | mark => exact deepens_markType h token
  | template parts => exact .behind _ fun _ => (deepens_lift (deepens_templateSpans h parts)).before _
  | word => exact deepens_wordType h token.raw
  | _ => exact .refl _

theorem deepens_bracketRound (start : Cursor) (type : TypeExpr) :
    Deepens (bracketRound rules start type) (bracketRound rules' start type) :=
  .behind _ fun _ => .ite (.behind _ fun _ => .behind _ fun _ => .ite (.refl _) (h.type.before _)) (.refl _)

theorem deepens_postfixed : Deepens (postfixed rules) (postfixed rules') :=
  .behind _ fun start => (deepens_primary h).bind fun first => deepens_loop (deepens_bracketRound h start) first

theorem deepens_inferBound : Deepens (inferBound rules) (inferBound rules') :=
  .behind _ fun _ => .ite (.behind _ fun _ => h.operand.before _) (.refl _)

theorem deepens_operand : Deepens (operand rules) (operand rules') :=
  .behind _ fun _ => .ite (.behind _ fun _ => h.operand.before _) (.ite (.behind _ fun _ => .behind _ fun _ =>
    (deepens_inferBound h).before _) (deepens_postfixed h))

omit h in
theorem deepens_chain {mark : Text} {item item' : Parser TypeExpr} {build : List TypeExpr → Text → TypeExpr}
    (h : Deepens item item') : Deepens (chain mark item build) (chain mark item' build) :=
  .behind _ fun _ => .behind _ fun _ => (deepens_separated h).before _

theorem deepens_type : Deepens (TypeGrammar.type rules) (TypeGrammar.type rules') := by
  have hunion : Deepens (union rules) (union rules') := deepens_chain (deepens_chain (deepens_operand h))
  exact .behind _ fun _ => hunion.bind fun _ => .behind _ fun _ => .ite (hunion.bind fun _ => .behind _ fun _ =>
    h.type.bind fun _ => .behind _ fun _ => h.type.before _) (.refl _)

end

end TypeGrammar

theorem Rules.hole_upTo (source : Text) (n a b : Nat) : (upTo source (n + 1)).hole a b =
    (tokenize source a b).bind fun tokens =>
      (TypeGrammar.only (TypeGrammar.type (upTo source n)) .trailingInHole (ofTokens tokens)).bind fun found => .ok found.1 := rfl

/-- Rules for deeper nesting come to what rules for less of it come to. -/
theorem Rules.deepen_upTo (source : Text) {n m : Nat} (hle : n ≤ m) : (Rules.upTo source n).Deepen (Rules.upTo source m) := by
  induction n generalizing m with
  | zero => exact ⟨fun _ => .inl rfl, fun _ => .inl rfl, fun _ _ => .inl rfl⟩
  | succ n ih =>
    obtain ⟨m, rfl⟩ : ∃ j, m = j + 1 := ⟨m - 1, by omega⟩
    have h := ih (Nat.le_of_succ_le_succ hle)
    refine ⟨TypeGrammar.deepens_type h, TypeGrammar.deepens_operand h, fun a b => ?_⟩
    rw [hole_upTo, hole_upTo]
    cases tokenize source a b with
    | error fault => exact .inr (by rw [Except.bind, Except.bind])
    | ok tokens =>
      have honly : Deepens (TypeGrammar.only (TypeGrammar.type (upTo source n)) .trailingInHole)
          (TypeGrammar.only (TypeGrammar.type (upTo source m)) .trailingInHole) := (TypeGrammar.deepens_type h).before _
      rw [ok_bind, ok_bind]
      rcases honly (ofTokens tokens) with hdepth | hsame
      · exact .inl (by rw [hdepth]; rfl)
      · exact .inr (by rw [hsame])

/-- A type that some rules read from a window is read by those that reach as deep as the window is long. -/
theorem Rules.type_enough {source : Text} {n limit : Nat} {c d : Cursor} {e : TypeExpr} (hfits : c.Fits source limit)
    (h : (Rules.upTo source n).type c = .ok (e, d)) : (Rules.upTo source limit).type c = .ok (e, d) := by
  rcases Nat.le_total n limit with hle | hle
  · rcases (deepen_upTo source hle).type c with hdepth | hsame
    · rw [hdepth] at h
      cases h
    · rw [hsame, h]
  · rcases (deepen_upTo source hle).type c with hdepth | hsame
    · -- types are not nested deeper than the window is long
      have hends : Ends source (upTo source limit).type c fun _ => Past source limit c := (end_upTo source limit).type
        ⟨hfits, .refl c⟩
      rw [Ends, hdepth] at hends
      cases hends
    · rw [← hsame, h]

end WireSchema
