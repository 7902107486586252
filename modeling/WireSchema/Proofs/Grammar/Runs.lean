import WireSchema.Proofs.Grammar.Opening
/-!
# Names and items in a row

The loops of the type parser: names behind dots, items with a mark between them,
and lists with commas. `found` is what the parser answers with; it may keep
other texts than the types that are spelled.
-/

namespace WireSchema.TypeGrammar

open Source Source.Token Source.Parser

/-! ## Where a type stops -/

/-- The marks that go on with a type of the tier. -/
def Tier.marks : Tier → List Text
  | .primary => []
  | .operand => ["["]
  | .intersection => ["&", "["]
  | .union => ["|", "&", "["]

/-- Nothing at the cursor goes on with a type of the tier. -/
structure Stops (tier : Tier) (c : Cursor) : Prop where
  closes : c.peek.Closes
  marks : ∀ m ∈ tier.marks, c.sees m = false

section
variable {tier : Tier} {c : Cursor} {m : Text}

theorem Stops.sees (h : Stops tier c) (hm : m ∉ closers ∨ m ∈ tier.marks) : c.sees m = false :=
  hm.elim h.closes.is_eq_false (h.marks m)

theorem Stops.ofMark {t : Token} (h : t.Marks m) (hm : m ∈ closers) (ht : m ∉ tier.marks)
    (ts : List Token) : Stops tier (c.before (t :: ts)) where
  closes := h.closes hm
  marks k hk := by
    rw [Cursor.sees_before, h.is_eq]
    exact beq_eq_false_iff_ne.2 fun e => ht (e ▸ hk)

theorem Stops.tighter {looser : Tier} (h : Stops looser c) (ht : tier.marks ⊆ looser.marks) :
    Stops tier c where
  closes := h.closes
  marks m hm := h.marks m (ht hm)

end

/-! ## Names -/

theorem Dotted.length_le {names : List Text} {ts : List Token} (h : Dotted names ts) :
    names.length ≤ ts.length := by
  induction h with
  | nil => exact Nat.le_refl 0
  | cons _ _ _ ih => simp only [List.length_cons]; omega

theorem Dotted.rounds_eq {names : List Text} {ts : List Token} (h : Dotted names ts) {c : Cursor}
    (hc : c.sees "." = false) {n : Nat} (hn : names.length < n) (acc : List Text) :
    rounds qualifiedRound n acc (c.before ts) = .ok (acc.reverse ++ names, c) := by
  induction h generalizing n acc with
  | nil =>
    have hround : qualifiedRound acc c = .ok (.done acc.reverse, c) := by
      simp [qualifiedRound, hc]
    simpa using rounds_done hround hn
  | @cons d w names ts hd hw _ ih =>
    obtain ⟨n, rfl⟩ : ∃ k, n = k + 1 := ⟨n - 1, by omega⟩
    have hround : qualifiedRound acc (c.before (d :: w :: ts)) =
        .ok (.again (w.raw :: acc), c.before ts) := by
      simp [qualifiedRound, hd.is_eq, hw.isWord]
    rw [rounds_again hround, ih (by simpa using hn)]
    simp

theorem Qualified.takes {name : Text} {ts : List Token} (h : Qualified name ts) {c : Cursor}
    (hc : c.sees "." = false) : Takes qualifiedName ts c name := by
  cases h with
  | @mk w names ts hw hd _ _ =>
    have hloop : loop qualifiedRound [w.raw] (c.before ts) = .ok (w.raw :: names, c) := by
      rw [loop_apply]
      have := hd.length_le
      exact hd.rounds_eq hc (by simp; omega) _
    simp [Takes, qualifiedName, expectName_before hw.isWord, hloop]

/-! ## Items in a row -/

section Items
variable {σ β : Type} {parts : List (TypeExpr × List Token)} {runs : List (List Token)}
  {out : List Token} {c : Cursor} {m : Text} {item : Parser TypeExpr} {tier : Tier}

theorem Separated.length_le (h : Separated m runs out) : ∀ ts ∈ runs, ts.length ≤ out.length := by
  induction h with
  | one ts => simp
  | more _ _ ih =>
    refine List.forall_mem_cons.2 ⟨by simp, fun ts hts => ?_⟩
    have := ih ts hts
    simp only [List.length_append, List.length_cons]
    omega

theorem Listed.length_le (h : Listed runs out) : ∀ ts ∈ runs, ts.length ≤ out.length := by
  cases h with
  | nil => simp
  | some hs => exact hs.length_le

theorem Listed.part_length_le {n : Nat} (h : Listed (parts.map (·.2)) out) (hn : out.length ≤ n) :
    ∀ p ∈ parts, p.2.length ≤ n :=
  fun _ hp => Nat.le_trans (h.length_le _ (List.mem_map_of_mem hp)) hn

/-- The item parser reads each of the parts. -/
def ReadsEach (item : Parser TypeExpr) (tier : Tier) (parts : List (TypeExpr × List Token)) :
    Prop :=
  ∀ p ∈ parts, ∀ c, Stops tier c → ∃ found, found.bare = p.1.bare ∧ Takes item p.2 c found

theorem Separated.rounds_eq (h : Separated m runs out) (hparts : parts.map (·.2) = runs)
    (hitem : ReadsEach item tier parts) (hm : m ∈ closers) (htier : m ∉ tier.marks)
    (hc : Stops tier c) (hend : c.sees m = false) :
    ∃ found : List TypeExpr, found.map TypeExpr.bare = parts.map (·.1.bare) ∧
      ∀ (n : Nat) (acc : List TypeExpr) (t : Token), t.Marks m → out.length + 1 < n →
        rounds (separatedRound m item) n acc (c.before (t :: out)) = .ok (acc.reverse ++ found, c) := by
  have again {p : TypeExpr × List Token} {found : TypeExpr} {c' : Cursor}
      (hfound : Takes item p.2 c' found) {t : Token} (ht : t.Marks m) (acc : List TypeExpr) :
      separatedRound m item acc (c'.before (t :: p.2)) = .ok (.again (found :: acc), c') := by
    have hread : item (c'.before p.2) = .ok (found, c') := hfound
    simp [separatedRound, accept_before (show t.is m = true by simp [ht.is_eq]), hread]
  induction h generalizing parts with
  | one ts =>
    obtain ⟨p, rfl, rfl⟩ := List.map_eq_singleton_iff.1 hparts
    obtain ⟨found, hbare, hfound⟩ := hitem p (List.mem_singleton.2 rfl) c hc
    refine ⟨[found], by simp [hbare], fun n acc t ht hn => ?_⟩
    obtain ⟨n, rfl⟩ : ∃ k, n = k + 1 := ⟨n - 1, by omega⟩
    have hdone : separatedRound m item (found :: acc) c = .ok (.done (found :: acc).reverse, c) := by
      simp [separatedRound, accept_of_not_sees hend]
    rw [rounds_again (again hfound ht acc), rounds_done hdone (by omega), List.reverse_cons]
  | @more sep ts out rest hsep hs ih =>
    obtain ⟨p, parts, rfl, rfl, rfl⟩ := List.map_eq_cons_iff.1 hparts
    obtain ⟨found, hbare, hfound⟩ :=
      hitem p List.mem_cons_self (c.before (sep :: out)) (.ofMark hsep hm htier out)
    obtain ⟨others, hothers, hrounds⟩ :=
      ih rfl fun q hq => hitem q (List.mem_cons_of_mem _ hq)
    refine ⟨found :: others, by simp [hbare, hothers], fun n acc t ht hn => ?_⟩
    obtain ⟨n, rfl⟩ : ∃ k, n = k + 1 := ⟨n - 1, by omega⟩
    have hcut : c.before (t :: (p.2 ++ sep :: out)) = (c.before (sep :: out)).before (t :: p.2) := by
      rw [← Cursor.before_append]; rfl
    rw [hcut, rounds_again (again hfound ht acc), hrounds n _ sep hsep]
    · simp
    · simp only [List.length_append, List.length_cons] at hn; omega

theorem Separated.takes (h : Separated m (parts.map (·.2)) out) (hitem : ReadsEach item tier parts)
    (hm : m ∈ closers) (htier : m ∉ tier.marks) (hc : Stops tier c) (hend : c.sees m = false) :
    ∃ found : List TypeExpr, found.map TypeExpr.bare = parts.map (·.1.bare) ∧
      Takes (separated m item) out c found := by
  generalize hruns : parts.map (·.2) = runs at h
  cases h with
  | one ts =>
    obtain ⟨p, rfl, rfl⟩ := List.map_eq_singleton_iff.1 hruns
    obtain ⟨found, hbare, hfound⟩ := hitem p (List.mem_singleton.2 rfl) c hc
    have hread : item (c.before p.2) = .ok (found, c) := hfound
    have hloop : loop (separatedRound m item) [found] c = .ok ([found], c) :=
      loop_done (by simp [separatedRound, accept_of_not_sees hend])
    exact ⟨[found], by simp [hbare], by simp [Takes, separated, hread, hloop]⟩
  | @more sep ts out rest hsep hs =>
    obtain ⟨p, parts, rfl, rfl, rfl⟩ := List.map_eq_cons_iff.1 hruns
    obtain ⟨found, hbare, hfound⟩ :=
      hitem p List.mem_cons_self (c.before (sep :: out)) (.ofMark hsep hm htier out)
    obtain ⟨others, hothers, hrounds⟩ :=
      hs.rounds_eq rfl (fun q hq => hitem q (List.mem_cons_of_mem _ hq)) hm htier hc hend
    refine ⟨found :: others, by simp [hbare, hothers], ?_⟩
    have hread : item ((c.before (sep :: out)).before p.2) = .ok (found, c.before (sep :: out)) :=
      hfound
    have hloop : loop (separatedRound m item) [found] (c.before (sep :: out)) =
        .ok (found :: others, c) := by
      rw [loop_apply, hrounds _ _ _ hsep (by rw [Cursor.rest_before, List.length_append, List.length_cons]; omega)]
      rfl
    simp [Takes, separated, Cursor.before_append, hread, hloop]

/-- A round of a list with commas takes one part, and the comma behind it if one comes. -/
def TakesEach (round : σ → Parser (Turn σ β)) (push : σ → TypeExpr → σ) (finish : σ → β)
    (parts : List (TypeExpr × List Token)) : Prop :=
  ∀ p ∈ parts, ∀ c, Stops .union c → ∃ found, found.bare = p.1.bare ∧ ∀ s,
    round s (c.before p.2) = (accept "," c).bind fun x =>
      .ok (if x.1 then .again (push s found) else .done (finish (push s found)), x.2)

theorem Separated.rounds_eq_of_commas {round : σ → Parser (Turn σ β)} {push : σ → TypeExpr → σ}
    {finish : σ → β} (h : Separated "," runs out) (hparts : parts.map (·.2) = runs)
    (hround : TakesEach round push finish parts) (hc : Stops .union c) (hend : c.sees "," = false) :
    ∃ found : List TypeExpr, found.map TypeExpr.bare = parts.map (·.1.bare) ∧ ∀ (n : Nat) (s : σ), out.length < n →
      rounds round n s (c.before out) = .ok (finish (found.foldl push s), c) := by
  induction h generalizing parts with
  | one ts =>
    obtain ⟨p, rfl, rfl⟩ := List.map_eq_singleton_iff.1 hparts
    obtain ⟨found, hbare, hfound⟩ := hround p (List.mem_singleton.2 rfl) c hc
    refine ⟨[found], by simp [hbare], fun n s hn => ?_⟩
    exact rounds_done (by simp [hfound s, accept_of_not_sees hend]) (by omega)
  | @more sep ts out rest hsep hs ih =>
    obtain ⟨p, parts, rfl, rfl, rfl⟩ := List.map_eq_cons_iff.1 hparts
    obtain ⟨found, hbare, hfound⟩ :=
      hround p List.mem_cons_self (c.before (sep :: out)) (.ofMark hsep (by decide) (by decide) out)
    obtain ⟨others, hothers, hrounds⟩ :=
      ih rfl fun q hq => hround q (List.mem_cons_of_mem _ hq)
    refine ⟨found :: others, by simp [hbare, hothers], fun n s hn => ?_⟩
    obtain ⟨n, rfl⟩ : ∃ k, n = k + 1 := ⟨n - 1, by omega⟩
    have hagain : round s ((c.before (sep :: out)).before p.2) =
        .ok (.again (push s found), c.before out) := by
      simp [hfound s, accept_before (show sep.is "," = true by simp [hsep.is_eq])]
    rw [Cursor.before_append, rounds_again hagain, hrounds n]
    · rfl
    · simp only [List.length_append, List.length_cons] at hn; omega

theorem Listed.loop_eq {round : σ → Parser (Turn σ β)} {push : σ → TypeExpr → σ} {finish : σ → β}
    (h : Listed (parts.map (·.2)) out) (hround : TakesEach round push finish parts)
    (hc : Stops .union c) (hend : c.sees "," = false)
    (hnone : ∀ s, round s c = .ok (.done (finish s), c)) :
    ∃ found : List TypeExpr, found.map TypeExpr.bare = parts.map (·.1.bare) ∧ ∀ s,
      loop round s (c.before out) = .ok (finish (found.foldl push s), c) := by
  generalize hruns : parts.map (·.2) = runs at h
  cases h with
  | nil =>
    rw [List.map_eq_nil_iff.1 hruns]
    exact ⟨[], rfl, fun s => loop_done (hnone s)⟩
  | some hs =>
    obtain ⟨found, hbare, hrounds⟩ := hs.rounds_eq_of_commas hruns hround hc hend
    refine ⟨found, hbare, fun s => ?_⟩
    rw [loop_apply, hrounds _ _ (by rw [Cursor.rest_before, List.length_append]; omega)]

/-- The tokens of each of the parts begin as a type may. -/
def OpenEach (parts : List (TypeExpr × List Token)) : Prop :=
  ∀ p ∈ parts, ∀ c : Cursor, c.peek.Closes → OpensBefore c p.2

theorem listedRound_takesEach (hitem : ReadsEach item .union parts) (hopen : OpenEach parts)
    {closer : Text} (hname : Text.isName closer = false) (ho : closer ∉ openers) :
    TakesEach (listedRound closer item) (fun items e => e :: items) List.reverse parts := by
  intro p hp c hc
  obtain ⟨found, hbare, hfound⟩ := hitem p hp c hc
  refine ⟨found, hbare, fun items => ?_⟩
  have hread : item (c.before p.2) = .ok (found, c) := hfound
  have hsees := (hopen p hp c hc.closes).sees hname ho
  simp only [listedRound, bind_apply, sees_apply, ok_bind, hsees, hread, Bool.false_eq_true, if_false]
  refine congrArg _ (funext fun x => ?_)
  cases x.1 <;> rfl

/-- A list with commas up to the mark `closer` answers with all its items. -/
theorem Listed.listed_takes (h : Listed (parts.map (·.2)) out) (hitem : ReadsEach item .union parts)
    (hopen : OpenEach parts) {closer : Text} (hc : c.sees closer = true)
    (hname : Text.isName closer = false) (ho : closer ∉ openers) (hstop : Stops .union c)
    (hend : c.sees "," = false) :
    ∃ found : List TypeExpr, found.map TypeExpr.bare = parts.map (·.1.bare) ∧
      Takes (listed closer item) out c found := by
  obtain ⟨found, hbare, hfound⟩ := h.loop_eq (listedRound_takesEach hitem hopen hname ho) hstop hend
    fun items => by simp [listedRound, hc]
  refine ⟨found, hbare, ?_⟩
  rw [Takes, listed, hfound []]
  simp

end Items

end WireSchema.TypeGrammar
