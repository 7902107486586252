import WireSchema.Proofs.Grammar.Deeper
import WireSchema.Proofs.Grammar.Reread
import WireSchema.Proofs.Grammar.Spacing
/-!
# Runs cut out of a source

A run of tokens stands beside the copies of its tokens that its own text is read
as, and the rules of the text read the copies as those of the source read the
run. There must be no line break before a bracket that may open an index or an
array, as the text has none, and no dot behind a keyword at the end.
-/

namespace WireSchema

open Source Source.Cursor Source.Parser

namespace Source

/-- Before the end of the input nothing is left. -/
theorem Cursor.Reaches.at_end {c d : Cursor} (h : c.Reaches d) (hnone : ∀ t ∈ c.rest, t.isEnd = false)
    (hend : d.peek.isEnd = true) : d = ⟨[], c.last⟩ := by
  obtain ⟨ts, rfl⟩ := h
  obtain ⟨rest, last⟩ := d
  cases rest with
  | nil => rfl
  | cons t rest =>
    have hsome : t.isEnd = true := hend
    rw [hnone t (List.mem_append_right ts List.mem_cons_self)] at hsome
    cases hsome

/-! ## Templates -/

section
variable {source text t : Text} {stop stop' k k' a b : Nat} {u v : Token} {own : Lexeme} {parts : List TemplatePart}

theorem slice_slice {first last : Nat} (hfirst : first ≤ a) (hab : a ≤ b) (hlast : b ≤ last) :
    slice (slice source first last) (a - first) (b - first) = slice source a b := by
  rw [slice, slice, slice, List.drop_take, List.take_take, List.drop_drop]
  congr 1
  · omega
  · congr 1
    omega

theorem Token.ReadAt.raw_eq (h : u.ReadAt source stop) : u.raw = slice source u.start u.stop := by
  obtain ⟨_, c, rest, more, hdrop, hraw, hstop, _⟩ := h
  rw [slice, hdrop, hraw, hstop, show u.start + more + 1 - u.start = more + 1 by omega, List.take_succ_cons]

/-- The holes of a template stand in it. -/
theorem Token.ReadAt.hole (h : u.ReadAt source stop) (hparts : u.lexeme = .template parts) (hmem : .hole a b ∈ parts) :
    EndsWindow source b ∧ u.start ≤ a ∧ a ≤ b ∧ b ≤ u.stop := by
  obtain ⟨_, c, rest, more, hdrop, _, hstop, hpiece⟩ := h
  have hbegins := readPiece_begins hpiece
  rw [hparts] at hbegins
  cases hbegins with
  | block _ _ hread => exact absurd hread blockComment_ne_token
  | @template _ last htemplate =>
    obtain ⟨_, hholes⟩ := templateParts_hole (drop_succ_of_drop hdrop.symm) htemplate
    obtain ⟨hends, ha, hab, hb⟩ := hholes a b hmem
    exact ⟨hends, by omega, hab, by omega⟩

/-- What was read at two places from the same text is a copy. -/
theorem Lexeme.copied_of_read (hu : u.ReadAt source stop) (hv : v.ReadAt text stop') (hraw : v.raw = u.raw)
    (hown : u.lexeme = own.later k) (hown' : v.lexeme = own.later k') (hplace : u.start + k' = v.start + k) :
    u.lexeme.Copied source text v.lexeme := by
  cases own with
  | template parts =>
    have hparts : u.lexeme = .template (parts.map (·.later k)) := hown
    have hparts' : v.lexeme = .template (parts.map (·.later k')) := hown'
    rw [hparts, hparts']
    refine .template ?_
    rw [List.forall₂_map_left_iff, List.forall₂_map_right_iff, List.forall₂_same]
    intro part hpart
    cases part with
    | chunk chunk => exact .chunk chunk
    | hole x y =>
      obtain ⟨hends, hstart, hle, hstop⟩ := hu.hole hparts (List.mem_map_of_mem (f := (·.later k)) hpart)
      obtain ⟨hends', hstart', hle', hstop'⟩ := hv.hole hparts' (List.mem_map_of_mem (f := (·.later k')) hpart)
      refine .hole hends hle hends' hle' ?_
      rw [← slice_slice hstart hle hstop, ← slice_slice hstart' hle' hstop', ← hu.raw_eq, ← hv.raw_eq, hraw]
      congr 1 <;> omega
  | _ =>
    rw [hown, hown']
    exact .same nofun

end

/-- The tokens of a window before the end of the input are read at their places. -/
theorem tokenize_read {source : Text} {at_ stop : Nat} {tokens : List Token} (hends : EndsWindow source stop)
    (h : tokenize source at_ stop = .ok tokens) :
    ∃ ts last, tokens = ts ++ [last] ∧ last.isEnd = true ∧ ∀ u ∈ ts, u.isEnd = false ∧ u.ReadAt source stop := by
  obtain ⟨ts, last, rfl, _, hlast⟩ := tokenize_lexed h
  refine ⟨ts, last, rfl, hlast, fun u hu => ?_⟩
  have hend := (tokenize_accounts hends h).not_isEnd hu
  exact ⟨hend, tokensFrom_read rfl h u (List.mem_append_left _ hu) hend⟩

theorem tokenize_moved {source text : Text} {a b a' b' : Nat} {tokens : List Token} (hends : EndsWindow source b) (hab : a ≤ b)
    (hends' : EndsWindow text b') (hab' : a' ≤ b') (hslice : slice text a' b' = slice source a b)
    (h : tokenize source a b = .ok tokens) :
    ∃ own : List Token, tokens = own.map (·.later a) ∧ tokenize text a' b' = .ok (own.map (·.later a')) := by
  obtain ⟨n, rfl⟩ : ∃ n, b = n + a := ⟨b - a, by omega⟩
  obtain ⟨own, rfl, hmoved⟩ := tokensFrom_moved (i := 0) hends (Nat.zero_le n) (Nat.zero_add a).symm rfl h
  refine ⟨own, rfl, ?_⟩
  have hlength := congrArg List.length hslice
  rw [length_slice hends.le, length_slice hends'.le] at hlength
  obtain rfl : b' = n + a' := by omega
  rw [tokenize, drop_eq_slice_append hab', hslice]
  simpa using hmoved (b := a') hends'.parted

namespace Excerpt

section
variable {α β : Type} {o : Excerpt} {near stuck : Bool} {F : α → β} {p : Parser α} {q : Parser β} {c c' : Cursor} {a : α}

/-- What stops at the end of the run stops at the end of the copies. -/
theorem Recalls.stops (h : o.Recalls false stuck F p q c c') (hrun : p c = .ok (a, o.behind)) :
    q c' = .ok (F a, o.again []) := by
  obtain ⟨_, hbeyond | ⟨_, _, hlt, _⟩ | ⟨d', hsame, hcut⟩⟩ := h a o.behind hrun
  · exact absurd hbeyond (Nat.lt_irrefl _)
  · exact absurd hlt (Nat.lt_irrefl _)
  · rw [hsame, hcut.eq_again]

end

/-- The tokens of a window and of another window with the same text. -/
def moved (source text : Text) (ws : List Token) (last : Token) (a a' : Nat)
    (h : ∀ w ∈ ws, (w.later a).Copied source text id (w.later a')) (hlast : last.isEnd = true) : Excerpt where
  source := source
  text := text
  docs := id
  pairs := ws.map fun w => (w.later a, w.later a')
  behind := ⟨[], last.later a⟩
  final := last.later a'
  copied := by simpa using h
  level := by
    rw [List.isChain_map]
    exact List.Pairwise.isChain (List.pairwise_of_forall_mem_list fun _ _ _ _ _ _ => rfl)
  last_isEnd := by rw [Token.isEnd_later, hlast]
  dotless hdot := by
    rw [not_sees_end (by rw [Token.isEnd_later, hlast]) (Nat.le_refl 0) "."] at hdot
    cases hdot
  final_isEnd := by rw [Token.isEnd_later, hlast]

end Excerpt

end Source

namespace TypeGrammar

theorem only_eq_ok {p : Parser TypeExpr} {trailing : Rejection} {c d : Cursor} {t : TypeExpr} :
    only p trailing c = .ok (t, d) ↔ p c = .ok (t, d) ∧ d.peek.isEnd = true := by
  refine ⟨fun h => ⟨only_ok h, ?_⟩, fun ⟨h, hend⟩ => ?_⟩
  · obtain ⟨found, x, hfound, hrest⟩ := bind_ok.1 h
    rw [bind_apply, peek_apply, ok_bind] at hrest
    split at hrest
    next hend =>
      cases hrest
      exact hend
    · cases hrest
  · refine bind_ok.2 ⟨t, d, h, ?_⟩
    rw [bind_apply, peek_apply, ok_bind, if_pos hend]
    rfl

end TypeGrammar

/-- The tokens of a window stand with those of another window of the same text in an excerpt. -/
theorem exists_moved {source text : Text} {a b a' b' : Nat} {tokens : List Token} (hends : EndsWindow source b) (hab : a ≤ b)
    (hends' : EndsWindow text b') (hab' : a' ≤ b') (hslice : slice text a' b' = slice source a b)
    (h : tokenize source a b = .ok tokens) :
    ∃ (o : Excerpt) (tokens' : List Token), o.source = source ∧ o.text = text ∧ o.docs = id ∧ o.behind.rest = [] ∧
      tokenize text a' b' = .ok tokens' ∧ ofTokens tokens = o.before o.pairs ∧ ofTokens tokens' = o.again o.pairs := by
  obtain ⟨own, rfl, hmoved⟩ := tokenize_moved hends hab hends' hab' hslice h
  obtain ⟨ts, final, hsplit, hfinal, hread⟩ := tokenize_read hends h
  obtain ⟨ws, last, rfl, rfl, rfl⟩ : ∃ ws last, own = ws ++ [last] ∧ ts = ws.map (·.later a) ∧ final = last.later a := by
    obtain ⟨ws, ls, rfl, rfl, hls⟩ := List.map_eq_append_iff.1 hsplit
    obtain ⟨last, rfl, rfl⟩ := List.map_eq_singleton_iff.1 hls
    exact ⟨ws, last, rfl, rfl, rfl⟩
  obtain ⟨us, final, hsplit', _, hread'⟩ := tokenize_read hends' hmoved
  rw [List.map_append, List.map_singleton] at hsplit'
  obtain ⟨rfl, hfinal'⟩ := List.append_inj' hsplit' rfl
  have hcopied : ∀ w ∈ ws, (w.later a).Copied source text id (w.later a') := fun w hw => by
    obtain ⟨hnone, hplace⟩ := hread _ (List.mem_map_of_mem hw)
    obtain ⟨_, hplace'⟩ := hread' _ (List.mem_map_of_mem hw)
    refine ⟨?_, rfl, rfl, rfl, hnone⟩
    exact Lexeme.copied_of_read hplace hplace' rfl rfl rfl (by simp only [Token.later]; omega)
  refine ⟨.moved source text ws last a a' hcopied (by rwa [Token.isEnd_later] at hfinal), _, rfl, rfl, rfl, rfl, hmoved, ?_, ?_⟩
  · simp [ofTokens, Excerpt.moved, Excerpt.before, Cursor.before, Function.comp_def]
  · simp [ofTokens, Excerpt.moved, Excerpt.again, Cursor.before, Function.comp_def]

/-- The rules of a text read copies as the rules of the source read the tokens. -/
theorem Rules.reread_upTo (source text : Text) {n m : Nat} (hle : n ≤ m) :
    (Rules.upTo source n).Reread source text (Rules.upTo text m) := by
  induction n generalizing m with
  | zero => exact ⟨Rules.close_upTo source 0, fun _ _ _ => nofun, fun _ _ _ => nofun, fun _ _ _ _ _ => nofun⟩
  | succ n ih =>
    obtain ⟨m, rfl⟩ : ∃ j, m = j + 1 := ⟨m - 1, by omega⟩
    have hr := ih (Nat.le_of_succ_le_succ hle)
    refine ⟨Rules.close_upTo source (n + 1), ?_, ?_, ?_⟩
    · rintro o near c c' rfl rfl h
      exact TypeGrammar.recalls_type hr h
    · rintro o near c c' rfl rfl h
      exact TypeGrammar.recalls_operand hr h
    · intro a b a' b' t hends hab hends' hab' hslice h
      rw [hole_upTo] at h ⊢
      obtain ⟨tokens, htokens, h⟩ := Except.bind_eq_ok.1 h
      obtain ⟨⟨type, d⟩, htype, h⟩ := Except.bind_eq_ok.1 h
      cases h
      obtain ⟨o, tokens', rfl, rfl, hdocs, hrest, hmoved, hcursor, hcursor'⟩ := exists_moved hends hab hends' hab' hslice htokens
      have hat : o.At false (o.before o.pairs) (o.again o.pairs) := (Excerpt.Cut.of_suffix (List.suffix_refl _)).at_
      rw [hcursor] at htype
      rw [hmoved, ok_bind, hcursor']
      obtain ⟨hfound, hend⟩ := TypeGrammar.only_eq_ok.1 htype
      obtain ⟨hreaches, _⟩ := TypeGrammar.recalls_type hr hat type d hfound
      have hstop : d = o.behind := by
        have hbehind : o.behind = ⟨[], o.behind.last⟩ := by rw [← hrest]
        rw [hbehind]
        refine hreaches.at_end (fun u hu => ?_) hend
        obtain ⟨p, hp, rfl⟩ := List.mem_map.1 (show u ∈ o.pairs.map Prod.fst by simpa [Excerpt.before, hrest] using hu)
        exact (o.copied p hp).not_isEnd
      subst hstop
      have hagain := (TypeGrammar.recalls_type hr hat).stops hfound
      rw [TypeGrammar.only_eq_ok.2 ⟨hagain, o.final_isEnd⟩, ok_bind, hdocs]
      exact congrArg Except.ok (TypeExpr.redocument_id type)

namespace Source

/-- A part of the source that is read on its own: the whole of it, or a hole of a template in such a part. -/
inductive Window (source : Text) : Nat → Nat → Prop where
  | whole : Window source 0 source.length
  | hole {at_ stop a b : Nat} {tokens : List Token} {t : Token} {parts : List TemplatePart} : Window source at_ stop →
    tokenize source at_ stop = .ok tokens → t ∈ tokens → t.lexeme = .template parts → .hole a b ∈ parts → Window source a b

theorem Window.ends {source : Text} {at_ stop : Nat} (h : Window source at_ stop) : EndsWindow source stop ∧ at_ ≤ stop := by
  induction h with
  | whole => exact ⟨.inl rfl, Nat.zero_le _⟩
  | @hole _ _ _ _ _ t _ _ htokens ht hparts hmem _ =>
    have hend : t.isEnd = false := beq_eq_false_iff_ne.2 (by simp [hparts])
    obtain ⟨hends, _, hab, _⟩ := (tokensFrom_read rfl htokens _ ht hend).hole hparts hmem
    exact ⟨hends, hab⟩

/-- The tokens before the cursor's end of the input are the last ones of a window of the source. -/
def Cursor.StandsIn (source : Text) (c : Cursor) : Prop :=
  ∃ at_ stop before, Window source at_ stop ∧ tokenize source at_ stop = .ok (before ++ (c.rest ++ [c.last]))

/-- No bracket that may open an index or an array begins a line. -/
def Unbroken (ts : List Token) : Prop := ts.IsChain fun t u => t.endsType = true → u.is "[" = true → u.lineBreak = false

section
variable {source : Text} {c d : Cursor} {t : Token}

theorem Cursor.standsIn_ofTokens {at_ stop : Nat} {tokens : List Token} (hwindow : Window source at_ stop)
    (h : tokenize source at_ stop = .ok tokens) : (ofTokens tokens).StandsIn source := by
  obtain ⟨ts, last, rfl, _⟩ := tokenize_read hwindow.ends.1 h
  exact ⟨at_, stop, [], hwindow, by simpa [ofTokens] using h⟩

theorem Cursor.StandsIn.reaches (h : c.StandsIn source) (hd : c.Reaches d) : d.StandsIn source := by
  obtain ⟨at_, stop, before, hwindow, htokens⟩ := h
  obtain ⟨ts, rfl⟩ := hd
  exact ⟨at_, stop, before ++ ts, hwindow, by simpa using htokens⟩

theorem Cursor.StandsIn.last (h : c.StandsIn source) : c.last.isEnd = true := by
  obtain ⟨at_, stop, before, hwindow, htokens⟩ := h
  obtain ⟨ts, last, hsplit, hlast, _⟩ := tokenize_read hwindow.ends.1 htokens
  rw [← List.append_assoc] at hsplit
  obtain ⟨_, heq⟩ := List.append_inj' hsplit rfl
  cases heq
  exact hlast

theorem Cursor.StandsIn.forth (h : c.StandsIn source) : c.Forth c := .refl h.last

theorem Cursor.StandsIn.not_isEnd (h : c.StandsIn source) (ht : t ∈ c.rest) : t.isEnd = false := by
  obtain ⟨at_, stop, before, hwindow, htokens⟩ := h
  rw [← List.append_assoc] at htokens
  exact (tokenize_accounts hwindow.ends.1 htokens).not_isEnd (List.mem_append_right before ht)

end

/-- The tokens from `c` to `d` are read the same without line breaks and without
what is behind them: no bracket that may open an index or an array begins a line,
and there is no dot behind a keyword at the end. -/
structure Cursor.Cuts (c d : Cursor) : Prop where
  unbroken : Unbroken (c.upTo d)
  undotted : d.sees "." = true → ∀ t ∈ (c.upTo d).getLast?, TypeGrammar.keywords.contains t.raw = false

/-- The token without a line break before it. -/
def Token.joined (t : Token) : Token := { t with lineBreak := false }

/-- The tokens from `c` to `d` on one line, with the end of the input behind them. -/
def Cursor.alone (c d : Cursor) : Cursor := Cursor.before ⟨[], d.last⟩ ((c.upTo d).map Token.joined)

/-! ## Runs cut out -/

/-- A copy of a token in a text on one line, without documentation. -/
structure Token.Recopied (source text : Text) (u v : Token) : Prop where
  copied : u.Copied source text (fun _ => {}) v
  lineBreak : v.lineBreak = false

/-- A run of tokens of a source and their copies in a text on one line. -/
def Excerpt.cut (source text : Text) (pairs : List (Token × Token)) (behind : Cursor) (final : Token)
    (hcopied : ∀ p ∈ pairs, p.1.Recopied source text p.2) (hunbroken : Unbroken (pairs.map Prod.fst))
    (hlast : behind.last.isEnd = true)
    (hdot : behind.sees "." = true → ∀ p ∈ pairs.getLast?, TypeGrammar.keywords.contains p.1.raw = false)
    (hfinal : final.isEnd = true) : Excerpt where
  source := source
  text := text
  docs := fun _ => {}
  pairs := pairs
  behind := behind
  final := final
  copied p hp := (hcopied p hp).copied
  level := by
    rw [Unbroken, List.isChain_map] at hunbroken
    refine hunbroken.imp_of_mem_imp fun p q _ hq hbreak hends hsees => ?_
    rw [(hcopied q hq).lineBreak, hbreak hends hsees]
  last_isEnd := hlast
  dotless := hdot
  final_isEnd := hfinal

section
variable {source : Text} {c d : Cursor}

theorem Token.Copies.recopied {text : Text} {stop stop' : Nat} {u v w : Token} (h : v.Copies u) (hu : u.ReadAt source stop)
    (hnone : u.isEnd = false) (hv : v.ReadAt text stop') (hlexeme : w.lexeme = v.lexeme) (hraw : w.raw = v.raw)
    (hspace : w.spaceBefore = u.spaceBefore) (hline : w.lineBreak = false) (hdocs : w.docs = []) : u.Recopied source text w := by
  obtain ⟨own, hown, hown'⟩ := h.lexeme
  refine ⟨⟨?_, by rw [hraw, h.raw], hspace, by rw [hdocs]; rfl, hnone⟩, hline⟩
  rw [hlexeme]
  exact Lexeme.copied_of_read hu hv h.raw hown' hown (Nat.add_comm ..)

/-- Nothing but line breaks is changed. -/
def Relines (line : Token → Token) : Prop := ∀ t, line t = { t with lineBreak := (line t).lineBreak }

theorem relines_id : Relines id := fun _ => rfl

theorem relines_joined : Relines Token.joined := fun _ => rfl

theorem Relines.spell {line : Token → Token} (h : Relines line) (ts : List Token) : spell (ts.map line) = spell ts := by
  have hsame (t : Token) : (line t).raw = t.raw ∧ (line t).spaceBefore = t.spaceBefore := by
    rw [h t]
    exact ⟨rfl, rfl⟩
  cases ts with
  | nil => rfl
  | cons t ts =>
    rw [List.map_cons, spell_eq_append, spell_eq_append, spellBehind, spellBehind, List.flatMap_map, (hsame t).1]
    simp only [hsame]

theorem Relines.recopied {line : Token → Token} (h : Relines line) {text : Text} {u v : Token}
    (huv : u.Recopied source text v) : (line u).Recopied source text v := by
  rw [h u]
  exact ⟨⟨huv.copied.lexeme, huv.copied.raw, huv.copied.spaceBefore, huv.copied.docs, huv.copied.not_isEnd⟩, huv.lineBreak⟩

theorem unbroken_joined (ts : List Token) : Unbroken (ts.map Token.joined) := by
  rw [Unbroken, List.isChain_map]
  exact List.Pairwise.isChain (List.pairwise_of_forall_mem_list fun _ _ _ _ _ _ => rfl)

/-- A run of tokens stands with their copies in an excerpt, and the text is read
as the copies, but for a gap before the first. The line breaks of the run and what is
behind it may be others than in the source. -/
theorem exists_excerpt (h : c.StandsIn source) (hd : c.Passes d) {line : Token → Token} (hline : Relines line) {behind : Cursor}
    (hlast : behind.last.isEnd = true) (hunbroken : Unbroken ((c.upTo d).map line))
    (hdot : behind.sees "." = true → ∀ t ∈ (c.upTo d).getLast?, TypeGrammar.keywords.contains t.raw = false) :
    ∃ (o : Excerpt) (tokens : List Token) (t : Token) (e : Cursor), o.source = source ∧ o.text = spell (c.upTo d) ∧
      o.docs = (fun _ => {}) ∧ o.behind = behind ∧ o.before o.pairs = behind.before ((c.upTo d).map line) ∧
      tokenize o.text 0 o.text.length = .ok tokens ∧
      ofTokens tokens = e.before [t] ∧ (o.again o.pairs = e.before [t] ∨ o.again o.pairs = e.before [t.widen false]) := by
  obtain ⟨at_, stop, before, hwindow, htokens⟩ := id h
  obtain ⟨u, us, rfl⟩ := hd
  simp only [upTo_before, rest_before, last_before] at htokens hunbroken hdot ⊢
  have hsplit : before ++ (u :: us ++ d.rest ++ [d.last]) = before ++ (u :: us ++ (d.rest ++ [d.last])) := by simp
  rw [hsplit] at htokens
  have hnone : ∀ v ∈ u :: us, v.isEnd = false := fun v hv => h.not_isEnd (List.mem_append_left d.rest hv)
  have hread : ∀ v ∈ u :: us, v.ReadAt source stop := fun v hv =>
    tokensFrom_read rfl htokens v (List.mem_append_right before (List.mem_append_left _ hv)) (hnone v hv)
  obtain ⟨v, vs, hcopies, hv, hspace, hvs⟩ := tokenize_spell_copies hwindow.ends.1 htokens hnone
  have hreadv : ∀ w ∈ v :: vs, w.ReadAt (spell (u :: us)) (spell (u :: us)).length := by
    obtain ⟨ts, last, heq, _, hts⟩ := tokenize_read (.inl rfl) hcopies
    obtain ⟨rfl, _⟩ := List.append_inj' heq rfl
    exact fun w hw => (hts w hw).2
  -- the gap before the first token of the run is in its copy
  obtain ⟨w, hw, hchoice⟩ : ∃ w, u.Recopied source (spell (u :: us)) w ∧ (w = v ∨ w = v.widen false) := by
    have hfirst {w : Token} (hlexeme : w.lexeme = v.lexeme) (hraw : w.raw = v.raw) (hspace : w.spaceBefore = u.spaceBefore)
        (hline : w.lineBreak = false) (hdocs : w.docs = []) : u.Recopied source (spell (u :: us)) w :=
      hv.recopied (hread u List.mem_cons_self) (hnone u List.mem_cons_self) (hreadv v List.mem_cons_self) hlexeme hraw
      hspace hline hdocs
    cases hgap : u.spaceBefore with
    | true => exact ⟨v.widen false, hfirst rfl rfl hgap.symm (by simp [Token.widen, hv.lineBreak]) hv.docs, .inr rfl⟩
    | false => exact ⟨v, hfirst rfl rfl (hspace.trans hgap.symm) hv.lineBreak hv.docs, .inl rfl⟩
  have hothers := List.forall₂_iff_zip.1 hvs.flip
  have hrecopied : ∀ p ∈ (u, w) :: us.zip vs, p.1.Recopied source (spell (u :: us)) p.2 := by
    refine List.forall_mem_cons.2 ⟨hw, fun p hp => ?_⟩
    obtain ⟨hmem, hmem'⟩ := List.of_mem_zip (a := p.1) (b := p.2) hp
    have hcopy := hothers.2 hp
    have hp₁ := List.mem_cons_of_mem u hmem
    exact hcopy.1.recopied (hread _ hp₁) (hnone _ hp₁) (hreadv _ (List.mem_cons_of_mem v hmem')) rfl rfl hcopy.2 hcopy.1.lineBreak
      hcopy.1.docs
  have hfst : ((u, w) :: us.zip vs).map Prod.fst = u :: us := by
    rw [List.map_cons, List.map_fst_zip (Nat.le_of_eq hothers.1)]
  have hsnd : ((u, w) :: us.zip vs).map Prod.snd = w :: vs := by
    rw [List.map_cons, List.map_snd_zip (Nat.le_of_eq hothers.1.symm)]
  generalize (u, w) :: us.zip vs = pairs at hrecopied hfst hsnd
  -- the tokens of the run have the line breaks that are wanted, and their copies have none
  let lined : List (Token × Token) := pairs.map fun p => (line p.1, p.2)
  have hlined : lined.map Prod.fst = (u :: us).map line := by
    rw [← hfst, List.map_map, List.map_map]
    rfl
  have hlined' : lined.map Prod.snd = w :: vs := by
    rw [← hsnd, List.map_map]
    rfl
  have hcopied : ∀ p ∈ lined, p.1.Recopied source (spell (u :: us)) p.2 := by
    intro p hp
    obtain ⟨q, hq, rfl⟩ := List.mem_map.1 hp
    exact hline.recopied (hrecopied q hq)
  have hdotless (hsees : behind.sees "." = true) :
      ∀ p ∈ lined.getLast?, TypeGrammar.keywords.contains p.1.raw = false := by
    intro p hp
    have hmem : p.1 ∈ ((u :: us).map line).getLast? := by
      rw [← hlined, List.getLast?_map, Option.mem_def.1 hp]
      rfl
    rw [List.getLast?_map] at hmem
    obtain ⟨t, ht, heq⟩ := Option.map_eq_some_iff.1 hmem
    rw [← heq, hline t]
    exact hdot hsees t ht
  have hfinal : (Token.endAt (spell (u :: us)).length).isEnd = true := rfl
  generalize Token.endAt (spell (u :: us)).length = final at hcopies hfinal
  refine ⟨.cut source (spell (u :: us)) lined behind final hcopied (hlined ▸ hunbroken) hlast hdotless hfinal,
    v :: vs ++ [final], v, ⟨vs, final⟩, rfl, rfl, rfl, rfl, ?_, hcopies, ?_, ?_⟩
  · exact congrArg behind.before hlined
  · rw [ofTokens, List.dropLast_concat, List.getLastD_concat]
    rfl
  · have hagain : Cursor.before ⟨[], final⟩ (lined.map Prod.snd) = ⟨w :: vs, final⟩ := by
      rw [hlined', Cursor.before, List.append_nil]
    rcases hchoice with rfl | rfl
    · exact .inl hagain
    · exact .inr hagain

end

end Source

end WireSchema
