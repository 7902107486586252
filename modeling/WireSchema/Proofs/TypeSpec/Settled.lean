import WireSchema.Document
import WireSchema.Proofs.Project.Resolved
import WireSchema.Proofs.Project.Listed
/-!
# Converting again

What a conversion has resolved stays as it is. Converting again in any later
store resolves nothing more and gives the same layout.
-/

namespace WireSchema

namespace TypeSpec

open Project

variable {p : Project} {s s' : Store} {c c' : Chart} {α β : Type}

/-! ## Steps that can be taken again -/

/-- If the step has an answer, it leads to a later store with a chart, to a result
as described, and in any store that is later still it has the same answer and
changes nothing but the events. -/
def Settles (p : Project) (s : Store) (c : Chart) (x : Converting α) (post : α → Store → Chart → Prop) : Prop :=
  ∀ a s', x s = some (a, s') → ∃ c', p.Charted s' c' ∧ Later s s' c c' ∧ post a s' c' ∧
    ∀ t d, p.Charted t d → Later s' t c' d → ∃ events, x t = some (a, { t with events })

theorem later_events (h : Later s s' c c') (events : List Event) : Later s { s' with events } c c' where
  toExtends := h.toExtends.trans (extends_events s' c' events)
  listed := h.listed
  record := h.record

theorem charted_events (h : p.Charted s c) (events : List Event) : p.Charted { s with events } c :=
  (adds_events [] (fun _ => False) h events).charted

section
variable {post : α → Store → Chart → Prop} {post' : β → Store → Chart → Prop}

theorem Settles.pure (h : p.Charted s c) {a : α} (ha : post a s c) : Settles p s c (Pure.pure a) post := by
  intro b s' hrun
  cases hrun
  exact ⟨c, h, .refl s c, ha, fun t d _ _ => ⟨t.events, rfl⟩⟩

theorem Settles.bind {x : Converting α} {f : α → Converting β} (h : Settles p s c x post)
    (hf : ∀ a s' c', p.Charted s' c' → Later s s' c c' → post a s' c' → Settles p s' c' (f a) post') :
    Settles p s c (x >>= f) post' := by
  intro b s₂ hrun
  obtain ⟨⟨a, s₁⟩, hx, hfx⟩ := Option.bind_eq_some_iff.1 hrun
  obtain ⟨c₁, h₁, hlater, ha, hagain⟩ := h a s₁ hx
  obtain ⟨c₂, h₂, hlater₂, hb, hagain₂⟩ := hf a s₁ c₁ h₁ hlater ha b s₂ hfx
  refine ⟨c₂, h₂, hlater.trans hlater₂, hb, fun t d ht hlater₃ => ?_⟩
  obtain ⟨events, hxt⟩ := hagain t d ht (hlater₂.trans hlater₃)
  obtain ⟨events', hft⟩ := hagain₂ _ d (charted_events ht events) (later_events hlater₃ events)
  refine ⟨events', ?_⟩
  show (x t).bind _ = _
  rw [hxt]
  exact hft

/-- Resolving steps one after the other. -/
theorem Settles.bindLift {x : Resolving α} {f : α → Resolving β} (h : Settles p s c (liftM x) post)
    (hf : ∀ a s' c', p.Charted s' c' → Later s s' c c' → post a s' c' → Settles p s' c' (liftM (f a)) post') :
    Settles p s c (liftM (x >>= f)) post' :=
  h.bind hf

theorem Settles.mono {x : Converting α} {post₂ : α → Store → Chart → Prop} (h : Settles p s c x post)
    (hpost : ∀ a s' c', p.Charted s' c' → Later s s' c c' → post a s' c' → post₂ a s' c') : Settles p s c x post₂ := by
  intro a s' hrun
  obtain ⟨c', hcharted, hlater, ha, hagain⟩ := h a s' hrun
  exact ⟨c', hcharted, hlater, hpost a s' c' hcharted hlater ha, hagain⟩

/-- One after the other, with results that stay as described. -/
theorem Settles.mapM {f : α → Converting β} (result : α → β → Store → Chart → Prop)
    (hkeep : ∀ a b s s' c c', Later s s' c c' → result a b s c → result a b s' c') {as : List α} (h : p.Charted s c)
    (hstep : ∀ a ∈ as, ∀ s' c', p.Charted s' c' → Later s s' c c' → Settles p s' c' (f a) (result a)) :
    Settles p s c (as.mapM f) fun bs s' c' => bs.length = as.length ∧
      ∀ (i : Nat) (a : α) (b : β), as[i]? = some a → bs[i]? = some b → result a b s' c' := by
  induction as generalizing s c with
  | nil => exact .pure h ⟨rfl, fun i a b ha => by cases ha⟩
  | cons a as ih =>
    rw [List.mapM_cons]
    refine (hstep a List.mem_cons_self s c h (.refl s c)).bind fun b s₁ c₁ h₁ hlater hb => ?_
    refine (ih h₁ fun a' ha' s' c' h' hlater' =>
      hstep a' (List.mem_cons_of_mem a ha') s' c' h' (hlater.trans hlater')).bind fun bs s₂ c₂ h₂ hlater₂ hbs => ?_
    refine .pure h₂ ⟨by rw [List.length_cons, hbs.1, List.length_cons], fun i a' b' ha' hb' => ?_⟩
    cases i with
    | zero =>
      cases ha'
      cases hb'
      exact hkeep _ _ _ _ _ _ hlater₂ hb
    | succ i => exact hbs.2 i a' b' ha' hb'

/-- A step that resolves settles if what it gives stays known. -/
theorem Settles.lift {x : Resolving α} (h : p.Runs s c (x s) post)
    (hagain : ∀ s' c' t d, p.Charted s' c' → post (x s).1 s' c' → p.Charted t d → Later s' t c' d →
      ∃ events, x t = ((x s).1, { t with events })) : Settles p s c (liftM x) post := by
  intro a s' hrun
  have hx : x s = (a, s') := Option.some.inj hrun
  rw [hx] at h hagain
  obtain ⟨c', hcharted, hlater, ha⟩ := h
  refine ⟨c', hcharted, hlater, ha, fun t d ht hlater' => ?_⟩
  obtain ⟨events, ht⟩ := hagain _ c' t d hcharted ha ht hlater'
  exact ⟨events, congrArg some ht⟩

end

/-! ## Steps that resolve -/

theorem settles_report (h : p.Charted s c) (event : Event) :
    Settles p s c (liftM (Resolving.report event)) fun _ _ _ => True :=
  .lift (runs_report h event) fun _ _ t _ _ _ _ _ => ⟨event :: t.events, rfl⟩

theorem settles_node (h : p.Charted s c) {id : TypeId} (hid : id.index < s.types.size) :
    Settles p s c (liftM (Resolving.node id)) fun n s' _ => n = s'.node id ∧ id.index < s'.types.size :=
  .lift ⟨c, h, .refl s c, rfl, hid⟩ fun s' c' t d _ hpost _ hlater => ⟨t.events, by
    show (t.node id, t) = (s.node id, t)
    rw [hlater.node id hpost.2, ← hpost.1]
    rfl⟩

theorem settles_propertyType (h : p.Charted s c) {q : PropertyId} (hq : q.index < s.properties.size) :
    Settles p s c (liftM (p.propertyType q)) fun t s' _ => ∃ r, s'.property? q = some r ∧ r.type = .done t :=
  .lift (propertyType_ok h hq) fun s' c' t d _ ⟨r, hr, hdone⟩ _ hlater => by
    obtain ⟨r', hr', hkept⟩ := hlater.record q r hr
    refine ⟨t.events, ?_⟩
    have hknown : t.resolution? q = some (.done (p.propertyType q s).1) := by
      rw [Store.resolution?, hr', hkept _ hdone]
      rfl
    rw [propertyType, Resolving.bind_apply]
    simp only [Resolving.get_apply, hknown]
    rfl

theorem settles_properties (h : p.Charted s c) {id : TypeId} (hid : id.index < s.types.size) :
    Settles p s c (liftM (p.properties id)) fun ids s' _ =>
      id.index < s'.types.size ∧ (s'.cell id).properties = .listed ids := by
  have hruns : p.Runs s c (p.properties id s) fun ids s' _ =>
      id.index < s'.types.size ∧ (s'.cell id).properties = .listed ids :=
    (propertiesIn_ok p.interfaces h hid).mono fun ids s' c' _ hlater hlisted =>
      ⟨Nat.lt_of_lt_of_le hid hlater.size, hlisted⟩
  refine .lift hruns fun s' c' t d _ ⟨hid', hlisted⟩ _ hlater => ⟨t.events, ?_⟩
  exact propertiesIn_listed _ (hlater.listed id _ hid' hlisted)

/-! ## Steps that write -/

/-- Writing any type that is there settles. -/
def Writer.Settles (p : Project) (write : Writer) : Prop :=
  ∀ path t s c, p.Charted s c → t.index < s.types.size → TypeSpec.Settles p s c (write path t) fun _ _ _ => True

section
variable {setting : Setting} {write : Writer} {path : List TypeId} {t : TypeId}

theorem settles_verbatim (h : p.Charted s c) (ht : t.index < s.types.size) (reason : VerbatimReason) :
    Settles p s c (verbatim t reason) fun _ _ _ => True :=
  (settles_node h ht).bind fun _ _ _ h₁ _ _ =>
    (settles_report h₁ _).bind fun _ _ _ h₂ _ _ => .pure h₂ trivial

variable (hwrite : write.Settles p)
include hwrite

theorem settles_reference (h : p.Charted s c) (ht : t.index < s.types.size) :
    Settles p s c (reference setting write path t) fun _ _ _ => True := by
  rw [reference]
  split
  · exact .pure h trivial
  · exact hwrite path t s c h ht

theorem settles_references (h : p.Charted s c) {types : List TypeId} (htypes : ∀ t ∈ types, t.index < s.types.size) :
    Settles p s c (references setting write path types) fun _ _ _ => True :=
  (Settles.mapM (fun _ _ _ _ => True) (fun _ _ _ _ _ _ _ _ => trivial) h fun t ht _ _ h' hlater =>
    settles_reference hwrite h' (Nat.lt_of_lt_of_le (htypes t ht) hlater.size)).mono fun _ _ _ _ _ _ => trivial

theorem settles_template (h : p.Charted s c) {spans : List (Span TypeId)}
    (hspans : ∀ t ∈ spanTypes spans, t.index < s.types.size) :
    Settles p s c (template setting write path spans) fun _ _ _ => True := by
  have hone (span : Span TypeId) (hspan : span ∈ spans) (s' : Store) (c' : Chart) (h' : p.Charted s' c')
      (hlater : Later s s' c c') : Settles p s' c' (TypeSpec.span setting write path span) fun _ _ _ => True := by
    cases span with
    | chunk t => exact .pure h' trivial
    | hole t =>
      have ht := mem_spanTypes hspan
      exact (settles_reference hwrite h' (Nat.lt_of_lt_of_le (hspans t ht) hlater.size)).bind
        fun _ _ _ h₁ _ _ => .pure h₁ trivial
  exact (Settles.mapM (fun _ _ _ _ => True) (fun _ _ _ _ _ _ _ _ => trivial) h hone).bind
    fun _ _ _ h₁ _ _ => .pure h₁ trivial

theorem settles_arrayOf (h : p.Charted s c) (ht : t.index < s.types.size) :
    Settles p s c (arrayOf setting write path t) fun _ _ _ => True := by
  refine (settles_reference hwrite h ht).bind fun written s₁ c₁ h₁ hlater _ => ?_
  refine (settles_node h₁ (Nat.lt_of_lt_of_le ht hlater.size)).bind fun node s₂ c₂ h₂ _ _ => ?_
  split
  · exact .pure h₂ trivial
  · exact .pure h₂ trivial

theorem settles_application (h : p.Charted s c) (name : Text) {types : List TypeId}
    (htypes : ∀ t ∈ types, t.index < s.types.size) :
    Settles p s c (application setting write path name types) fun _ _ _ => True :=
  (settles_references hwrite h htypes).bind fun _ _ _ h₁ _ _ => .pure h₁ trivial

omit hwrite in
theorem getLastD_mem (first : TypeId) (rest : List TypeId) : (first :: rest).getLastD first ∈ first :: rest := by
  rw [List.getLastD_eq_getLast?, List.getLast?_eq_some_getLast (List.cons_ne_nil _ _), Option.getD_some]
  exact List.getLast_mem _

theorem settles_instantiation (h : p.Charted s c) (ht : t.index < s.types.size) (symbol : Option Text)
    {arguments : List TypeId} (harguments : ∀ t ∈ arguments, t.index < s.types.size) :
    Settles p s c (instantiation setting write path t symbol arguments) fun _ _ _ => True := by
  unfold instantiation
  split
  · exact settles_verbatim h ht _
  next name =>
    split
    · exact settles_application hwrite h name fun t ht => by cases ht
    next first rest =>
      split
      · exact settles_arrayOf hwrite h (harguments first List.mem_cons_self)
      split
      · refine settles_application hwrite h name fun t ht => ?_
        rw [List.mem_singleton.1 ht]
        exact harguments _ (getLastD_mem first rest)
      · exact settles_application hwrite h name harguments

/-- What is written of a property besides its type. -/
def typed (setting : Setting) (write : Writer) (path : List TypeId) (r : Property Resolution) (q : PropertyId) :
    Converting Layout := do
  let type ← setting.project.propertyType q
  let written ← reference setting write path type
  let mark : Text := if r.isOptional then "?" else []
  let declared : Layout := .concat [.text (fieldName r.name), .text mark, ": ", written]
  return .lines (decorators setting.config r.docs ++ [declared])

omit hwrite in
theorem field_eq {q : PropertyId} {r : Property Resolution} (hr : s.property? q = some r) :
    field setting write path q s = typed setting write path r q s := by
  have hget (f : Store → Converting Layout) : (get >>= f) s = f s s := rfl
  rw [field, hget, hr]
  rfl

theorem settles_field (hproject : setting.project = p) (h : p.Charted s c) {q : PropertyId}
    (hq : q.index < s.properties.size) : Settles p s c (field setting write path q) fun _ _ _ => True := by
  have hr : s.property? q = some s.properties[q.index] := Array.getElem?_eq_getElem hq
  have htyped : Settles p s c (typed setting write path s.properties[q.index] q) fun _ _ _ => True := by
    subst hproject
    refine (settles_propertyType h hq).bind fun t s₁ c₁ h₁ _ ⟨r, hr, hdone⟩ => ?_
    exact (settles_reference hwrite h₁ (done_lt h₁ hr hdone)).bind fun _ _ _ h₂ _ _ => .pure h₂ trivial
  intro layout s' hrun
  rw [field_eq hr] at hrun
  obtain ⟨c', h', hlater, _, hagain⟩ := htyped layout s' hrun
  refine ⟨c', h', hlater, trivial, fun t d ht hlater' => ?_⟩
  -- only the type of the record may have changed, and that is not written from it
  obtain ⟨r', hr', _⟩ := (hlater.trans hlater').record q _ hr
  rw [field_eq hr']
  exact hagain t d ht hlater'

theorem settles_body (hproject : setting.project = p) (h : p.Charted s c) {ids : List PropertyId}
    (hids : ∀ q ∈ ids, q.index < s.properties.size) :
    Settles p s c (body setting write path ids) fun _ _ _ => True := by
  unfold body
  split
  · exact .pure h trivial
  · exact (Settles.mapM (fun _ _ _ _ => True) (fun _ _ _ _ _ _ _ _ => trivial) h
      fun q hq _ _ h' hlater => settles_field hwrite hproject h' (Nat.lt_of_lt_of_le (hids q hq) hlater.count)).bind
      fun _ _ _ h₁ _ _ => .pure h₁ trivial

omit hwrite in
theorem settles_mergedProperties (hproject : setting.project = p) (h : p.Charted s c) (text : Text)
    {members : List TypeId} (hmembers : ∀ t ∈ members, t.index < s.types.size) :
    Settles p s c (mergedProperties setting text members) fun ids s' _ => ∀ q ∈ ids, q.index < s'.properties.size := by
  subst hproject
  refine (Settles.mapM (fun _ ids s' _ => ∀ q ∈ ids, q.index < s'.properties.size) ?_ h ?_).bind
    fun found s₁ c₁ h₁ _ ⟨hlength, heach⟩ => ?_
  · exact fun _ ids s s' c c' hlater hids q hq => Nat.lt_of_lt_of_le (hids q hq) hlater.count
  · intro member hmember s' c' h' hlater
    have hlt := Nat.lt_of_lt_of_le (hmembers member hmember) hlater.size
    refine (settles_properties h' hlt).bind fun ids s₂ c₂ h₂ hlater₂ ⟨hid, hlisted⟩ => ?_
    have hids := listed_lt h₂ hid hlisted
    split
    · exact (settles_node h₂ hid).bind fun node s₃ c₃ h₃ hlater₃ _ => (settles_report h₃ _).bind
        fun _ s₄ c₄ h₄ hlater₄ _ => .pure h₄ fun q hq =>
          Nat.lt_of_lt_of_le (hids q hq) (Nat.le_trans hlater₃.count hlater₄.count)
    · exact .pure h₂ hids
  · have hfound (q : PropertyId) (hq : q ∈ found.flatten) : q.index < s₁.properties.size := by
      obtain ⟨ids, hids, hq⟩ := List.mem_flatten.1 hq
      obtain ⟨i, t, ht, hi⟩ := exists_getElem?_of_mem hlength hids
      exact heach i t ids ht hi q hq
    intro ids s' hrun
    cases hrun
    refine ⟨c₁, h₁, .refl s₁ c₁, fun q hq => hfound q (mem_withNewNames hq), fun t d _ hlater => ⟨t.events, ?_⟩⟩
    have hnames : withNewNames t [] found.flatten = withNewNames s₁ [] found.flatten :=
      withNewNames_congr (fun q hq => hlater.propertyName (hfound q hq)) []
    show some (withNewNames t [] found.flatten, t) = _
    rw [hnames]

theorem settles_convertWith (hproject : setting.project = p) (h : p.Charted s c) (ht : t.index < s.types.size) :
    Settles p s c (convertWith setting write path t) fun _ _ _ => True := by
  refine (settles_node h ht).bind fun node s₁ c₁ h₁ _ ⟨hnode, ht⟩ => ?_
  have hchild (child : TypeId) (hchild : child ∈ node.shape.children) : child.index < s₁.types.size := by
    rw [hnode] at hchild
    exact Nat.lt_trans (h₁.child_lt ht hchild) ht
  -- a type that is met again on the path is written as its text
  have henter {step : Converting Layout} (hstep : Settles p s₁ c₁ step fun _ _ _ => True) :
      Settles p s₁ c₁ (if path.contains t then verbatim t .recursive else step) fun _ _ _ => True := by
    split
    · exact settles_verbatim h₁ ht _
    · exact hstep
  cases hshape : node.shape with
  | string => exact .pure h₁ trivial
  | number => exact .pure h₁ trivial
  | boolean => exact .pure h₁ trivial
  | template spans =>
    rw [hshape] at hchild
    exact settles_template hwrite h₁ hchild
  | array element =>
    rw [hshape] at hchild
    cases element with
    | none => exact henter (settles_verbatim h₁ ht _)
    | some element => exact henter (settles_arrayOf hwrite h₁ (hchild element List.mem_cons_self))
  | tuple elements =>
    rw [hshape] at hchild
    exact henter ((settles_references hwrite h₁ hchild).bind fun _ _ _ h₂ _ _ => .pure h₂ trivial)
  | instantiation arguments =>
    rw [hshape] at hchild
    exact henter (settles_instantiation hwrite h₁ ht _ hchild)
  | object =>
    refine henter ?_
    subst hproject
    exact (settles_properties h₁ ht).bind fun ids s₂ c₂ h₂ _ ⟨hid, hlisted⟩ =>
      settles_body hwrite rfl h₂ (listed_lt h₂ hid hlisted)
  | union members =>
    rw [hshape] at hchild
    exact henter ((settles_references hwrite h₁ hchild).bind fun _ _ _ h₂ _ _ => .pure h₂ trivial)
  | intersection members =>
    rw [hshape] at hchild
    exact henter ((settles_mergedProperties hproject h₁ _ hchild).bind fun ids s₂ c₂ h₂ _ hids =>
      settles_body hwrite hproject h₂ hids)
  | other => exact henter (settles_verbatim h₁ ht _)

end

/-! ## Whole conversions -/

section
variable {setting : Setting}

theorem settles_convertIn (hproject : setting.project = p) (depth : Nat) : (convertIn setting depth).Settles p := by
  induction depth with
  | zero => exact fun path t s c _ _ layout s' hrun => by cases hrun
  | succ depth ih => exact fun path t s c h ht => settles_convertWith ih hproject h ht

end

end TypeSpec

end WireSchema
