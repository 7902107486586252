import WireSchema.Project.Resolve
import WireSchema.Proofs.Grammar.Spelling
import WireSchema.Proofs.Steps
import WireSchema.TypeSpec.FieldName
/-!
# The cells that resolving makes

Resolving a type that names nothing the project declares makes a run of new
cells, those of its parts first, and changes nothing that was there. `cells`
says which ones; the last of them is the type's own.
-/

namespace WireSchema

namespace TypeExpr

mutual

/-- How many cells resolving the type makes. -/
def cellCount : TypeExpr → Nat
  | array element _ => cellCount element + 1
  | tuple elements _ _ => cellCountAll elements + 1
  | union members _ => cellCountAll members + 1
  | reference _ arguments _ => cellCountAll arguments + 1
  | _ => 1

/-- How many cells resolving several types makes. -/
def cellCountAll : List TypeExpr → Nat
  | [] => 0
  | e :: rest => cellCount e + cellCountAll rest

end

theorem cellCount_pos (e : TypeExpr) : 0 < e.cellCount := by
  cases e <;> simp [cellCount]

/-- The type's own cell, if the first of its cells is at `lo`. -/
def top (lo : Nat) (e : TypeExpr) : TypeId := ⟨lo + e.cellCount - 1⟩

/-- The own cells of several types. -/
def tops (lo : Nat) : List TypeExpr → List TypeId
  | [] => []
  | e :: rest => e.top lo :: tops (lo + e.cellCount) rest

mutual

/-- The cells that a union with the type among its members has for it: those of
its members if it is a union itself. -/
def leaves (lo : Nat) : TypeExpr → List TypeId
  | union members _ => leavesAll lo members
  | e => [e.top lo]

/-- The cells that a union has for its members. -/
def leavesAll (lo : Nat) : List TypeExpr → List TypeId
  | [] => []
  | e :: rest => leaves lo e ++ leavesAll (lo + e.cellCount) rest

end

/-- A cell of a type without properties. -/
def plainCell (shape : Shape) (text : Text) (symbol : Option Text := none) : TypeCell :=
  { node := { shape, text, symbol } }

mutual

/-- The cells that resolving the type makes where the next cell is `lo`. -/
def cells (context : Context) (lo : Nat) : TypeExpr → List TypeCell
  | keyword name => [plainCell (Resolving.keywordShape name) name]
  | array element text =>
    cells context lo element ++ [plainCell (.array (some (element.top lo))) text]
  | tuple elements text _ => cellsAll context lo elements ++ [plainCell (.tuple (tops lo elements)) text]
  | union members text => cellsAll context lo members ++ [plainCell (.union (leavesAll lo members)) text]
  | object members text =>
    [{ node := { shape := .object, text }, properties := .ofMembers context members }]
  | reference name [] text =>
    [plainCell .other (if context.parameters.contains name then name else text)]
  | reference name (first :: rest) text =>
    cellsAll context lo (first :: rest) ++
      [plainCell (.instantiation (tops lo (first :: rest))) text (some name)]
  | e => [plainCell .other e.text]

/-- The cells that resolving several types makes. -/
def cellsAll (context : Context) (lo : Nat) : List TypeExpr → List TypeCell
  | [] => []
  | e :: rest => cells context lo e ++ cellsAll context (lo + e.cellCount) rest

end

section
variable (context : Context)

mutual

theorem cells_length (lo : Nat) (e : TypeExpr) : (cells context lo e).length = e.cellCount := by
  match e with
  | keyword _ => rfl
  | literal _ => rfl
  | template _ _ => rfl
  | array element _ => rw [cells, cellCount, List.length_append, cells_length lo element]; rfl
  | tuple elements _ _ => rw [cells, cellCount, List.length_append, cellsAll_length lo elements]; rfl
  | object _ _ => rfl
  | union members _ => rw [cells, cellCount, List.length_append, cellsAll_length lo members]; rfl
  | intersection _ _ => rfl
  | reference _ [] _ => rfl
  | reference _ (first :: rest) _ =>
    rw [cells, cellCount, List.length_append, cellsAll_length lo (first :: rest)]; rfl
  | verbatim _ _ => rfl

theorem cellsAll_length (lo : Nat) (es : List TypeExpr) : (cellsAll context lo es).length = cellCountAll es := by
  match es with
  | [] => rfl
  | e :: rest => rw [cellsAll, cellCountAll, List.length_append, cells_length lo e, cellsAll_length _ rest]

end

end

end TypeExpr

/-! ## Runs of cells in a store -/

namespace Store

open TypeExpr

/-- The store has the cells at `lo` and behind. -/
def Has (s : Store) (lo : Nat) (cs : List TypeCell) : Prop :=
  ∀ i c, cs[i]? = some c → s.types[lo + i]? = some c

variable {s : Store} {lo : Nat} {as bs : List TypeCell} {c : TypeCell}

theorem Has.left (h : s.Has lo (as ++ bs)) : s.Has lo as := by
  intro i c hi
  refine h i c ?_
  rw [List.getElem?_append_left (List.getElem?_eq_some_iff.1 hi).1, hi]

theorem Has.right (h : s.Has lo (as ++ bs)) : s.Has (lo + as.length) bs := by
  intro i c hi
  rw [Nat.add_assoc]
  refine h (as.length + i) c ?_
  rw [List.getElem?_append_right (Nat.le_add_right _ _), Nat.add_sub_cancel_left, hi]

theorem Has.cell (h : s.Has lo (as ++ [c])) : s.cell ⟨lo + as.length⟩ = c := by
  have := h.right 0 c rfl
  rw [Store.cell, Array.getD_eq_getD_getElem?]
  rw [Nat.add_zero] at this
  rw [this]
  rfl

/-- A type's own cell is the last one of its cells. -/
theorem Has.top {a : List TypeCell} {e : TypeExpr} (h : s.Has lo (a ++ [c])) (hlen : a.length + 1 = e.cellCount) :
    s.cell (e.top lo) = c := by
  rw [TypeExpr.top, ← hlen]
  exact h.cell

theorem Has.node_top {context : Context} {e : TypeExpr} (h : s.Has lo (cells context lo e)) :
    s.node (e.top lo) = ((cells context lo e).getLastD default).node := by
  have hlen := cells_length context lo e
  rcases List.eq_nil_or_concat (cells context lo e) with hnil | ⟨cs, c, hcells⟩
  · rw [hnil] at hlen
    exact absurd hlen (Nat.ne_of_lt e.cellCount_pos)
  · rw [hcells, List.concat_eq_append] at h hlen ⊢
    rw [List.length_append] at hlen
    rw [Store.node, h.top hlen, List.getLastD_concat]

/-- What a union takes for a member with such cells. -/
theorem Has.leaves {context : Context} {e : TypeExpr} (h : s.Has lo (cells context lo e)) :
    (Shape.anonymousUnion? (s.node (e.top lo))).getD [e.top lo] = e.leaves lo := by
  rw [h.node_top]
  -- the kind of the own cell decides
  cases e with
  | keyword name =>
    simp only [cells, List.getLastD_cons, List.getLastD_nil, plainCell, Resolving.keywordShape]
    split
    · rfl
    split
    · rfl
    split <;> rfl
  | reference name arguments text =>
    cases arguments with
    | nil => rfl
    | cons first rest =>
      rw [cells, List.getLastD_concat]
      rfl
  | _ =>
    simp only [cells, List.getLastD_concat]
    rfl

theorem Has.leavesAll {context : Context} {es : List TypeExpr} (h : s.Has lo (cellsAll context lo es)) :
    (tops lo es).flatMap (fun t => (Shape.anonymousUnion? (s.node t)).getD [t]) = TypeExpr.leavesAll lo es := by
  induction es generalizing lo with
  | nil => rfl
  | cons e es ih =>
    rw [tops, List.flatMap_cons, TypeExpr.leavesAll]
    rw [cellsAll] at h
    rw [h.left.leaves]
    have := h.right
    rw [cells_length] at this
    rw [ih this]

/-- The store with more cells, and with other events. -/
def grown (s : Store) (cs : List TypeCell) (events : List Event) : Store :=
  { s with types := s.types ++ cs.toArray, events }

@[simp] theorem size_grown (s : Store) (cs : List TypeCell) (events : List Event) :
    (s.grown cs events).types.size = s.types.size + cs.length := by
  simp [grown]

theorem grown_grown (s : Store) (cs ds : List TypeCell) (events events' : List Event) :
    (s.grown cs events).grown ds events' = s.grown (cs ++ ds) events' := by
  simp [grown, Array.append_assoc]

theorem has_grown (s : Store) (cs : List TypeCell) (events : List Event) :
    (s.grown cs events).Has s.types.size cs := by
  intro i c hi
  rw [grown, Array.getElem?_append_right (Nat.le_add_right _ _), Nat.add_sub_cancel_left]
  simpa using hi

end Store

/-! ## Identifiers -/

open TypeSpec

/-- A name of ASCII letters, digits, `_` and `$`, with no digit first. -/
def Text.isIdentifier : Text → Bool
  | [] => false
  | c :: rest => beginsPlain c && rest.all continuesPlain

theorem CodePoint.beginsWord_of_beginsPlain {c : CodePoint} (h : beginsPlain c = true) :
    c.beginsWord = true ∧ c.isBlank = false ∧ c.isDigit = false := by
  have all : ∀ n : Fin 128, beginsPlain ⟨n.val, by omega⟩ = true →
      CodePoint.isBlank ⟨n.val, by omega⟩ = false ∧ CodePoint.isDigit ⟨n.val, by omega⟩ = false := by
    decide +kernel
  have hval : c.val < 128 := by
    simp only [beginsPlain, isLetter, isBetween, Bool.or_eq_true, Bool.and_eq_true, decide_eq_true_eq,
      beq_iff_eq] at h
    have hz : 'z'.toNat = 122 := rfl
    have hZ : 'Z'.toNat = 90 := rfl
    rcases h with ((h | h) | rfl) | rfl
    · omega
    · omega
    · decide
    · decide
  refine ⟨?_, all ⟨c.val, hval⟩ h⟩
  rw [beginsPlain] at h
  rw [beginsWord, h, Bool.true_or]

theorem CodePoint.continuesWord_of_continuesPlain {c : CodePoint} (h : continuesPlain c = true) :
    c.continuesWord = true := by
  rw [continuesPlain, Bool.or_eq_true] at h
  rw [continuesWord]
  rcases h with h | h
  · rw [(beginsWord_of_beginsPlain h).1, Bool.true_or]
  · have hval : c.val < 0x80 := by
      simp only [isBetween, Bool.and_eq_true, decide_eq_true_eq] at h
      have h9 : '9'.toNat = 57 := rfl
      omega
    rw [isWord, isAlphanumeric, if_pos hval, h, Bool.or_true, Bool.true_or, Bool.or_true]

theorem Text.isName_of_isIdentifier {t : Text} (h : t.isIdentifier = true) : t.isName = true := by
  match t, h with
  | c :: rest, h =>
    rw [isIdentifier, Bool.and_eq_true, List.all_eq_true] at h
    obtain ⟨hbegins, hblank, hdigit⟩ := CodePoint.beginsWord_of_beginsPlain h.1
    rw [isName, hbegins, hblank, hdigit]
    exact List.all_eq_true.2 fun d hd => CodePoint.continuesWord_of_continuesPlain (h.2 d hd)

/-- Identifiers are written without backquotes. -/
theorem TypeSpec.fieldName_eq {t : Text} (h : t.isIdentifier = true) : fieldName t = t := by
  match t, h with
  | c :: rest, h =>
    rw [Text.isIdentifier, Bool.and_eq_true] at h
    rw [fieldName, isPlainName, h.1, h.2]
    rfl

/-! ## Resolving -/

open TypeGrammar

namespace Project

/-- No unit declares the name. -/
def Undeclared (p : Project) (name : Text) : Prop :=
  ∀ unit ∈ p.units, ∀ d ∈ unit.declarations, d.name ≠ name

theorem Undeclared.lookup? {p : Project} {name : Text} (h : p.Undeclared name) (place : Nat) :
    p.lookup? place name = none := by
  have hunit : ∀ place, p.findIn? place name = none := by
    intro place
    cases hplace : p.unit? place with
    | none => simp [findIn?, hplace]
    | some unit =>
      have hmem : unit ∈ p.units := List.mem_of_getElem? hplace
      have hnone : unit.declarations.findIdx? (·.name == name) = none := by
        rw [List.findIdx?_eq_none_iff]
        intro d hd
        exact beq_eq_false_iff_ne.2 (h unit hmem d hd)
      simp [findIn?, hplace, hnone]
  rw [Project.lookup?, hunit]
  exact List.findSome?_eq_none_iff.2 fun place _ => hunit place

/-- The types that are written as they would be read: those of keywords,
literals, names that the project does not declare, arrays, tuples, object shapes
with plain names and without documentation, and unions. -/
inductive Convertible (p : Project) : TypeExpr → Prop where
  | keyword (name : Text) : p.Convertible (.keyword name)
  | literal (text : Text) : p.Convertible (.literal text)
  | reference {name text : Text} {arguments : List TypeExpr} :
    name ∉ reservedWords → name ≠ "Array" → p.Undeclared name →
    (∀ e ∈ arguments, p.Convertible e) → p.Convertible (.reference name arguments text)
  | array {element : TypeExpr} {text : Text} : p.Convertible element → p.Convertible (.array element text)
  | tuple {elements : List TypeExpr} {text : Text} :
    (∀ e ∈ elements, p.Convertible e) → p.Convertible (.tuple elements text false)
  | object {members : List (Property TypeExpr)} {text : Text} :
    (∀ m ∈ members, Text.isIdentifier m.name = true ∧ m.docs = {}) →
    (∀ m ∈ members, p.Convertible m.type) → p.Convertible (.object members text)
  | union {members : List TypeExpr} {text : Text} :
    (∀ e ∈ members, p.Convertible e) → p.Convertible (.union members text)

open TypeExpr Resolving

section
variable {p : Project} {closed : List DeclarationId} {context : Context}

/-- Resolving the type makes its cells. -/
def Makes (p : Project) (closed : List DeclarationId) (context : Context) (e : TypeExpr) : Prop :=
  ∀ s : Store, ∃ events, p.resolve closed context e s =
    (e.top s.types.size, s.grown (cells context s.types.size e) events)

theorem resolveAll_cells {es : List TypeExpr} (h : ∀ e ∈ es, p.Makes closed context e) (s : Store) :
    ∃ events, p.resolveAll closed context es s =
      (tops s.types.size es, s.grown (cellsAll context s.types.size es) events) := by
  induction es generalizing s with
  | nil =>
    rw [resolveAll]
    exact ⟨s.events, by simp [Store.grown, tops, cellsAll]⟩
  | cons e es ih =>
    obtain ⟨events, he⟩ := h e List.mem_cons_self s
    obtain ⟨events', hes⟩ := ih (fun d hd => h d (List.mem_cons_of_mem _ hd))
      (s.grown (cells context s.types.size e) events)
    rw [Store.size_grown, cells_length] at hes
    refine ⟨events', ?_⟩
    rw [resolveAll, bind_apply, he, bind_apply, hes, pure_apply, Store.grown_grown]
    rfl

/-- A cell put behind those of a type's parts. -/
theorem addNode_grown (s : Store) (cs : List TypeCell) (events : List Event) (shape : Shape) (text : Text)
    (symbol : Option Text) : addNode shape text symbol (s.grown cs events) =
      (⟨s.types.size + cs.length⟩, s.grown (cs ++ [plainCell shape text symbol]) events) := by
  rw [addNode_apply, Store.size_grown]
  simp [Store.grown, plainCell]

theorem makes_leaf {e : TypeExpr} (shape : Shape) (text : Text)
    (h : ∀ s, ∃ events, p.resolve closed context e s = addNode shape text none (s.grown [] events))
    (hcells : ∀ lo, cells context lo e = [plainCell shape text]) : p.Makes closed context e := by
  intro s
  obtain ⟨events, h⟩ := h s
  have hlen := cells_length context s.types.size e
  rw [hcells] at hlen ⊢
  refine ⟨events, ?_⟩
  rw [h, addNode_grown, top, ← hlen]
  rfl

theorem makes_of_convertible {e : TypeExpr} (h : p.Convertible e) : p.Makes closed context e := by
  have hself (s : Store) : s = s.grown [] s.events := by simp [Store.grown]
  -- by induction on the expression: its cells are appended, those of its parts first
  induction h with
  | keyword name =>
    refine makes_leaf (keywordShape name) name (fun s => ⟨s.events, ?_⟩) fun lo => rfl
    rw [resolve, ← hself]
  | literal text =>
    refine makes_leaf .other text (fun s => ⟨s.events, ?_⟩) fun lo => rfl
    rw [resolve, ← hself]
  | @reference name text arguments hreserved harray hundeclared _ ih =>
    have hlookup := hundeclared.lookup? context.unit
    cases arguments with
    | nil =>
      cases hparameter : context.parameters.contains name with
      | true =>
        refine makes_leaf .other name (fun s => ⟨s.events, ?_⟩) fun lo => ?_
        · rw [resolve, hparameter, List.isEmpty_nil, Bool.true_and, if_pos rfl, ← hself]
        · rw [cells, hparameter]
          rfl
      | false =>
        refine makes_leaf .other text
          (fun s => ⟨.unresolvedReference name (p.unitName context.unit) :: s.events, ?_⟩) fun lo => ?_
        · rw [resolve, hparameter, Bool.false_and, if_neg Bool.false_ne_true, resolveAll]
          simp only [bind_apply, pure_apply, hlookup, report_apply]
          simp [Store.grown]
        · rw [cells, hparameter]
          rfl
    | cons first rest =>
      intro s
      obtain ⟨events, he⟩ := resolveAll_cells ih s
      refine ⟨events, ?_⟩
      have hnone : (context.parameters.contains name && (first :: rest).isEmpty) = false := by simp
      rw [resolve, if_neg (by rw [hnone]; exact Bool.false_ne_true), bind_apply, he]
      simp only [hlookup, tops]
      rw [addNode_grown, cells, cellsAll_length]
      rfl
  | @array element text _ ih =>
    intro s
    obtain ⟨events, he⟩ := ih s
    refine ⟨events, ?_⟩
    rw [resolve, bind_apply, he, addNode_grown, cells, cells_length]
    rfl
  | @tuple elements text _ ih =>
    intro s
    obtain ⟨events, he⟩ := resolveAll_cells ih s
    refine ⟨events, ?_⟩
    rw [resolve, if_neg Bool.false_ne_true, bind_apply, he, addNode_grown, cells, cellsAll_length]
    rfl
  | @object members text _ _ ih =>
    intro s
    refine ⟨s.events, ?_⟩
    rw [resolve, addCell_apply]
    simp [Store.grown, cells, top, cellCount]
  | @union members text _ ih =>
    intro s
    obtain ⟨events, he⟩ := resolveAll_cells ih s
    refine ⟨events, ?_⟩
    have hleaves := (s.has_grown (cellsAll context s.types.size members) events).leavesAll
    rw [resolve, bind_apply, he, makeUnion, bind_apply, flatten, bind_apply, get_apply, pure_apply, hleaves,
      addNode_grown, cells, cellsAll_length]
    rfl

end

end Project

end WireSchema
