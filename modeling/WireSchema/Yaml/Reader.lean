import WireSchema.Yaml.Grammar
import WireSchema.Yaml.Scalar.Value
/-!
# From documents to data

A mapping takes over the entries of the mappings under its keys `<<`, which its
own entries override. Keys may not be collections. A node inside itself is cut
to an empty collection.
-/

namespace WireSchema.Yaml

/-- An anchor's node, and the anchors without it. -/
def Anchors.follow? (anchors : Anchors) (name : Text) : Option (Node × Anchors) :=
  (anchors.lookup name).map fun node => (node, anchors.filter (·.1 != name))

theorem Anchors.length_follow? {anchors rest : Anchors} {name : Text} {node : Node}
    (h : anchors.follow? name = some (node, rest)) : rest.length < anchors.length := by
  obtain ⟨found, hfound, hpair⟩ := Option.map_eq_some_iff.1 h
  obtain ⟨before, behind, hsplit, _⟩ := List.lookup_eq_some_iff.1 hfound
  have hmem : (name, found) ∈ anchors := by simp [hsplit]
  obtain ⟨rfl, rfl⟩ := Prod.mk.inj hpair
  exact List.length_filter_lt_length_iff_exists.2 ⟨_, hmem, by simp⟩

/-- The entries of a mapping. -/
structure Entries where
  /-- Those it takes over from other mappings. -/
  taken : List (Datum × Datum) := []
  own : List (Datum × Datum) := []

/-- All entries, later ones overriding earlier ones. -/
def Entries.inOrder (e : Entries) : List (Datum × Datum) :=
  e.taken ++ e.own

namespace Node

/-- What a node inside itself is cut to. -/
def cut : Node → Datum
  | .sequence _ _ => .list []
  | .mapping tag _ => if tag = .set then .set [] else .mapping []
  | _ => .null

/-- The tag of a node or of the node that an alias stands for. -/
def meantTag? (anchors : Anchors) : Node → Option Tag
  | .reference name => (anchors.lookup name).bind tag?
  | node => node.tag?

/-- The text of the key `=`, which is an ordinary word there. -/
def word? : Node → Option Text
  | .scalar tag text => if tag = .value then some text else none
  | _ => none

/-- The same of the node that an alias stands for. -/
def meantWord? (anchors : Anchors) : Node → Option Text
  | .reference name => (anchors.lookup name).bind word?
  | node => node.word?

mutual

/-- The datum of a node. `all` are the anchors of the document and `rest` those
of them whose nodes are not around this one. -/
def datum (all rest : Anchors) : Node → Except Fault Datum
  | .reference name =>
    match _h : rest.follow? name with
    | some (node, rest') => datum all rest' node
    | none => .ok (((all.lookup name).map cut).getD .null)
  | .scalar tag text => Scalar.value tag text
  | .sequence tag items =>
    match tag with
    | .list => do return .list (← data all rest items)
    | .orderedMapping => do return .list (← pairs all rest items)
    | .pairs => do return .list (← pairs all rest items)
    | _ => .error .malformed
  | .mapping tag entries =>
    match tag with
    | .mapping => do return .mapping (Datum.distinct (← entryData all rest entries).inOrder)
    | .set => do
      return .set ((Datum.distinct (← entryData all rest entries).inOrder).map (·.1))
    | tag => do Scalar.value tag (← innerText all rest entries)
termination_by node => (rest.length, sizeOf node)
decreasing_by
  all_goals simp_wf
  · exact Prod.Lex.left _ _ (Anchors.length_follow? (by assumption))
  all_goals exact Prod.Lex.right _ (by omega)

/-- The data of the items of a list. -/
def data (all rest : Anchors) : List Node → Except Fault (List Datum)
  | [] => .ok []
  | item :: items => do return (← datum all rest item) :: (← data all rest items)
termination_by items => (rest.length, sizeOf items)
decreasing_by
  all_goals simp_wf
  all_goals exact Prod.Lex.right _ (by omega)

/-- The pairs of a list of mappings with one entry each. -/
def pairs (all rest : Anchors) : List Node → Except Fault (List Datum)
  | [] => .ok []
  | item :: items => do return (← pair all rest item) :: (← pairs all rest items)
termination_by items => (rest.length, sizeOf items)
decreasing_by
  all_goals simp_wf
  all_goals exact Prod.Lex.right _ (by omega)

/-- The pair of a mapping with one entry. -/
def pair (all rest : Anchors) : Node → Except Fault Datum
  | .reference name =>
    match _h : rest.follow? name with
    | some (node, rest') => pair all rest' node
    | none => .ok (.list [])
  | .mapping _ [(key, value)] => do
    return .list [← datum all rest key, ← datum all rest value]
  | _ => .error .malformed
termination_by node => (rest.length, sizeOf node)
decreasing_by
  all_goals simp_wf
  · exact Prod.Lex.left _ _ (Anchors.length_follow? (by assumption))
  all_goals exact Prod.Lex.right _ (by omega)

/-- The entries of a mapping. -/
def entryData (all rest : Anchors) : List (Node × Node) → Except Fault Entries
  | [] => .ok {}
  | (key, value) :: entries => do
    if meantTag? all key = some .merge then
      let taken ← takenOver all rest value
      let others ← entryData all rest entries
      return { others with taken := taken ++ others.taken }
    else
      let k ← match meantWord? all key with
        | some word => pure (.text word)
        | none => datum all rest key
      if !Datum.isKey k then .error .malformed
      else
        let v ← datum all rest value
        let others ← entryData all rest entries
        return { others with own := (k, v) :: others.own }
termination_by entries => (rest.length, sizeOf entries)
decreasing_by
  all_goals simp_wf
  all_goals exact Prod.Lex.right _ (by omega)

/-- The entries that a mapping takes over from a mapping or a list of mappings,
of which the first one overrides the others. -/
def takenOver (all rest : Anchors) : Node → Except Fault (List (Datum × Datum))
  | .reference name =>
    match _h : rest.follow? name with
    | some (node, rest') => takenOver all rest' node
    | none => .ok []
  | .mapping _ entries => do return (← entryData all rest entries).inOrder
  | .sequence _ items => takenOverItems all rest items
  | .scalar _ _ => .error .malformed
termination_by node => (rest.length, sizeOf node)
decreasing_by
  all_goals simp_wf
  · exact Prod.Lex.left _ _ (Anchors.length_follow? (by assumption))
  all_goals exact Prod.Lex.right _ (by omega)

/-- The entries of the mappings in a list, those of the first mapping last. -/
def takenOverItems (all rest : Anchors) : List Node → Except Fault (List (Datum × Datum))
  | [] => .ok []
  | item :: items => do
    let first ← takenOverItem all rest item
    return (← takenOverItems all rest items) ++ first
termination_by items => (rest.length, sizeOf items)
decreasing_by
  all_goals simp_wf
  all_goals exact Prod.Lex.right _ (by omega)

/-- The entries of a mapping in a list. -/
def takenOverItem (all rest : Anchors) : Node → Except Fault (List (Datum × Datum))
  | .reference name =>
    match _h : rest.follow? name with
    | some (node, rest') => takenOverItem all rest' node
    | none => .ok []
  | .mapping _ entries => do return (← entryData all rest entries).inOrder
  | _ => .error .malformed
termination_by node => (rest.length, sizeOf node)
decreasing_by
  all_goals simp_wf
  · exact Prod.Lex.left _ _ (Anchors.length_follow? (by assumption))
  all_goals exact Prod.Lex.right _ (by omega)

/-- The text of a mapping that is tagged as a scalar: that of its key `=`. -/
def innerText (all rest : Anchors) : List (Node × Node) → Except Fault Text
  | [] => .error .malformed
  | (key, value) :: entries =>
    if meantTag? all key = some .value then scalarText all rest value
    else innerText all rest entries
termination_by entries => (rest.length, sizeOf entries)
decreasing_by
  all_goals simp_wf
  all_goals exact Prod.Lex.right _ (by omega)

/-- The text of a node that is read as a scalar. -/
def scalarText (all rest : Anchors) : Node → Except Fault Text
  | .reference name =>
    match _h : rest.follow? name with
    | some (node, rest') => scalarText all rest' node
    | none => .error .malformed
  | .scalar _ text => .ok text
  | .mapping _ entries => innerText all rest entries
  | .sequence _ _ => .error .malformed
termination_by node => (rest.length, sizeOf node)
decreasing_by
  all_goals simp_wf
  · exact Prod.Lex.left _ _ (Anchors.length_follow? (by assumption))
  all_goals exact Prod.Lex.right _ (by omega)

end

end Node

/-- The datum of a YAML text; an empty text holds nothing. -/
def parse (t : Text) : Except Fault Datum := do
  match ← Document.parse t with
  | none => return .null
  | some document => document.root.datum document.anchors document.anchors

end WireSchema.Yaml
