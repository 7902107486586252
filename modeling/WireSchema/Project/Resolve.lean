import WireSchema.Graph.Store
import WireSchema.Text.Quoted
/-!
# Resolving types

Every declaration has one resolved type, made when it is first asked for; each
other occurrence of a type expression gets a node of its own. A type alias that
is met again while its own type is being made stands for its name.

`closed` lists the aliases whose definition may still be entered. Each one that
is entered leaves the list, so resolution ends.

An intersection with unions among its members is distributed over them: it is
the union of the intersections of all choices.
-/

namespace WireSchema

namespace Shape

/-- The node of a union without a name, whose members count as members of a
union around it. -/
def anonymousUnion? (n : TypeNode) : Option (List TypeId) :=
  match n.shape, n.symbol with
  | .union members, none => some members
  | _, _ => none

/-- The members of an intersection. -/
def intersectionMembers? (n : TypeNode) : Option (List TypeId) :=
  match n.shape with
  | .intersection members => some members
  | _ => none

/-- The members of a union. -/
def unionMembers? (n : TypeNode) : Option (List TypeId) :=
  match n.shape with
  | .union members => some members
  | _ => none

end Shape

/-- All ways to choose one from each list, the first choice changing slowest. -/
def choices {α : Type} : List (List α) → List (List α)
  | [] => [[]]
  | options :: rest => options.flatMap fun x => (choices rest).map (x :: ·)

namespace Resolving

/-- The types with the members of those that `f` opens in their place. -/
def flatten (f : TypeNode → Option (List TypeId)) (types : List TypeId) :
    Resolving (List TypeId) := do
  let s ← get
  return types.flatMap fun t => (f (s.node t)).getD [t]

/-- The union of types; unions without a name among them are opened. -/
def makeUnion (types : List TypeId) (text : Text) : Resolving TypeId := do
  addNode (.union (← flatten Shape.anonymousUnion? types)) text

/-- The intersection of types; intersections among them are opened, then it is
distributed over unions, at most `depth` times one inside the other. -/
def makeIntersection : Nat → List TypeId → Resolving TypeId
  | 0, types => addNode (.intersection types) []
  | depth + 1, types => do
    let flat ← flatten Shape.intersectionMembers? types
    let s ← get
    if flat.any fun t => (s.node t).isUnion then
      let options := flat.map fun t => (Shape.unionMembers? (s.node t)).getD [t]
      let variants ← (choices options).mapM (makeIntersection depth)
      let text := Text.join " | " ((← nodes variants).map (·.text))
      addNode (.union variants) text
    else
      addNode (.intersection flat) (Text.join " & " (flat.map fun t => (s.node t).text))

/-- The intersection of types. Members are made before what they are members of,
so unions nest less deep than there are types. -/
def intersect (types : List TypeId) : Resolving TypeId := do
  makeIntersection ((← get).types.size + 1) types

/-- The type of an enumeration: a union of its members' values under its name. -/
def enumeration (name : Text) (members : List EnumMember) : Resolving TypeId := do
  let values ← members.mapM fun m => addNode .other (m.value.getD (name ++ "." ++ m.name))
  addNode (.union values) name (some name)

/-- The text of an interface: its name with its type parameters. -/
def interfaceText (name : Text) (parameters : List Text) : Text :=
  if parameters.isEmpty then name else name ++ "<" ++ Text.join ", " parameters ++ ">"

/-- The kind of node a keyword stands for. -/
def keywordShape (name : Text) : Shape :=
  if name = "string" then .string
  else if name = "number" then .number
  else if name = "boolean" then .boolean
  else .other

/-- The text of a template without holes. -/
def plainTemplate? : List (Span TypeExpr) → Option Text
  | [] => some []
  | .chunk t :: rest => (plainTemplate? rest).map (t ++ ·)
  | .hole _ :: _ => none

end Resolving

namespace Project

open Resolving

mutual

/-- The type of a declaration. -/
def resolveDeclaration (p : Project) (closed : List DeclarationId) (id : DeclarationId) :
    Resolving TypeId := do
  match (← get).declared? id with
  | some type => return type
  | none =>
    match p.declaration? id with
    | none => addNode .other []
    | some declaration =>
      match declaration.body with
      | .interface parameters _ _ =>
        let type ← addCell
          { node := { shape := .object, text := interfaceText declaration.name parameters
                      symbol := some declaration.name }
            properties := .ofInterface id }
        setDeclared id type
        return type
      | .enumeration members =>
        let type ← enumeration declaration.name members
        setDeclared id type
        return type
      | .typeAlias parameters body =>
        if _h : id ∈ closed then
          let type ← resolve p (closed.erase id) { unit := id.unit, parameters } body
          setDeclared id type
          return type
        else
          report (.circularAlias declaration.name (p.unitName id.unit))
          addNode .other declaration.name
termination_by (closed.length, 0)
decreasing_by
  have := List.length_erase_of_mem _h
  have := List.length_pos_of_mem _h
  omega

/-- The type of an expression. -/
def resolve (p : Project) (closed : List DeclarationId) (context : Context) :
    TypeExpr → Resolving TypeId
  | .keyword name => addNode (keywordShape name) name
  | .literal text => addNode .other text
  | .verbatim text _ => addNode .other text
  | .template spans text =>
    match plainTemplate? spans with
    | some plain => addNode .other (Text.quote plain)
    | none => do addNode (.template (← resolveSpans p closed context spans)) text
  | .array element text => do addNode (.array (some (← resolve p closed context element))) text
  | .tuple elements text variadic => do
    if variadic then
      report (.variadicTuple text)
      addNode .other text
    else addNode (.tuple (← resolveAll p closed context elements)) text
  | .object members text =>
    addCell { node := { shape := .object, text }, properties := .ofMembers context members }
  | .union members text => do makeUnion (← resolveAll p closed context members) text
  | .intersection members _ => do intersect (← resolveAll p closed context members)
  | .reference name arguments text => do
    if context.parameters.contains name && arguments.isEmpty then addNode .other name
    else
      let types ← resolveAll p closed context arguments
      match p.lookup? context.unit name, types with
      | some id, [] => resolveDeclaration p closed id
      | none, [] =>
        report (.unresolvedReference name (p.unitName context.unit))
        addNode .other text
      | _, types => addNode (.instantiation types) text (some name)
termination_by e => (closed.length, sizeOf e)

/-- The types of several expressions. -/
def resolveAll (p : Project) (closed : List DeclarationId) (context : Context) :
    List TypeExpr → Resolving (List TypeId)
  | [] => return []
  | e :: rest => do
    let type ← resolve p closed context e
    return type :: (← resolveAll p closed context rest)
termination_by es => (closed.length, sizeOf es)

/-- The spans of a template with the types of its holes. -/
def resolveSpans (p : Project) (closed : List DeclarationId) (context : Context) :
    List (Span TypeExpr) → Resolving (List (Span TypeId))
  | [] => return []
  | .chunk t :: rest => return .chunk t :: (← resolveSpans p closed context rest)
  | .hole e :: rest => do
    let type ← resolve p closed context e
    return .hole type :: (← resolveSpans p closed context rest)
termination_by spans => (closed.length, sizeOf spans)

end

/-- The type of a declaration, all aliases being closed. -/
def declarationType (p : Project) (id : DeclarationId) : Resolving TypeId :=
  p.resolveDeclaration p.aliases id

/-- The type of a property. -/
def propertyType (p : Project) (id : PropertyId) : Resolving TypeId := do
  match (← get).resolution? id with
  | some (.done type) => return type
  | some (.pending context e) =>
    let type ← p.resolve p.aliases context e
    setType id type
    return type
  | none => addNode .other []

/-! ## Properties -/

/-- Properties whose types are still to be found. -/
def pendingProperties (context : Context) (members : List (Property TypeExpr)) :
    Resolving (List PropertyId) :=
  members.mapM fun m => addProperty { m with type := .pending context m.type }

/-- The properties whose names are neither among `names` nor repeated. -/
def withNewNames (s : Store) (names : List Text) : List PropertyId → List PropertyId
  | [] => []
  | id :: rest =>
    let name := s.propertyName id
    if names.contains name then withNewNames s names rest
    else id :: withNewNames s (name :: names) rest

/-- The properties of a type: those of an object shape are its members, those of
an interface its own and then those it inherits, where a name it has already
counts no more. An interface that is met again while its properties are being
found has only its own.

`idle` lists the interfaces whose bases may still be entered. -/
def propertiesIn (p : Project) (idle : List DeclarationId) (type : TypeId) :
    Resolving (List PropertyId) := do
  match ((← get).cell type).properties with
  | .listed ids => return ids
  | .ofMembers context members =>
    let ids ← pendingProperties context members
    setProperties type ids
    return ids
  | .ofInterface id =>
    match p.body? id with
    | some (.interface parameters bases members) =>
      let own ← pendingProperties { unit := id.unit, parameters } members
      if _h : id ∈ idle then
        let found ← bases.mapM fun base => do
          match p.lookup? id.unit base.name with
          | none =>
            report (.unresolvedBase base.name (p.unitName id.unit))
            return []
          | some target =>
            let baseType ← p.declarationType target
            match Shape.intersectionMembers? (← node baseType) with
            | some parts => return (← parts.mapM (propertiesIn p (idle.erase id))).flatten
            | none => propertiesIn p (idle.erase id) baseType
        let s ← get
        let ids := own ++ withNewNames s (own.map s.propertyName) found.flatten
        setProperties type ids
        return ids
      else
        setProperties type own
        return own
    | _ => return []
termination_by idle.length
decreasing_by
  all_goals
    have := List.length_erase_of_mem _h
    have := List.length_pos_of_mem _h
    omega

/-- The properties of a type. -/
def properties (p : Project) (type : TypeId) : Resolving (List PropertyId) :=
  p.propertiesIn p.interfaces type

end Project

end WireSchema
