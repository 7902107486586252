import WireSchema.Proofs.Steps
import WireSchema.Proofs.Project.Origin
/-!
# What the nodes of a store stand for

A chart says of each node of a store what it was made for. With a chart at hand,
each node can be checked by itself: its parts are nodes for the parts of what it
was made for, or those of the declarations that are named there.
-/

namespace WireSchema

/-- What each node and each property was made for: a property is a member of an
object shape or an interface. -/
structure Chart where
  types : Nat → Origin
  properties : Nat → Origin × Nat

namespace TypeNode

/-- The members of a union or of an intersection. -/
def members (n : TypeNode) : List TypeId :=
  match n.shape with
  | .union members => members
  | .intersection members => members
  | _ => []

end TypeNode

namespace Store

variable (s : Store)

/-- Types with the members of some in their place. -/
def opened (f : TypeNode → Option (List TypeId)) (types : List TypeId) : List TypeId :=
  types.flatMap fun t => (f (s.node t)).getD [t]

/-- The members of the intersection of types. -/
def joined (types : List TypeId) : List TypeId := s.opened Shape.intersectionMembers? types

/-- What may be chosen for each member of an intersection. -/
def options (types : List TypeId) : List (List TypeId) :=
  (s.joined types).map fun t => (Shape.unionMembers? (s.node t)).getD [t]

/-- One of the types is a union. -/
def anyUnion (types : List TypeId) : Bool := types.any fun t => (s.node t).isUnion

/-- The texts of types with a separator between them. -/
def texts (separator : Text) (types : List TypeId) : Text :=
  Text.join separator (types.map fun t => (s.node t).text)

/-- The types that are left to intersect after choices from unions, one choice
for each level. -/
def chosen (types : List TypeId) : List Nat → List TypeId
  | [] => types
  | i :: rest => chosen ((choices (s.options types))[i]?.getD []) rest

end Store

namespace Project

variable (p : Project) (s : Store) (c : Chart)

/-- The type of a part: that of the declaration it names, or else a node made for
this part. Inside the definition of an alias, names that lead back to the alias
may have nodes of their own. -/
inductive Denotes (root : Root) (steps : List Nat) (context : Context) (e : TypeExpr) (id : TypeId) : Prop where
  | declared {d : DeclarationId} : p.target? context e = some d → root ≠ .body d → s.declared? d = some id →
    Denotes root steps context e id
  | own : (∀ d, p.target? context e = some d → ∃ a, root = .body a ∧ p.Leads d a) →
    id.index < s.types.size → c.types id.index = .part root steps [] → Denotes root steps context e id

/-- The types of the parts of a part. -/
structure PartsDenote (root : Root) (steps : List Nat) (context : Context) (es : List TypeExpr)
    (types : List TypeId) : Prop where
  length : types.length = es.length
  each : ∀ (i : Nat) (e : TypeExpr) (t : TypeId), es[i]? = some e → types[i]? = some t →
    p.Denotes s c root (i :: steps) context e t

/-- The spans of a template, types in the places of its holes. -/
def fillHoles : List (Span TypeExpr) → List TypeId → List (Span TypeId)
  | [], _ => []
  | .chunk t :: rest, types => .chunk t :: fillHoles rest types
  | .hole _ :: _, [] => []
  | .hole _ :: rest, t :: types => .hole t :: fillHoles rest types

/-- The node for an expression that is no intersection, if its parts have such types. -/
def nodeOf (context : Context) (types : List TypeId) : TypeExpr → TypeNode
  | .keyword name => { shape := Resolving.keywordShape name, text := name }
  | .literal text => { shape := .other, text }
  | .verbatim text _ => { shape := .other, text }
  | .template spans text =>
    match Resolving.plainTemplate? spans with
    | some plain => { shape := .other, text := Text.quote plain }
    | none => { shape := .template (fillHoles spans types), text }
  | .array _ text => { shape := .array types.head?, text }
  | .tuple _ text variadic => { shape := if variadic then .other else .tuple types, text }
  | .object _ text => { shape := .object, text }
  | .union _ text => { shape := .union (s.opened Shape.anonymousUnion? types), text }
  | .intersection _ text => { shape := .intersection types, text }
  | .reference name arguments text =>
    if arguments.isEmpty then
      { shape := .other
        text :=
          if context.parameters.contains name then name
          else
            match p.lookup? context.unit name with
            | some d => ((p.declaration? d).map (·.name)).getD []
            | none => text }
    else { shape := .instantiation types, text, symbol := some name }

/-- The node of an intersection after choices: the union of those after one more
choice, or else the intersection of what was chosen. -/
def Crosses (root : Root) (steps choice : List Nat) (types : List TypeId) (id : TypeId) : Prop :=
  let left := s.chosen types choice
  if s.anyUnion (s.joined left) then
    ∃ variants : List TypeId, s.node id = { shape := .union variants, text := s.texts " | " variants } ∧
      variants.length = (choices (s.options left)).length ∧
      ∀ i t, variants[i]? = some t → t.index < id.index ∧ c.types t.index = .part root steps (choice ++ [i])
  else s.node id = { shape := .intersection (s.joined left), text := s.texts " & " (s.joined left) }

/-- The node is the one for a part. -/
def PartNode (root : Root) (steps choice : List Nat) (id : TypeId) : Prop :=
  ∃ context e types, p.partType? root steps = some (context, e) ∧
    p.PartsDenote s c root steps context e.parts types ∧ (∀ t ∈ types, t.index < id.index) ∧
    match e with
    | .intersection _ _ => Crosses s c root steps choice types id
    | e => choice = [] ∧ s.node id = p.nodeOf s context types e

/-- The node is the one of an interface or an enumeration. -/
def DeclarationNode (d : DeclarationId) (id : TypeId) : Prop :=
  ∃ declaration, p.declaration? d = some declaration ∧
    match declaration.body with
    | .interface parameters _ _ =>
      s.node id =
        { shape := .object, text := Resolving.interfaceText declaration.name parameters
          symbol := some declaration.name }
    | .enumeration members =>
      ∃ values : List TypeId,
        s.node id = { shape := .union values, text := declaration.name, symbol := some declaration.name } ∧
          values.length = members.length ∧
          ∀ i t, values[i]? = some t → t.index < id.index ∧ c.types t.index = .value d i
    | .typeAlias _ _ => False

/-- The node is the one of a member of an enumeration. -/
def ValueNode (d : DeclarationId) (i : Nat) (id : TypeId) : Prop :=
  ∃ declaration members m, p.declaration? d = some declaration ∧ declaration.body = .enumeration members ∧
    members[i]? = some m ∧
    s.node id = { shape := .other, text := m.value.getD (declaration.name ++ "." ++ m.name) }

/-- The node is the one that the chart says. -/
def NodeOk (id : TypeId) : Prop :=
  match c.types id.index with
  | .declaration d => p.DeclarationNode s c d id
  | .value d i => p.ValueNode s d i id
  | .part root steps choice => p.PartNode s c root steps choice id

/-- The type of a declaration, if those that were asked for earlier are `earlier`. -/
def Entry (earlier : List (DeclarationId × TypeId)) (d : DeclarationId) (id : TypeId) : Prop :=
  id.index < s.types.size ∧ earlier.lookup d = none ∧
    match p.body? d with
    | some (.typeAlias parameters e) =>
      (∃ other, p.target? { unit := d.unit, parameters } e = some other ∧ other ≠ d ∧
        earlier.lookup other = some id) ∨
      ((∀ other, p.target? { unit := d.unit, parameters } e = some other → p.Leads other d) ∧
        c.types id.index = .part (.body d) [] [])
    | some _ => c.types id.index = .declaration d
    | none => False

/-- The types of the declarations are theirs. -/
def Entries : List (DeclarationId × TypeId) → Prop
  | [] => True
  | (d, id) :: earlier => p.Entry s c earlier d id ∧ Entries earlier

/-! ## Properties -/

mutual

/-- A member of one of the interfaces and object shapes that a type is made of,
with the context it stands in. -/
inductive HasMember : Context → TypeExpr → Context → Property TypeExpr → Prop where
  | object {context : Context} {members : List (Property TypeExpr)} {text : Text} {m : Property TypeExpr} :
    m ∈ members → HasMember context (.object members text) context m
  | union {context context' : Context} {es : List TypeExpr} {text : Text} {e : TypeExpr} {m : Property TypeExpr} :
    e ∈ es → HasMember context e context' m → HasMember context (.union es text) context' m
  | intersection {context context' : Context} {es : List TypeExpr} {text : Text} {e : TypeExpr}
      {m : Property TypeExpr} :
    e ∈ es → HasMember context e context' m → HasMember context (.intersection es text) context' m
  | named {context context' : Context} {e : TypeExpr} {d : DeclarationId} {m : Property TypeExpr} :
    p.target? context e = some d → DeclaresMember d context' m → HasMember context e context' m

/-- A member of one of the interfaces and object shapes that a declaration is
made of. -/
inductive DeclaresMember : DeclarationId → Context → Property TypeExpr → Prop where
  | own {d : DeclarationId} {parameters : List Text} {bases : List Base} {members : List (Property TypeExpr)}
      {m : Property TypeExpr} :
    p.body? d = some (.interface parameters bases members) → m ∈ members →
    DeclaresMember d { unit := d.unit, parameters } m
  | inherited {d d' : DeclarationId} {parameters : List Text} {bases : List Base}
      {members : List (Property TypeExpr)} {base : Base} {context : Context} {m : Property TypeExpr} :
    p.body? d = some (.interface parameters bases members) → base ∈ bases →
    p.lookup? d.unit base.name = some d' → DeclaresMember d' context m → DeclaresMember d context m
  | aliased {d : DeclarationId} {parameters : List Text} {e : TypeExpr} {context : Context}
      {m : Property TypeExpr} :
    p.body? d = some (.typeAlias parameters e) → HasMember { unit := d.unit, parameters } e context m →
    DeclaresMember d context m

end

/-- What a node was made for has the member. -/
def OriginHas (o : Origin) (context : Context) (m : Property TypeExpr) : Prop :=
  match o with
  | .declaration d => p.DeclaresMember d context m
  | .value _ _ => False
  | .part root steps _ => ∃ context' e, p.partType? root steps = some (context', e) ∧ p.HasMember context' e context m

/-- The member that a property was made for. -/
def memberAt? (place : Origin × Nat) : Option (Context × Property TypeExpr) :=
  (p.membersOf? place.1).bind fun (context, members) => members[place.2]?.map (context, ·)

/-- The property is the member that the chart says, and its type, once it is
found, is that of the member. -/
def PropertyOk (q : PropertyId) : Prop :=
  ∃ context m resolution, p.memberAt? (c.properties q.index) = some (context, m) ∧
    s.property? q = some { m with type := resolution } ∧
    (resolution = .pending context m.type ∨ ∃ t, resolution = .done t ∧
      p.Denotes s c (.member (c.properties q.index).1 (c.properties q.index).2) [] context m.type t)

/-- The properties of the origin, its own members first. -/
def Lists (o : Origin) (ids : List PropertyId) : Prop :=
  (∀ q ∈ ids, q.index < s.properties.size) ∧
    match p.membersOf? o with
    | none => ids = []
    | some (_, members) =>
      ∃ own others, ids = own ++ others ∧ own.length = members.length ∧
        (∀ k q, own[k]? = some q → c.properties q.index = (o, k)) ∧
        match o with
        | .declaration d =>
          ∀ q ∈ others, ∃ context m, p.memberAt? (c.properties q.index) = some (context, m) ∧
            p.DeclaresMember d context m
        | _ => others = []

/-- The properties of the node are those of its origin, or are still to be found. -/
def ListingOk (id : TypeId) : Prop :=
  match (s.cell id).properties with
  | .listed ids => p.Lists s c (c.types id.index) ids
  | .ofMembers context members =>
    p.membersOf? (c.types id.index) = some (context, members) ∧ ∀ d, c.types id.index ≠ .declaration d
  | .ofInterface d =>
    c.types id.index = .declaration d ∧ ∃ parameters bases members,
      p.body? d = some (.interface parameters bases members)

/-- The chart fits the store. -/
structure Charted : Prop where
  nodes : ∀ id : TypeId, id.index < s.types.size → p.NodeOk s c id
  below : ∀ id : TypeId, id.index < s.types.size → ∀ t ∈ (s.node id).members, t.index < id.index
  /-- An intersection is one of types that are neither unions nor intersections. -/
  joined : ∀ id ts, Shape.intersectionMembers? (s.node id) = some ts →
    ∀ t ∈ ts, (s.node t).isUnion = false ∧ Shape.intersectionMembers? (s.node t) = none
  /-- What members of unions and intersections have, the whole has. -/
  has : ∀ id : TypeId, id.index < s.types.size → ∀ t ∈ (s.node id).members, ∀ context m,
    p.OriginHas (c.types t.index) context m → p.OriginHas (c.types id.index) context m
  entries : p.Entries s c s.declared
  listings : ∀ id : TypeId, id.index < s.types.size → p.ListingOk s c id
  properties : ∀ q : PropertyId, q.index < s.properties.size → p.PropertyOk s c q

end Project

end WireSchema
