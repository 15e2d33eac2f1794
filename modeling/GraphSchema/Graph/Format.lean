import GraphSchema.Graph.Basic
import GraphSchema.Metadata.Format

/-!
Graphs as JSON. A node is one object: its identity and metadata, and the members of its shape, among them
`kind`. When a node is read, the members of the shape are put aside until all members are there, because
`kind` may stand behind them.
-/

namespace GraphSchema

open Reading (Source Result)
open Reading.Source
open Metadata (member)

def Primitive.read (source : Source) : Result Primitive :=
  source.choice (Primitive.all.map fun p => (p.name, p))

def Primitive.toJson (p : Primitive) : Json := .str p.name

def Nullability.read (source : Source) : Result Nullability :=
  source.choice (Nullability.all.map fun n => (n.name, n))

def Nullability.toJson (n : Nullability) : Json := .str n.name

def ObjectId.read (source : Source) : Result ObjectId :=
  ObjectId.mk <$> source.count

def ObjectId.toJson (id : ObjectId) : Json := .nat id.index

/-- a list of ids as JSON -/
def idsJson (ids : List ObjectId) : Json := .arr (ids.map ObjectId.toJson)

/-! ## Properties -/

namespace PropertyShape

/-- the two kinds of a property -/
inductive Kind where
  | override
  | custom

def kinds : List (String × Kind) := [("override", .override), ("custom", .custom)]

/-- the members of a property's shape read so far -/
structure Draft where
  schema : Option String := none
  member : Option ObjectId := none
  default : Option (Option String) := none

/-- a raw schema -/
def overrideForm : Form Draft PropertyShape where
  start := {}
  take draft name value := do
    if name = "schema" then return { draft with schema := ← once "schema" draft.schema value.text }
    else return draft
  finish draft := do return .override (← required "schema" draft.schema)

/-- a member of a type -/
def customForm : Form Draft PropertyShape where
  start := {}
  take draft name value := do
    if name = "member" then return { draft with member := ← once "member" draft.member (ObjectId.read value) }
    else if name = "default" then
      return { draft with default := ← once "default" draft.default (value.optional text) }
    else return draft
  finish draft := do return .custom (← required "member" draft.member) draft.default.join

def readKind : Kind → List (String × Json) → Result PropertyShape
  | .override => heldRecord overrideForm
  | .custom => heldRecord customForm

def members : PropertyShape → List (String × Json)
  | .override schema => [("kind", .str "override"), ("schema", .str schema)]
  | .custom id default =>
    [("kind", .str "custom"), ("member", id.toJson)] ++ member "default" (default.map .str)

end PropertyShape

namespace Property

/-- the members of a property read so far; those of its shape are put aside -/
structure Draft where
  name : Option String := none
  metadata : Option (Option Metadata) := none
  nullability : Option Nullability := none
  aside : List (String × Json) := []

def form : Form Draft Property where
  start := {}
  take draft name value := do
    if name = "name" then return { draft with name := ← once "name" draft.name value.text }
    else if name = "metadata" then
      return { draft with metadata := ← once "metadata" draft.metadata (value.optional Metadata.read) }
    else if name = "nullability" then
      return { draft with nullability := ← once "nullability" draft.nullability (Nullability.read value) }
    else return { draft with aside := draft.aside ++ [(name, ← value.raw)] }
  finish draft := do
    let name ← required "name" draft.name
    let shape ← tagged PropertyShape.kinds PropertyShape.readKind draft.aside
    return { name, metadata := draft.metadata.join, nullability := draft.nullability.getD .unknown, shape }

def read (source : Source) : Result Property :=
  source.record "struct PropertyNode" form

def toJson (p : Property) : Json :=
  .obj ([("name", .str p.name)]
    ++ member "metadata" (p.metadata.map Metadata.toJson)
    ++ [("nullability", p.nullability.toJson)]
    ++ p.shape.members)

end Property

/-! ## Nodes -/

namespace ObjectShape

/-- the members of a node's shape read so far -/
structure Draft where
  primitive : Option Primitive := none
  schema : Option String := none
  base : Option String := none
  element : Option ObjectId := none
  arguments : Option (List ObjectId) := none
  key : Option ObjectId := none
  value : Option ObjectId := none
  implementations : Option (List ObjectId) := none
  properties : Option (List Property) := none
  implements : Option (List ObjectId) := none
  elements : Option (List ObjectId) := none

namespace Draft

def takePrimitive (draft : Draft) (value : Source) : Result Draft := do
  return { draft with primitive := ← once "primitive" draft.primitive (Primitive.read value) }

def takeSchema (draft : Draft) (value : Source) : Result Draft := do
  return { draft with schema := ← once "schema" draft.schema value.text }

def takeBase (draft : Draft) (value : Source) : Result Draft := do
  return { draft with base := ← once "base" draft.base value.text }

def takeElement (draft : Draft) (value : Source) : Result Draft := do
  return { draft with element := ← once "element" draft.element (ObjectId.read value) }

def takeArguments (draft : Draft) (value : Source) : Result Draft := do
  return { draft with arguments := ← once "arguments" draft.arguments (value.list ObjectId.read) }

def takeKey (draft : Draft) (value : Source) : Result Draft := do
  return { draft with key := ← once "key" draft.key (ObjectId.read value) }

def takeValue (draft : Draft) (value : Source) : Result Draft := do
  return { draft with value := ← once "value" draft.value (ObjectId.read value) }

def takeImplementations (draft : Draft) (value : Source) : Result Draft := do
  return { draft with implementations := ← once "implementations" draft.implementations (value.list ObjectId.read) }

def takeProperties (draft : Draft) (value : Source) : Result Draft := do
  return { draft with properties := ← once "properties" draft.properties (value.list Property.read) }

def takeImplements (draft : Draft) (value : Source) : Result Draft := do
  return { draft with implements := ← once "implements" draft.implements (value.list ObjectId.read) }

def takeElements (draft : Draft) (value : Source) : Result Draft := do
  return { draft with elements := ← once "elements" draft.elements (value.list ObjectId.read) }

/-- takes in the members of some names and leaves the others out -/
def takeAmong (known : List (String × (Draft → Source → Result Draft))) (draft : Draft) (name : String)
    (value : Source) : Result Draft :=
  match List.lookup name known with
  | some take => take draft value
  | none => .ok draft

end Draft

open Draft

/-- the members that the shape of a kind has -/
def taken : ObjectKind → List (String × (Draft → Source → Result Draft))
  | .system => [("primitive", takePrimitive)]
  | .override => [("schema", takeSchema)]
  | .nullable => [("element", takeElement)]
  | .generic => [("base", takeBase), ("arguments", takeArguments)]
  | .map => [("base", takeBase), ("key", takeKey), ("value", takeValue)]
  | .array => [("base", takeBase), ("element", takeElement)]
  | .abstract => [("implementations", takeImplementations)]
  | .custom => [("properties", takeProperties), ("implements", takeImplements)]
  | .tuple => [("elements", takeElements)]

/-- The shape of a kind from its members. Only the lists of abstract and object types may be missing. -/
def finish (draft : Draft) : ObjectKind → Result ObjectShape
  | .system => do return .system (← required "primitive" draft.primitive)
  | .override => do return .override (← required "schema" draft.schema)
  | .nullable => do return .nullable (← required "element" draft.element)
  | .generic => do
    let base ← required "base" draft.base
    return .generic base (← required "arguments" draft.arguments)
  | .map => do
    let base ← required "base" draft.base
    let key ← required "key" draft.key
    return .map base key (← required "value" draft.value)
  | .array => do
    let base ← required "base" draft.base
    return .array base (← required "element" draft.element)
  | .abstract => .ok (.abstract (draft.implementations.getD []))
  | .custom => .ok (.custom (draft.properties.getD []) (draft.implements.getD []))
  | .tuple => do return .tuple (← required "elements" draft.elements)

/-- how the shape of a kind is read -/
def form (kind : ObjectKind) : Form Draft ObjectShape where
  start := {}
  take := takeAmong (taken kind)
  finish draft := finish draft kind

def kinds : List (String × ObjectKind) := ObjectKind.all.map fun kind => (kind.name, kind)

def readKind (kind : ObjectKind) (members : List (String × Json)) : Result ObjectShape :=
  heldRecord (form kind) members

/-- the members of a shape behind its kind -/
def content : ObjectShape → List (String × Json)
  | system primitive => [("primitive", primitive.toJson)]
  | override schema => [("schema", .str schema)]
  | nullable element => [("element", element.toJson)]
  | generic base arguments => [("base", .str base), ("arguments", idsJson arguments)]
  | map base key value => [("base", .str base), ("key", key.toJson), ("value", value.toJson)]
  | array base element => [("base", .str base), ("element", element.toJson)]
  | abstract implementations => [("implementations", idsJson implementations)]
  | custom properties implements =>
    ("properties", .arr (properties.map Property.toJson))
      :: member "implements" (if implements.isEmpty then none else some (idsJson implements))
  | tuple elements => [("elements", idsJson elements)]

def members (shape : ObjectShape) : List (String × Json) :=
  ("kind", .str shape.kind.name) :: shape.content

end ObjectShape

namespace ObjectNode

/-- the members of a node read so far; those of its shape are put aside -/
structure Draft where
  identity : Option String := none
  metadata : Option (Option Metadata) := none
  aside : List (String × Json) := []

def form : Form Draft ObjectNode where
  start := {}
  take draft name value := do
    if name = "identity" then return { draft with identity := ← once "identity" draft.identity value.text }
    else if name = "metadata" then
      return { draft with metadata := ← once "metadata" draft.metadata (value.optional Metadata.read) }
    else return { draft with aside := draft.aside ++ [(name, ← value.raw)] }
  finish draft := do
    let identity ← required "identity" draft.identity
    let shape ← tagged ObjectShape.kinds ObjectShape.readKind draft.aside
    return { identity, metadata := draft.metadata.join, shape }

def read (source : Source) : Result ObjectNode :=
  source.record "struct ObjectNode" form

def toJson (node : ObjectNode) : Json :=
  .obj ([("identity", .str node.identity)]
    ++ member "metadata" (node.metadata.map Metadata.toJson)
    ++ node.shape.members)

end ObjectNode

namespace TypeGraph

def read (source : Source) : Result TypeGraph :=
  TypeGraph.mk <$> source.list ObjectNode.read

def toJson (graph : TypeGraph) : Json := .arr (graph.objects.map ObjectNode.toJson)

end TypeGraph

end GraphSchema
