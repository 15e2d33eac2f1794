import GraphSchema.Json.Path
import GraphSchema.Proofs.Translation

/-!
Where the schemas of nodes stand inside the schema of another one.

- `Json.at?` : the part of a value behind a path.
- `Translation.slots` : the places of the children of a node in its level.
- `Translation.emissions` : the places of all nodes that stand inside the level of a node, at any depth. A node
  that has a definition stands there as a reference, and nothing is inside it.
- `TypeGraph.references` : the places among them where compilation writes a reference.
-/

namespace GraphSchema

open Json (Path Segment)

namespace Json

/-- the part of a value behind a path -/
def at? (value : Json) : Path → Option Json
  | [] => some value
  | .key name :: rest => (value.get? name).bind (at? · rest)
  | .index i :: rest =>
    match value with
    | .arr items => items[i]?.bind (at? · rest)
    | _ => none
  | .unknown :: _ => none

end Json

namespace Translation

/-- places behind a keyword -/
def under (keyword : String) (slots : List (Path × ObjectId)) : List (Path × ObjectId) :=
  slots.map fun (path, id) => (.key keyword :: path, id)

/-- the places of the items of a list, the first of which has this index -/
def indexed (index : Nat) : List ObjectId → List (Path × ObjectId)
  | [] => []
  | id :: rest => ([.index index], id) :: indexed (index + 1) rest

section
variable (meaning : ObjectId → Option (Option Schema))

/-- whether a child is not dropped -/
def kept (id : ObjectId) : Bool :=
  match meaning id with
  | some none => false
  | _ => true

/-- the places of the members of a type that are not dropped, by their names -/
def memberSlots (props : List Property) : List (Path × ObjectId) :=
  props.filterMap fun p => (p.member?.filter (kept meaning)).map fun id => ([.key p.name], id)

/-- the places of the children of a node in its level -/
def slots (setting : Setting) (node : ObjectNode) : List (Path × ObjectId) :=
  match node.shape with
  | .system _ | .override _ | .generic .. => []
  | .nullable element => under "oneOf" (indexed 0 [element])
  | .array _ element => under "items" [([], element)]
  | .map _ key value =>
    if setting.graph.acceptsKey setting.options.dictionaryKeys key then under "additionalProperties" [([], value)]
    else []
  | .abstract implementations => under "oneOf" (indexed 0 (implementations.filter (kept meaning)))
  | .custom props _ => under "properties" (memberSlots meaning props)
  | .tuple elements => under "prefixItems" (indexed 0 elements)

end

/-- what stands at the place of a child: the child, and unless it has a definition, what stands inside it -/
def standing (setting : Setting) (inside : ObjectNode → List (Path × ObjectNode)) (id : ObjectId) :
    List (Path × ObjectNode) :=
  match setting.graph.get? id with
  | none => []
  | some node => ([], node) :: if node.kind.isDefined then [] else inside node

/-- the nodes that stand inside the level of a node, with their places -/
def emissions (setting : Setting) : Nat → ObjectNode → List (Path × ObjectNode)
  | 0, _ => []
  | fuel + 1, node =>
    (slots (child setting (expand setting fuel)) setting node).flatMap fun (front, id) =>
      (standing setting (emissions setting fuel) id).map fun (path, found) => (front ++ path, found)

end Translation

/-- the places in the schema of a node where compilation writes a reference -/
def TypeGraph.references (graph : TypeGraph) (options : CompileOptions) (node : ObjectNode) : List Path :=
  ((Translation.emissions { graph, options } options.maxDepth node).filter (·.2.kind.isDefined)).map (·.1)

end GraphSchema
