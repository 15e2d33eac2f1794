import GraphSchema.Graph.Basic

/-!
Which object types implement which abstract types.

- `TypeGraph.scanImplementations` collects the declarations of a graph.
- `TypeGraph.linkImplementations` completes the lists of the abstract types from them. Of several
  implementations with one identity the first one stays.
-/

namespace GraphSchema

/-- identities of abstract types and the object types that implement them, in the order of the graph -/
structure Implementations where
  entries : List (String × ObjectId) := []

namespace Implementations

/-- the object types that implement an abstract type -/
def of (found : Implementations) (identity : String) : List ObjectId :=
  (found.entries.filter (·.1 == identity)).map (·.2)

end Implementations

namespace TypeGraph

/-- the identities of the abstract types that a node declares to implement -/
def declared (graph : TypeGraph) (node : ObjectNode) : List String :=
  match node.shape with
  | .custom _ implements =>
    (implements.filterMap graph.get?).filterMap fun target =>
      if target.kind = .abstract then some target.identity else none
  | _ => []

/-- all declarations: the abstract identity, the identity of the object type, and its id -/
def declarations (graph : TypeGraph) : List (String × String × ObjectId) :=
  graph.entries.flatMap fun (id, node) => (graph.declared node).map fun target => (target, node.identity, id)

/-- Of the declarations with equal identities on both sides, the first one. -/
def firstDeclarations (seen : List (String × String)) :
    List (String × String × ObjectId) → List (String × ObjectId)
  | [] => []
  | (target, identity, id) :: rest =>
    if seen.contains (target, identity) then firstDeclarations seen rest
    else (target, id) :: firstDeclarations ((target, identity) :: seen) rest

/-- the implementations that the object types of a graph declare -/
def scanImplementations (graph : TypeGraph) : Implementations :=
  ⟨firstDeclarations [] graph.declarations⟩

/-- Appends the ids that are not in a list yet. -/
def appendNew (ids : List ObjectId) (found : List ObjectId) : List ObjectId :=
  found.foldl (fun ids id => if ids.contains id then ids else ids ++ [id]) ids

/-- Drops an id when a node with its identity came before; ids outside the graph stay. -/
def keepFirst (graph : TypeGraph) (seen : List String) : List ObjectId → List ObjectId
  | [] => []
  | id :: rest =>
    match graph.get? id with
    | none => id :: keepFirst graph seen rest
    | some node =>
      if seen.contains node.identity then keepFirst graph seen rest
      else id :: keepFirst graph (node.identity :: seen) rest

/-- A node with its list of implementations completed. -/
def linkNode (graph : TypeGraph) (found : Implementations) (node : ObjectNode) : ObjectNode :=
  match node.shape with
  | .abstract implementations =>
    { node with shape := .abstract (graph.keepFirst [] (appendNew implementations (found.of node.identity))) }
  | _ => node

/-- Completes the implementations of every abstract type. -/
def linkImplementations (graph : TypeGraph) : TypeGraph :=
  ⟨graph.objects.map (graph.linkNode graph.scanImplementations)⟩

end TypeGraph

end GraphSchema
