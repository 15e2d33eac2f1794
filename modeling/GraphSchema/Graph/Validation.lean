import GraphSchema.Graph.Basic
import GraphSchema.Text.Blank

/-!
What a graph has to satisfy before it is compiled.

- `TypeGraph.validate` reports the first node that breaks a rule, and of that node a missing child before an
  empty identity before a repetition.
-/

namespace GraphSchema

/-- The first text that equals an earlier one or one of those already seen. -/
def firstRepeated (seen : List String) : List String → Option String
  | [] => none
  | text :: rest => if seen.contains text then some text else firstRepeated (text :: seen) rest

namespace TypeGraph

/-- the identities of nodes, as long as all of them are in the graph -/
def identities? (graph : TypeGraph) (ids : List ObjectId) : Option (List String) :=
  ids.mapM fun id => (graph.get? id).map (·.identity)

/-- All children are in the graph. -/
def checkChildren (graph : TypeGraph) (node : ObjectNode) : Except GraphError Unit :=
  match node.children.find? fun child => graph.size ≤ child.index with
  | some child => .error (.danglingNode node.identity child)
  | none => .ok ()

/-- A type that is referred to has a name. -/
def checkIdentity (id : ObjectId) (node : ObjectNode) : Except GraphError Unit :=
  if node.kind.isDefined && Text.allBlank node.identity then .error (.emptyIdentity id node.kind)
  else .ok ()

/-- No two properties of an object type have one name. -/
def checkProperties (node : ObjectNode) : Except GraphError Unit :=
  match node.shape with
  | .custom properties _ =>
    match firstRepeated [] (properties.map (·.name)) with
    | some name => .error (.duplicateProperty node.identity name)
    | none => .ok ()
  | _ => .ok ()

/-- No two implementations of an abstract type have one identity. -/
def checkImplementations (graph : TypeGraph) (node : ObjectNode) : Except GraphError Unit :=
  match node.shape with
  | .abstract implementations =>
    match (graph.identities? implementations).bind (firstRepeated []) with
    | some identity => .error (.duplicateImplementation node.identity identity)
    | none => .ok ()
  | _ => .ok ()

/-- the rules for one node -/
def checkNode (graph : TypeGraph) (id : ObjectId) (node : ObjectNode) : Except GraphError Unit := do
  graph.checkChildren node
  checkIdentity id node
  checkProperties node
  graph.checkImplementations node

/-- the rules for all nodes -/
def validate (graph : TypeGraph) : Except GraphError Unit :=
  graph.entries.forM fun (id, node) => graph.checkNode id node

end TypeGraph

end GraphSchema
