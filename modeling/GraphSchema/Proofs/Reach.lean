import Mathlib.Logic.Relation
import GraphSchema.Compile.Shape
import GraphSchema.Proofs.Checks

/-!
The edges of a type graph that compilation follows, and the ways along them.

- `TypeGraph.followed` lists the children whose schemas a node's own schema is made of. The keys of a map, the
  arguments of a generic type and the abstract types that an object type implements are not among them.
- `TypeGraph.Reaches` is reachability along these edges.
- `TypeGraph.Inlines` is an edge to a node without a definition: its schema stands inside the other one.
-/

namespace GraphSchema

/-- whether the mode takes a map whose keys are not written as strings -/
def KeyMode.acceptsAnyKey : KeyMode → Bool
  | .loose | .silent => true
  | .strict | .skip => false

namespace TypeGraph

/-- whether a map with this key becomes an object of its values -/
def acceptsKey (graph : TypeGraph) (mode : KeyMode) (key : ObjectId) : Bool :=
  (graph.get? key).any Shape.hasStringKeys || mode.acceptsAnyKey

/-- the children that compilation goes to from a node -/
def followed (graph : TypeGraph) (mode : KeyMode) (node : ObjectNode) : List ObjectId :=
  match node.shape with
  | .system _ | .override _ | .generic .. => []
  | .nullable element | .array _ element => [element]
  | .map _ key value => if graph.acceptsKey mode key then [value] else []
  | .abstract implementations => implementations
  | .custom properties _ => properties.filterMap Property.member?
  | .tuple elements => elements

/-- an edge of compilation -/
def Follows (graph : TypeGraph) (mode : KeyMode) (a b : ObjectId) : Prop :=
  ∃ node, graph.get? a = some node ∧ b ∈ graph.followed mode node

/-- a way along edges of compilation, possibly empty -/
def Reaches (graph : TypeGraph) (mode : KeyMode) : ObjectId → ObjectId → Prop :=
  Relation.ReflTransGen (graph.Follows mode)

/-- an edge to a node that has no definition, so that its schema stands inside the other one -/
def Inlines (graph : TypeGraph) (mode : KeyMode) (a b : ObjectId) : Prop :=
  graph.Follows mode a b ∧ ∃ node, graph.get? b = some node ∧ node.kind.isDefined = false

/-- the names under which the types of a graph are defined, one for each type that has a definition -/
def definedNames (graph : TypeGraph) : List String :=
  (graph.objects.filter (·.kind.isDefined)).map (·.identity)

/-! ## Positions -/

theorem mem_objects {graph : TypeGraph} {id : ObjectId} {node : ObjectNode} (h : graph.get? id = some node) :
    node ∈ graph.objects :=
  List.mem_of_getElem? h

theorem get_eq_ok_iff {graph : TypeGraph} {id : ObjectId} {node : ObjectNode} :
    graph.get id = .ok node ↔ graph.get? id = some node := by
  unfold get
  cases graph.get? id <;> simp

/-- Where all defined types have different names, a name belongs to one position. -/
theorem eq_of_identity_eq {graph : TypeGraph} (hn : graph.definedNames.Nodup) {a b : ObjectId}
    {m n : ObjectNode} (ha : graph.get? a = some m) (hb : graph.get? b = some n)
    (hm : m.kind.isDefined = true) (hd : n.kind.isDefined = true) (he : m.identity = n.identity) : a = b := by
  obtain ⟨ia⟩ := a
  obtain ⟨ib⟩ := b
  have hp : graph.objects.Pairwise fun x y =>
      x.kind.isDefined = true → y.kind.isDefined = true → x.identity ≠ y.identity := by
    rw [definedNames, List.Nodup, List.pairwise_map, List.pairwise_filter] at hn
    exact hn.imp fun h hx hy => h hx hy
  obtain ⟨hia, rfl⟩ := List.getElem?_eq_some_iff.1 ha
  obtain ⟨hib, rfl⟩ := List.getElem?_eq_some_iff.1 hb
  rw [List.pairwise_iff_getElem] at hp
  rcases Nat.lt_trichotomy ia ib with hlt | rfl | hlt
  · exact absurd he (hp ia ib hia hib hlt hm hd)
  · rfl
  · exact absurd he.symm (hp ib ia hib hia hlt hd hm)

theorem acceptsKey_eq {graph : TypeGraph} {key : ObjectId} {keyNode : ObjectNode}
    (h : graph.get? key = some keyNode) (mode : KeyMode) :
    graph.acceptsKey mode key = (Shape.hasStringKeys keyNode || mode.acceptsAnyKey) := by
  rw [acceptsKey, h]
  rfl

/-! ## Edges of a graph that is in order -/

/-- Compilation goes to children only. -/
theorem followed_subset (graph : TypeGraph) (mode : KeyMode) (node : ObjectNode) :
    graph.followed mode node ⊆ node.children := by
  unfold followed ObjectNode.children ObjectShape.children
  cases node.shape <;> simp [ObjectShape.parts]
  case map => split_ifs <;> simp

/-- In a graph that is in order, all children are there. -/
theorem contains_of_mem_children {graph : TypeGraph} (hv : graph.validate = .ok ()) {id child : ObjectId}
    {node : ObjectNode} (h : graph.get? id = some node) (hc : child ∈ node.children) :
    graph.Contains child :=
  (validate_eq_ok_iff.1 hv id node h).children child (ObjectNode.mem_children_iff.1 hc)

/-- In a graph that is in order, the properties of an object type have different names. -/
theorem nodup_names {graph : TypeGraph} (hv : graph.validate = .ok ()) {id : ObjectId} {node : ObjectNode}
    (h : graph.get? id = some node) {props : List Property} {implements : List ObjectId}
    (hs : node.shape = .custom props implements) : (props.map (·.name)).Nodup :=
  (validate_eq_ok_iff.1 hv id node h).properties props implements hs

end TypeGraph

end GraphSchema
