import GraphSchema.Metadata
import GraphSchema.Primitive

/-!
Type graphs: the nodes that describe the types of a program, independent of its language.

Nodes stand in a list and name each other by position (`ObjectId`), so that a type can mention itself.
-/

namespace GraphSchema

/-- the position of a node in its graph -/
structure ObjectId where
  index : Nat
  deriving Repr, DecidableEq, Inhabited

def ObjectId.text (id : ObjectId) : String :=
  "#" ++ toString id.index

/-- whether a member may be null, as far as that is known -/
inductive Nullability where
  | nullable
  | nonNullable
  /-- nothing is known; such a member counts as one that may not be null -/
  | unknown
  deriving Repr, DecidableEq, Inhabited

namespace Nullability

def all : List Nullability := [nullable, nonNullable, unknown]

def name : Nullability → String
  | nullable => "nullable"
  | nonNullable => "nonNullable"
  | unknown => "unknown"

def isRequired : Nullability → Bool
  | nullable => false
  | nonNullable | unknown => true

/-- the position among the three -/
def ordinal (n : Nullability) : UInt64 :=
  UInt64.ofNat (all.idxOf n)

end Nullability

inductive PropertyShape where
  /-- a raw schema in the place of a type -/
  | override (schema : String)
  /-- a member of some type, with a default value as it is written in the program -/
  | custom (member : ObjectId) (default : Option String)
  deriving Repr, DecidableEq, Inhabited

/-- a named member of an object type -/
structure Property where
  name : String
  metadata : Option Metadata := none
  nullability : Nullability := .unknown
  shape : PropertyShape
  deriving Inhabited

namespace Property

/-- a member of a type -/
def custom (name : String) (member : ObjectId) : Property :=
  { name, shape := .custom member none }

/-- a member with a schema of its own -/
def raw (name schema : String) : Property :=
  { name, shape := .override schema }

/-- Gives a member of a type a default value; a raw schema keeps what it says. -/
def withDefault (p : Property) (literal : String) : Property :=
  match p.shape with
  | .override _ => p
  | .custom member _ => { p with shape := .custom member (some literal) }

/-- the node behind the member, unless it has a schema of its own -/
def member? (p : Property) : Option ObjectId :=
  match p.shape with
  | .override _ => none
  | .custom member _ => some member

end Property

inductive ObjectKind where
  | system
  | override
  | nullable
  | generic
  | map
  | array
  | abstract
  | custom
  | tuple
  deriving Repr, DecidableEq, Inhabited

namespace ObjectKind

def all : List ObjectKind :=
  [system, override, nullable, generic, map, array, abstract, custom, tuple]

def name : ObjectKind → String
  | system => "system"
  | override => "override"
  | nullable => "nullable"
  | generic => "generic"
  | map => "map"
  | array => "array"
  | abstract => "abstract"
  | custom => "custom"
  | tuple => "tuple"

/-- the position among the kinds -/
def ordinal (kind : ObjectKind) : UInt64 :=
  UInt64.ofNat (all.idxOf kind)

/-- Whether the schema of a node of this kind stands among the definitions and is referred to. -/
def isDefined : ObjectKind → Bool
  | custom | abstract => true
  | system | override | nullable | generic | map | array | tuple => false

end ObjectKind

inductive ObjectShape where
  /-- a primitive type -/
  | system (primitive : Primitive)
  /-- a raw schema that replaces compilation -/
  | override (schema : String)
  | nullable (element : ObjectId)
  /-- a generic type of no known meaning; `base` names its open definition -/
  | generic (base : String) (arguments : List ObjectId)
  | map (base : String) (key value : ObjectId)
  | array (base : String) (element : ObjectId)
  /-- a type that only has implementations -/
  | abstract (implementations : List ObjectId)
  /-- an object type; `implements` names the abstract types that it belongs to -/
  | custom (properties : List Property) (implements : List ObjectId)
  | tuple (elements : List ObjectId)
  deriving Inhabited

namespace ObjectShape

def kind : ObjectShape → ObjectKind
  | system _ => .system
  | override _ => .override
  | nullable _ => .nullable
  | generic .. => .generic
  | map .. => .map
  | array .. => .array
  | abstract _ => .abstract
  | custom .. => .custom
  | tuple _ => .tuple

/-- the children that a node's content is made of, in declaration order: all but `implements` -/
def parts : ObjectShape → List ObjectId
  | system _ | override _ => []
  | nullable element | array _ element => [element]
  | generic _ arguments => arguments
  | map _ key value => [key, value]
  | abstract implementations => implementations
  | custom properties _ => properties.filterMap Property.member?
  | tuple elements => elements

/-- all children, in declaration order -/
def children : ObjectShape → List ObjectId
  | custom properties implements => (custom properties implements).parts ++ implements
  | shape => shape.parts

end ObjectShape

/-- one type -/
structure ObjectNode where
  /-- a stable name, under which the definition of the type stands -/
  identity : String
  metadata : Option Metadata := none
  shape : ObjectShape
  deriving Inhabited

namespace ObjectNode

def kind (node : ObjectNode) : ObjectKind := node.shape.kind

def children (node : ObjectNode) : List ObjectId := node.shape.children

end ObjectNode

/-- why a graph cannot be used -/
inductive GraphError where
  /-- a child that is not in the graph -/
  | danglingNode (owner : String) (id : ObjectId)
  | invalidRoot (root : ObjectId)
  | duplicateProperty (owner name : String)
  | duplicateImplementation (owner identity : String)
  | emptyIdentity (id : ObjectId) (kind : ObjectKind)
  | kindMismatch (identity : String) (expected found : ObjectKind)
  /-- too many levels below one another -/
  | depthExceeded (limit : Nat) (identity : String)
  deriving Repr, DecidableEq, Inhabited

def GraphError.message : GraphError → String
  | danglingNode owner id => "node `" ++ owner ++ "` references missing node " ++ id.text
  | invalidRoot root => "root node " ++ root.text ++ " is not in the graph"
  | duplicateProperty owner name =>
    "custom node `" ++ owner ++ "` declares property `" ++ name ++ "` more than once"
  | duplicateImplementation owner identity =>
    "abstract node `" ++ owner ++ "` lists implementation `" ++ identity ++ "` more than once"
  | emptyIdentity id kind => kind.name ++ " node " ++ id.text ++ " has an empty identity key"
  | kindMismatch identity expected found =>
    "node `" ++ identity ++ "` is a " ++ found.name ++ " node, expected " ++ expected.name
  | depthExceeded limit identity =>
    "recursion depth limit of " ++ toString limit ++ " exceeded while compiling `" ++ identity ++ "`"

/-- nodes by position -/
structure TypeGraph where
  objects : List ObjectNode := []
  deriving Inhabited

namespace TypeGraph

def empty : TypeGraph := {}

def size (graph : TypeGraph) : Nat := graph.objects.length

/-- whether an id names a node -/
def Contains (graph : TypeGraph) (id : ObjectId) : Prop := id.index < graph.size

instance (graph : TypeGraph) (id : ObjectId) : Decidable (graph.Contains id) :=
  inferInstanceAs (Decidable (id.index < graph.size))

/-- Appends a node; its id is the size of the graph before. -/
def add (graph : TypeGraph) (node : ObjectNode) : TypeGraph × ObjectId :=
  (⟨graph.objects ++ [node]⟩, ⟨graph.size⟩)

/-- the node behind an id, if there is one -/
def get? (graph : TypeGraph) (id : ObjectId) : Option ObjectNode :=
  graph.objects[id.index]?

/-- the node behind an id, or the error that there is none -/
def get (graph : TypeGraph) (id : ObjectId) : Except GraphError ObjectNode :=
  match graph.get? id with
  | some node => .ok node
  | none => .error (.danglingNode "<graph>" id)

/-- Appends a property to an object type. -/
def pushProperty (graph : TypeGraph) (owner : ObjectId) (property : Property) :
    Except GraphError TypeGraph := do
  let node ← graph.get owner
  match node.shape with
  | .custom properties implements =>
    let shape := .custom (properties ++ [property]) implements
    return ⟨graph.objects.set owner.index { node with shape }⟩
  | shape => .error (.kindMismatch node.identity .custom shape.kind)

/-- the nodes with their ids -/
def entries (graph : TypeGraph) : List (ObjectId × ObjectNode) :=
  graph.objects.zipIdx.map fun (node, i) => (⟨i⟩, node)

end TypeGraph

end GraphSchema
