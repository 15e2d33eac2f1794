import GraphSchema.Compile.Walk

/-!
From nodes to schemas.

- `Shape.layer` compiles one node, given a way to compile its children.
- `Shape.object` adds the table of definitions: an object type or an abstract type is compiled once, and all
  others refer to it.
- `Shape.shape` ties the two by recursion on the number of levels that are left.

No schema comes out of a map that the mode drops, nor of a node that cannot do without it.
-/

namespace GraphSchema.Shape

/-- how a node is compiled: to a schema, or to none if the mode drops it -/
abbrev Compiler (ν : Type) := ν → WalkM (Option Schema)

/-- A default value: what its text reads as, and else the text. -/
def defaultValue (literal : String) : Json :=
  match Json.read literal with
  | .ok value => value
  | .error _ => .str literal

/-- The schemas of the elements of a tuple; one that is dropped drops them all. -/
def elements (compile : Compiler ObjectId) : List ObjectId → WalkM (Option (List Json))
  | [] => return some []
  | id :: rest => do
    match ← compile id with
    | none => return none
    | some schema =>
      match ← elements compile rest with
      | none => return none
      | some schemas => return some (schema.toJson :: schemas)

/-- The schemas of implementations; one that is dropped is left out. -/
def arms (compile : Compiler ObjectId) : List ObjectId → WalkM (List Json)
  | [] => return []
  | id :: rest => do
    let schema ← compile id
    let schemas ← arms compile rest
    return (schema.map Schema.toJson).toList ++ schemas

/-- An abstract type is an object, and one of its implementations if it has any. -/
def union (compile : Compiler ObjectId) (implementations : List ObjectId) : WalkM Schema := do
  let schemas ← arms compile implementations
  let base := Schema.ofType "object"
  return if schemas.isEmpty then base else base.set "oneOf" (.arr schemas)

/-- The schema of a property. A raw schema stands as it is; a member gets what the property says about it and
its default value. -/
def property (compile : Compiler ObjectId) (owner : String) (p : Property) : WalkM (Option Schema) :=
  match p.shape with
  | .override fragment =>
    match Schema.ofFragment fragment with
    | .ok schema => return some schema
    | .error error =>
      some <$> Walk.unsupported (owner ++ "." ++ p.name)
        ("override for property `" ++ p.name ++ "`: " ++ error.message)
  | .custom member default => do
    match ← compile member with
    | none => return none
    | some schema =>
      let schema := schema.annotate p.metadata
      return some (match default with
        | some literal => schema.set "default" (defaultValue literal)
        | none => schema)

/-- the properties of an object type that are not dropped, with their schemas -/
def properties (compile : Compiler ObjectId) (owner : String) :
    List Property → WalkM (List (Property × Schema))
  | [] => return []
  | p :: rest => do
    let schema ← property compile owner p
    let others ← properties compile owner rest
    return (schema.map (p, ·)).toList ++ others

/-- The schema of an object type with these properties. -/
def objectSchema (compiled : List (Property × Schema)) : Schema :=
  let table := Members.ofList (compiled.map fun (p, schema) => (p.name, schema.toJson))
  let required := (compiled.filter (·.1.nullability.isRequired)).map (·.1.name)
  let base := (Schema.ofType "object").set "properties" (.obj table)
  if required.isEmpty then base else base.set "required" (.arr (required.map .str))

/-- The schema of a tuple with these elements. -/
def tupleSchema (items : List Json) : Schema :=
  (((Schema.ofType "array").set "prefixItems" (.arr items)).set "minItems" (.nat items.length)).set
    "maxItems" (.nat items.length)

/-- The schema of a value that may be null. -/
def nullableSchema (inner : Schema) : Schema :=
  Schema.empty.set "oneOf" (.arr [inner.toJson, (Schema.ofType "null").toJson])

def arraySchema (items : Schema) : Schema :=
  (Schema.ofType "array").set "items" items.toJson

def mapSchema (values : Schema) : Schema :=
  (Schema.ofType "object").set "additionalProperties" values.toJson

/-- Whether a node is a primitive whose values are written as strings. -/
def hasStringKeys (key : ObjectNode) : Bool :=
  match key.shape with
  | .system primitive => primitive.isStringLike
  | _ => false

/-- the note on the keys of a map that is accepted all the same -/
def keyComment (map key : ObjectNode) : String :=
  "keys of `" ++ map.identity ++ "` are `" ++ key.identity ++ "` values and must be stringifiable"

/-- the message of the marker for a map that is refused for its keys -/
def keyRefusal (map key : ObjectNode) : String :=
  "dictionary key type `" ++ key.identity ++ "` of `" ++ map.identity ++ "` is not string-like"

/-- A map is an object with further members of one schema. What becomes of keys that are not written as
strings, the mode decides. -/
def map (setting : Setting) (compile : Compiler ObjectId) (node : ObjectNode) (key value : ObjectId) :
    WalkM (Option Schema) := do
  let keyNode ← Walk.node setting key
  let values : WalkM (Option Schema) := (·.map mapSchema) <$> compile value
  if hasStringKeys keyNode then values
  else
    match setting.options.dictionaryKeys with
    | .loose => (·.map fun schema => schema.comment (keyComment node keyNode)) <$> values
    | .strict => some <$> Walk.unsupported node.identity (keyRefusal node keyNode)
    | .silent => values
    | .skip => return none

/-- the message on a generic type -/
def genericMessage (identity base : String) (arguments : Nat) : String :=
  "could not resolve generic `" ++ identity ++ "` (definition `" ++ base ++ "`, " ++ toString arguments
    ++ " type argument(s)); compiled as an opaque object"

/-- the message on a raw schema that cannot be read -/
def overrideMessage (identity : String) (error : FragmentError) : String :=
  "override for `" ++ identity ++ "`: " ++ error.message

/-- the structural keywords of one node, given a way to compile its children -/
def layer (setting : Setting) (compile : Compiler ObjectId) (node : ObjectNode) : WalkM (Option Schema) :=
  match node.shape with
  | .system primitive => return some primitive.schema
  | .override fragment =>
    match Schema.ofFragment fragment with
    | .ok schema => return some schema
    | .error error => some <$> Walk.unsupported node.identity (overrideMessage node.identity error)
  | .nullable element => (·.map nullableSchema) <$> compile element
  | .array _ element => (·.map arraySchema) <$> compile element
  | .map _ key value => map setting compile node key value
  | .generic base arguments => do
    let message := genericMessage node.identity base arguments.length
    Walk.note node.identity message
    return some ((Schema.ofType "object").comment message)
  | .abstract implementations => some <$> union compile implementations
  | .custom props _ => do
    let compiled ← properties compile node.identity props
    return some (objectSchema compiled)
  | .tuple ids => (·.map tupleSchema) <$> elements compile ids

/-- a node's schema with what the node says about itself -/
def annotated (shape : Compiler ObjectNode) (node : ObjectNode) : WalkM (Option Schema) :=
  (·.map (·.annotate node.metadata)) <$> shape node

/-- The schema that stands among the definitions for a node. -/
def definition (shape : Compiler ObjectNode) (node : ObjectNode) : WalkM Schema := do
  match ← annotated shape node with
  | some schema => return schema
  | none => Walk.unsupported node.identity ("`" ++ node.identity ++ "` produced no schema")

/-- A reference to a node that has a definition. The first one compiles the node; the key is reserved before
that, and while it is, the node refers to itself. -/
def reference (setting : Setting) (shape : Compiler ObjectNode) (node : ObjectNode) : WalkM Schema := do
  if setting.rootIdentity = some node.identity then return Schema.ofReference "#"
  else
    let found := Schema.ofReference (Reference.pointer node.identity)
    let walk ← get
    match walk.definitions.reserve node.identity with
    | (false, _) => return found
    | (true, definitions) =>
      set { walk with definitions }
      let schema ← definition shape node
      modify fun walk => { walk with definitions := walk.definitions.fill node.identity schema.toJson }
      return found

/-- the schema of the node behind an id, given a way to compile shapes -/
def object (setting : Setting) (shape : Compiler ObjectNode) (id : ObjectId) : WalkM (Option Schema) := do
  let node ← Walk.node setting id
  if node.kind.isDefined then some <$> reference setting shape node
  else annotated shape node

/-- the structural keywords of a node, with so many levels left -/
def shape (setting : Setting) : Nat → Compiler ObjectNode
  | 0, node => throw (.depthExceeded setting.options.maxDepth node.identity)
  | room + 1, node => Walk.deeper (layer setting (object setting (shape setting room)) node)

/-- the levels that a walk has left -/
def room (setting : Setting) (walk : Walk) : Nat :=
  setting.options.maxDepth - walk.depth

/-- Compiles the node behind an id from the present state of a walk. -/
def compileObject (setting : Setting) (id : ObjectId) : WalkM (Option Schema) := do
  let walk ← get
  object setting (shape setting (room setting walk)) id

/-- Compiles a property from the present state of a walk. -/
def compileProperty (setting : Setting) (owner : String) (p : Property) : WalkM (Option Schema) := do
  let walk ← get
  property (object setting (shape setting (room setting walk))) owner p

/-- Compiles a list of implementations from the present state of a walk. -/
def compileUnion (setting : Setting) (implementations : List ObjectId) : WalkM Schema := do
  let walk ← get
  union (object setting (shape setting (room setting walk))) implementations

end GraphSchema.Shape
