import GraphSchema.Compile.Request
import GraphSchema.Compile.Shape
import GraphSchema.Graph.Validation

/-!
Documents: the schema of a root, the envelope around it and the definitions it needs.

- `assemble` puts the parts in order: the dialect, the id, the keywords of the root, the definitions.
- `build` compiles a graph from a root.
-/

namespace GraphSchema

/-- The definitions that a schema carries itself. -/
def Schema.carried (schema : Schema) : Members Json :=
  ((Members.get? schema.members Reference.definitionsKeyword).bind Json.members?).getD []

/-- The keywords of a schema, apart from those that the envelope of a document writes. -/
def Schema.body (schema : Schema) : Members Json :=
  schema.members.filter fun (key, _) =>
    key != "$schema" && key != "$id" && key != Reference.definitionsKeyword

/-- Carried definitions keep their keys; the others come to them. -/
def joinDefinitions (carried found : Members Json) : Members Json :=
  found.foldl (fun acc (key, schema) =>
    if Members.contains acc key then acc else Members.insert acc key schema) carried

/-- The members of a document. -/
def assemble (dialect : String) (id : Option String) (root : Schema) (found : Members Json) : Members Json :=
  let head := Metadata.insertSome [("$schema", .str dialect)] "$id" (id.map .str)
  let document := Members.insertAll head root.body
  let definitions := joinDefinitions root.carried found
  if definitions.isEmpty then document
  else Members.insert document Reference.definitionsKeyword (.obj (Members.sortedByKey definitions))

/-- a document and what came with it -/
structure CompiledSchema where
  document : Json
  fileName : Option String := none
  diagnostics : List Diagnostic := []

namespace CompiledSchema

/-- the number of definitions in the document -/
def definitions (compiled : CompiledSchema) : Nat :=
  (((compiled.document.get? Reference.definitionsKeyword).bind Json.members?).map List.length).getD 0

end CompiledSchema

/-- what the request says laid over what the root says -/
def rootMetadata (root : ObjectNode) (request : RootRequest) : Option Metadata :=
  match root.metadata, request.metadata with
  | some own, some requested => some (own.merged requested)
  | own, requested => requested <|> own

/-- The schema of the root itself. If the mode drops it, a marker stands for it. -/
def compileRoot (setting : Setting) (root : ObjectNode) : WalkM Schema := do
  match ← Shape.shape setting setting.options.maxDepth root with
  | some schema => return schema
  | none =>
    Walk.unsupported root.identity ("root `" ++ root.identity ++ "` was dropped by the dictionary-key policy")

/-- how the walk from a root goes: references to a root that has a definition point to the document -/
def rootSetting (graph : TypeGraph) (options : CompileOptions) (root : ObjectNode) : Setting where
  graph
  options
  rootIdentity := if root.kind.isDefined then some root.identity else none

/-- Compiles the root of a request to a document. -/
def build (graph : TypeGraph) (request : RootRequest) (options : CompileOptions) :
    Except GraphError CompiledSchema := do
  graph.validate
  match graph.get? request.root with
  | none => .error (.invalidRoot request.root)
  | some root =>
    let (result, walk) := Walk.run (compileRoot (rootSetting graph options root) root) {}
    let schema ← result
    let annotated := schema.annotate (rootMetadata root request)
    return {
      document := .obj (assemble options.dialect request.id annotated walk.definitions.sorted)
      fileName := request.fileName
      diagnostics := walk.diagnostics }

end GraphSchema
