import GraphSchema.Compile.Options
import GraphSchema.Graph.Format
import GraphSchema.Graph.Implementations

/-!
What to compile, and graph documents: a graph, the request for it and settings in one text.
-/

namespace GraphSchema

open Reading (Source Result)
open Reading.Source
open Metadata (member)

structure RootRequest where
  root : ObjectId
  /-- the `$id` of the document -/
  id : Option String := none
  /-- a name for the file, handed through -/
  fileName : Option String := none
  /-- what is said on top of the metadata of the root -/
  metadata : Option Metadata := none
  deriving Inhabited

structure GraphDocument where
  request : RootRequest
  options : Option CompileOptions := none
  objects : TypeGraph
  deriving Inhabited

/-! ## Settings as JSON -/

def KeyMode.read (source : Source) : Result KeyMode :=
  source.choice KeyMode.named

def KeyMode.toJson (mode : KeyMode) : Json := .str mode.name

namespace CompileOptions

/-- the settings read so far -/
structure Draft where
  dialect : Option String := none
  dictionaryKeys : Option KeyMode := none
  maxDepth : Option Nat := none

namespace Draft

def takeDialect (draft : Draft) (value : Source) : Result Draft := do
  return { draft with dialect := ← once "dialect" draft.dialect value.text }

def takeDictionaryKeys (draft : Draft) (value : Source) : Result Draft := do
  return { draft with dictionaryKeys := ← once "dictionaryKeys" draft.dictionaryKeys (KeyMode.read value) }

def takeMaxDepth (draft : Draft) (value : Source) : Result Draft := do
  return { draft with maxDepth := ← once "maxDepth" draft.maxDepth value.count }

/-- Takes in a member. Members of other names are passed over. -/
def take (draft : Draft) (name : String) (value : Source) : Result Draft :=
  if name = "dialect" then draft.takeDialect value
  else if name = "dictionaryKeys" then draft.takeDictionaryKeys value
  else if name = "maxDepth" then draft.takeMaxDepth value
  else do
    value.ignore
    return draft

/-- The settings; what did not come has its usual value. -/
def finish (draft : Draft) : CompileOptions :=
  let usual : CompileOptions := {}
  { dialect := draft.dialect.getD usual.dialect
    dictionaryKeys := draft.dictionaryKeys.getD usual.dictionaryKeys
    maxDepth := draft.maxDepth.getD usual.maxDepth }

end Draft

def form : Form Draft CompileOptions where
  start := {}
  take := Draft.take
  finish draft := .ok draft.finish

def columns : Columns Draft CompileOptions where
  take := [Draft.takeDialect, Draft.takeDictionaryKeys, Draft.takeMaxDepth]
  finish draft := .ok draft.finish

def read (source : Source) : Result CompileOptions :=
  source.recordOrRow "struct CompileOptions" form columns

def toJson (options : CompileOptions) : Json :=
  .obj [("dialect", .str options.dialect),
    ("dictionaryKeys", options.dictionaryKeys.toJson),
    ("maxDepth", .nat options.maxDepth)]

end CompileOptions

/-! ## Requests as JSON -/

namespace RootRequest

/-- the members of a request read so far -/
structure Draft where
  root : Option ObjectId := none
  id : Option (Option String) := none
  fileName : Option (Option String) := none
  metadata : Option (Option Metadata) := none

namespace Draft

def takeRoot (draft : Draft) (value : Source) : Result Draft := do
  return { draft with root := ← once "root" draft.root (ObjectId.read value) }

def takeId (draft : Draft) (value : Source) : Result Draft := do
  return { draft with id := ← once "id" draft.id (value.optional text) }

def takeFileName (draft : Draft) (value : Source) : Result Draft := do
  return { draft with fileName := ← once "fileName" draft.fileName (value.optional text) }

def takeMetadata (draft : Draft) (value : Source) : Result Draft := do
  return { draft with metadata := ← once "metadata" draft.metadata (value.optional Metadata.read) }

/-- Takes in a member. Members of other names are passed over. -/
def take (draft : Draft) (name : String) (value : Source) : Result Draft :=
  if name = "root" then draft.takeRoot value
  else if name = "id" then draft.takeId value
  else if name = "fileName" then draft.takeFileName value
  else if name = "metadata" then draft.takeMetadata value
  else do
    value.ignore
    return draft

/-- The request for a root. -/
def finish (draft : Draft) (root : ObjectId) : RootRequest where
  root
  id := draft.id.join
  fileName := draft.fileName.join
  metadata := draft.metadata.join

end Draft

def form : Form Draft RootRequest where
  start := {}
  take := Draft.take
  finish draft := do return draft.finish (← required "root" draft.root)

/-- In an array the root is the first item, so only an empty array lacks it. -/
def columns : Columns Draft RootRequest where
  take := [Draft.takeRoot, Draft.takeId, Draft.takeFileName, Draft.takeMetadata]
  finish draft :=
    match draft.root with
    | some root => .ok (draft.finish root)
    | none => .error (.ofRecord (.invalidLength 0 "struct RootRequest with 4 elements"))

def read (source : Source) : Result RootRequest :=
  source.recordOrRow "struct RootRequest" form columns

def members (request : RootRequest) : List (String × Json) :=
  [("root", request.root.toJson)]
    ++ member "id" (request.id.map .str)
    ++ member "fileName" (request.fileName.map .str)
    ++ member "metadata" (request.metadata.map Metadata.toJson)

def toJson (request : RootRequest) : Json := .obj request.members

end RootRequest

/-! ## Documents as JSON -/

namespace GraphDocument

/-- the members of a document read so far; those of its request are put aside -/
structure Draft where
  options : Option (Option CompileOptions) := none
  objects : Option TypeGraph := none
  aside : List (String × Json) := []

def form : Form Draft GraphDocument where
  start := {}
  take draft name value := do
    if name = "options" then
      return { draft with options := ← once "options" draft.options (value.optional CompileOptions.read) }
    else if name = "objects" then
      return { draft with objects := ← once "objects" draft.objects (TypeGraph.read value) }
    else return { draft with aside := draft.aside ++ [(name, ← value.raw)] }
  finish draft := do
    let objects ← required "objects" draft.objects
    let request ← heldRecord RootRequest.form draft.aside
    return { request, options := draft.options.join, objects }

def read (source : Source) : Result GraphDocument :=
  source.record "struct GraphDocument" form

/-- Reads the text of a document. -/
def ofText (text : String) : Result GraphDocument :=
  Reading.readText read text

def toJson (document : GraphDocument) : Json :=
  .obj (document.request.members
    ++ member "options" (document.options.map CompileOptions.toJson)
    ++ [("objects", document.objects.toJson)])

/-- The document with the implementations of its abstract types completed. -/
def link (document : GraphDocument) : GraphDocument :=
  { document with objects := document.objects.linkImplementations }

end GraphDocument

end GraphSchema
