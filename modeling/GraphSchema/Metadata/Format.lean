import GraphSchema.Metadata
import GraphSchema.Reading.Source

/-!
Metadata as JSON: an object of the members that say something, or when it is read, also an array of all
members in order.
-/

namespace GraphSchema

open Reading (Source Result)

namespace Metadata

/-- the members read so far -/
structure Draft where
  title : Option (Option String) := none
  description : Option (Option String) := none
  examples : Option (List Json) := none
  comment : Option (Option String) := none
  deprecated : Option Bool := none

namespace Draft

open Reading.Source

def takeTitle (draft : Draft) (value : Source) : Result Draft := do
  return { draft with title := ← once "title" draft.title (value.optional text) }

def takeDescription (draft : Draft) (value : Source) : Result Draft := do
  return { draft with description := ← once "description" draft.description (value.optional text) }

def takeExamples (draft : Draft) (value : Source) : Result Draft := do
  return { draft with examples := ← once "examples" draft.examples (value.list any) }

def takeComment (draft : Draft) (value : Source) : Result Draft := do
  return { draft with comment := ← once "comment" draft.comment (value.optional text) }

def takeDeprecated (draft : Draft) (value : Source) : Result Draft := do
  return { draft with deprecated := ← once "deprecated" draft.deprecated value.flag }

/-- Takes in a member. Members of other names are passed over. -/
def take (draft : Draft) (name : String) (value : Source) : Result Draft :=
  if name = "title" then draft.takeTitle value
  else if name = "description" then draft.takeDescription value
  else if name = "examples" then draft.takeExamples value
  else if name = "comment" then draft.takeComment value
  else if name = "deprecated" then draft.takeDeprecated value
  else do
    value.ignore
    return draft

/-- The record; members that did not come say nothing. -/
def finish (draft : Draft) : Metadata where
  title := draft.title.join
  description := draft.description.join
  examples := draft.examples.getD []
  comment := draft.comment.join
  deprecated := draft.deprecated.getD false

end Draft

/-- how metadata is read from an object -/
def form : Source.Form Draft Metadata where
  start := {}
  take := Draft.take
  finish draft := .ok draft.finish

/-- how metadata is read from an array -/
def columns : Source.Columns Draft Metadata where
  take := [Draft.takeTitle, Draft.takeDescription, Draft.takeExamples, Draft.takeComment, Draft.takeDeprecated]
  finish draft := .ok draft.finish

def read (source : Source) : Result Metadata :=
  source.recordOrRow "struct Metadata" form columns

/-- a member that is left out when there is no value -/
def member (name : String) (value : Option Json) : List (String × Json) :=
  (value.map (name, ·)).toList

/-- the members that say something -/
def toJson (m : Metadata) : Json :=
  .obj (member "title" (m.title.map .str)
    ++ member "description" (m.description.map .str)
    ++ member "examples" (if m.examples.isEmpty then none else some (.arr m.examples))
    ++ member "comment" (m.comment.map .str)
    ++ member "deprecated" (if m.deprecated then some (.bool true) else none))

end Metadata

end GraphSchema
