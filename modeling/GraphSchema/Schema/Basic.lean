import GraphSchema.Json.Reader
import GraphSchema.Metadata

/-!
Schemas under construction: the members of a JSON Schema object.

- `Schema.ofJson?` and `Schema.ofFragment` take a finished schema in, a boolean one as the equivalent object.
- `Schema.unsupported` is the marker that stands where a shape cannot be expressed.
-/

namespace GraphSchema

/-- the members of a schema object -/
structure Schema where
  members : Members Json := []

/-- why a text is no schema -/
inductive FragmentError where
  | malformed (fault : Json.Fault)
  | notSchema (found : Json)

def FragmentError.message : FragmentError → String
  | .malformed fault => "invalid schema fragment: " ++ fault.message
  | .notSchema found => "schema fragment must be an object or boolean, found `" ++ found.compact ++ "`"

namespace Schema

/-- the keyword of a marker's message -/
def unsupportedKeyword : String := "x-unsupported"

def empty : Schema := {}

/-- Writes a keyword. -/
def set (schema : Schema) (keyword : String) (value : Json) : Schema :=
  ⟨Members.insert schema.members keyword value⟩

/-- a schema that names a type -/
def ofType (type : String) : Schema :=
  empty.set "type" (.str type)

/-- a schema that refers to another one -/
def ofReference (reference : String) : Schema :=
  empty.set "$ref" (.str reference)

/-- the marker for what cannot be expressed -/
def unsupported (message : String) : Schema :=
  empty.set unsupportedKeyword (.str message)

/-- A schema that is given as a value. `true` allows everything and `false` nothing. -/
def ofJson? : Json → Except FragmentError Schema
  | .obj members => .ok ⟨members⟩
  | .bool true => .ok empty
  | .bool false => .ok (empty.set "not" (.obj []))
  | other => .error (.notSchema other)

/-- A schema that is given as a text. -/
def ofFragment (text : String) : Except FragmentError Schema :=
  match Json.read text with
  | .ok value => ofJson? value
  | .error fault => .error (.malformed fault)

/-- Adds a line to `$comment`. -/
def comment (schema : Schema) (text : String) : Schema :=
  match Metadata.commentOf schema.members with
  | some existing => schema.set "$comment" (.str (existing ++ "\n" ++ text))
  | none => schema.set "$comment" (.str text)

/-- Writes a record of metadata onto the schema, if there is one. -/
def annotate (schema : Schema) : Option Metadata → Schema
  | some metadata => if metadata.isEmpty then schema else ⟨metadata.applyTo schema.members⟩
  | none => schema

/-- the schema as a value -/
def toJson (schema : Schema) : Json :=
  .obj schema.members

end Schema

end GraphSchema
