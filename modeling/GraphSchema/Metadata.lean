import GraphSchema.Hash.Basic
import GraphSchema.Json.Printer
import GraphSchema.Text.Lines

/-!
Metadata: what a node, a property or a request says about itself, apart from its shape.

- `Metadata.merged` lays one record over another.
- `Metadata.applyTo` writes a record onto the members of a schema. It touches annotation keywords only; all
  are replaced except `$comment`, to which a text is added unless one of its lines is that text already.
-/

namespace GraphSchema

structure Metadata where
  title : Option String := none
  description : Option String := none
  examples : List Json := []
  comment : Option String := none
  deprecated : Bool := false
  deriving Inhabited

namespace Metadata

/-- whether the record says nothing -/
def isEmpty (m : Metadata) : Bool :=
  m.title.isNone && m.description.isNone && m.examples.isEmpty && m.comment.isNone && !m.deprecated

/-- Lays `overlay` over a record: what it gives wins, an empty list of examples gives nothing, and what one
of the two calls deprecated stays so. -/
def merged (base overlay : Metadata) : Metadata where
  title := overlay.title <|> base.title
  description := overlay.description <|> base.description
  examples := if overlay.examples.isEmpty then base.examples else overlay.examples
  comment := overlay.comment <|> base.comment
  deprecated := base.deprecated || overlay.deprecated

/-- The comment that a schema has after `comment` is added to what it has. -/
def joinComment (existing : Option String) (comment : String) : String :=
  match existing with
  | some text => if (Text.lines text).contains comment then text else text ++ "\n" ++ comment
  | none => comment

/-- the text under `$comment`, if it is one -/
def commentOf (members : Members Json) : Option String :=
  (Members.get? members "$comment").bind Json.text?

/-- Writes a value under a key if there is one. -/
def insertSome (members : Members Json) (key : String) (value : Option Json) : Members Json :=
  match value with
  | some value => Members.insert members key value
  | none => members

/-- Writes the record onto the members of a schema. -/
def applyTo (m : Metadata) (members : Members Json) : Members Json :=
  let members := insertSome members "title" (m.title.map .str)
  let members := insertSome members "description" (m.description.map .str)
  let members := insertSome members "$comment"
    (m.comment.map fun comment => .str (joinComment (commentOf members) comment))
  let members := insertSome members "examples" (if m.examples.isEmpty then none else some (.arr m.examples))
  insertSome members "deprecated" (if m.deprecated then some (.bool true) else none)

/-- the hash of the record, an example by its compact text -/
def structuralHash (m : Metadata) : UInt64 :=
  Hash.ofOrdered [
    Hash.ofText? m.title,
    Hash.ofText? m.description,
    Hash.ofOrdered (m.examples.map fun value => Hash.ofText value.compact),
    Hash.ofText? m.comment,
    if m.deprecated then 1 else 0]

/-- the hash of a record that may be missing -/
def structuralHash? (m : Option Metadata) : UInt64 :=
  (m.map structuralHash).getD 0

end Metadata

end GraphSchema
