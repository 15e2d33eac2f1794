/-!
Paths into a JSON text, as error texts write them: member names with a point between them, indices in
brackets, `?` for a key that cannot be read, and a single point for the text itself.
-/

namespace GraphSchema.Json

/-- a step from a value to a part of it -/
inductive Segment where
  | key (name : String)
  | index (i : Nat)
  /-- a key that cannot be read -/
  | unknown
  deriving Repr, DecidableEq

/-- the steps from a text to a part of it -/
abbrev Path := List Segment

namespace Path

/-- The text of the steps that follow a separator. -/
def textAfter (separator : String) : Path → String
  | [] => ""
  | .key name :: rest => separator ++ name ++ textAfter "." rest
  | .index i :: rest => "[" ++ toString i ++ "]" ++ textAfter "." rest
  | .unknown :: rest => separator ++ "?" ++ textAfter "." rest

/-- the text of a path -/
def text (path : Path) : String :=
  if path.isEmpty then "." else textAfter "" path

end Path

end GraphSchema.Json
