/-!
Settings of a compilation.
-/

namespace GraphSchema

/-- what becomes of a map whose keys are not written as strings -/
inductive KeyMode where
  /-- accepted, with a comment -/
  | loose
  /-- replaced by a marker -/
  | strict
  /-- accepted without a comment -/
  | silent
  /-- dropped, with the property that holds it -/
  | skip
  deriving Repr, DecidableEq, Inhabited

namespace KeyMode

def all : List KeyMode := [loose, strict, silent, skip]

def name : KeyMode → String
  | loose => "loose"
  | strict => "strict"
  | silent => "silent"
  | skip => "skip"

/-- the modes by name -/
def named : List (String × KeyMode) := all.map fun mode => (mode.name, mode)

end KeyMode

structure CompileOptions where
  /-- what the document names as its dialect -/
  dialect : String := "https://json-schema.org/draft/2020-12/schema"
  dictionaryKeys : KeyMode := .loose
  /-- how many nodes may be nested in one walk -/
  maxDepth : Nat := 50
  deriving Repr, DecidableEq, Inhabited

end GraphSchema
