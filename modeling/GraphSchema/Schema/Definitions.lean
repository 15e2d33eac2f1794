import GraphSchema.Json.Basic

/-!
The table of definitions of one walk. A key is reserved before the node behind it is compiled, so that a
node which reaches itself again finds the reservation; the slot is filled when the node is done. The first
schema that a slot gets stays.
-/

namespace GraphSchema

/-- what stands under a key of the table -/
inductive Slot where
  | reserved
  | built (schema : Json)

/-- The schema of a slot that has one. -/
def Slot.schema? : Slot → Option Json
  | .reserved => none
  | .built schema => some schema

/-- slots in the order in which their keys came in -/
structure Definitions where
  slots : Members Slot := []

namespace Definitions

def empty : Definitions := {}

/-- whether a key is reserved or built -/
def contains (table : Definitions) (key : String) : Bool :=
  Members.contains table.slots key

/-- Reserves a key. With the table comes whether the key was free; one that is not stays as it is. -/
def reserve (table : Definitions) (key : String) : Bool × Definitions :=
  if table.contains key then (false, table) else (true, ⟨Members.insert table.slots key .reserved⟩)

/-- The schema under a key, if it is built. -/
def get? (table : Definitions) (key : String) : Option Json :=
  (Members.get? table.slots key).bind Slot.schema?

/-- Stores a schema under a key that is not built yet. -/
def fill (table : Definitions) (key : String) (schema : Json) : Definitions :=
  if (table.get? key).isSome then table else ⟨Members.insert table.slots key (.built schema)⟩

/-- the number of keys, reserved or built -/
def size (table : Definitions) : Nat :=
  table.slots.length

/-- the built entries in the order of their keys' arrival -/
def built (table : Definitions) : Members Json :=
  table.slots.filterMap fun (key, slot) => slot.schema?.map (key, ·)

/-- the built entries by ascending key -/
def sorted (table : Definitions) : Members Json :=
  Members.sortedByKey table.built

end Definitions

end GraphSchema
