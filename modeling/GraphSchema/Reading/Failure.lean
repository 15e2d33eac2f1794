import GraphSchema.Json.Reader
import GraphSchema.Json.Printer
import GraphSchema.Text.Quoted

/-!
Why a text cannot be read as a value of some type, and where.

A failure is noticed at a spot, the path to a part of the text and a place in it. One that concerns a whole
record (a missing member, a repeated one, a member that was put aside) has no spot of its own; the record
that is being read from the text settles it.
-/

namespace GraphSchema.Reading

open Json (Path Place SyntaxError)

/-- what stands where something else was expected -/
inductive Found where
  | null
  | bool (value : Bool)
  | number (value : Number)
  | text (value : String)
  | sequence
  | map

def Found.ofJson : Json → Found
  | .null => .null
  | .bool b => .bool b
  | .num n => .number n
  | .str s => .text s
  | .arr _ => .sequence
  | .obj _ => .map

def Found.description : Found → String
  | .null => "null"
  | .bool b => "boolean `" ++ (if b then "true" else "false") ++ "`"
  | .number (.int n) => "integer `" ++ String.ofList (Json.intChars n) ++ "`"
  | .number (.real x) => "floating point `" ++ String.ofList (Json.realChars x) ++ "`"
  | .text s => "string " ++ Text.quoted s
  | .sequence => "sequence"
  | .map => "map"

inductive Cause where
  | malformed (error : SyntaxError)
  | invalidType (found : Found) (expected : String)
  | invalidValue (found : Found) (expected : String)
  | invalidLength (length : Nat) (expected : String)
  | unknownVariant (name : String) (known : List String)
  | duplicateField (name : String)
  | missingField (name : String)

/-- names in an error text: each in back quotes, two joined by `or`, more behind `one of` -/
def alternatives (names : List String) : String :=
  match names.map fun name => "`" ++ name ++ "`" with
  | [] => "there are no variants"
  | [one] => "expected " ++ one
  | [one, other] => "expected " ++ one ++ " or " ++ other
  | many => "expected one of " ++ String.intercalate ", " many

def Cause.message : Cause → String
  | .malformed error => error.message
  | .invalidType found expected => "invalid type: " ++ found.description ++ ", expected " ++ expected
  | .invalidValue found expected => "invalid value: " ++ found.description ++ ", expected " ++ expected
  | .invalidLength length expected => "invalid length " ++ toString length ++ ", expected " ++ expected
  | .unknownVariant name known => "unknown variant `" ++ name ++ "`, " ++ alternatives known
  | .duplicateField name => "duplicate field `" ++ name ++ "`"
  | .missingField name => "missing field `" ++ name ++ "`"

/-- where a failure is noticed -/
structure Spot where
  path : Path
  place : Place

structure Failure where
  cause : Cause
  /-- none for a failure that the enclosing record settles -/
  spot : Option Spot

namespace Failure

/-- a failure of the whole record that is being read -/
def ofRecord (cause : Cause) : Failure := ⟨cause, none⟩

/-- Gives a failure its spot, unless it has one. -/
def settle (failure : Failure) (spot : Spot) : Failure :=
  match failure.spot with
  | some _ => failure
  | none => { failure with spot := some spot }

/-- a fault of syntax at a path -/
def ofFault (path : Path) (fault : Json.Fault) : Failure :=
  ⟨.malformed fault.cause, some ⟨path, fault.place⟩⟩

/-- the cause and the place -/
def detail (failure : Failure) : String :=
  failure.cause.message ++ (failure.spot.map (·.place.suffixText)).getD ""

/-- the path to the part that fails -/
def path (failure : Failure) : Path :=
  (failure.spot.map (·.path)).getD []

/-- the whole error text -/
def message (failure : Failure) : String :=
  "at JSON path " ++ failure.path.text ++ " → " ++ failure.detail

end Failure

end GraphSchema.Reading
