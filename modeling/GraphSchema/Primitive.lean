import GraphSchema.Schema.Basic

/-!
Primitive types and the schemas they stand for.
-/

namespace GraphSchema

inductive Primitive where
  | boolean
  | byte
  | sByte
  | int16
  | uInt16
  | int32
  | uInt32
  | int64
  | uInt64
  | single
  | double
  | decimal
  | char
  | string
  | dateTime
  | dateTimeOffset
  | dateOnly
  | timeOnly
  | timeSpan
  | guid
  | uri
  deriving Repr, DecidableEq, Inhabited

namespace Primitive

def name : Primitive → String
  | boolean => "boolean"
  | byte => "byte"
  | sByte => "sByte"
  | int16 => "int16"
  | uInt16 => "uInt16"
  | int32 => "int32"
  | uInt32 => "uInt32"
  | int64 => "int64"
  | uInt64 => "uInt64"
  | single => "single"
  | double => "double"
  | decimal => "decimal"
  | char => "char"
  | string => "string"
  | dateTime => "dateTime"
  | dateTimeOffset => "dateTimeOffset"
  | dateOnly => "dateOnly"
  | timeOnly => "timeOnly"
  | timeSpan => "timeSpan"
  | guid => "guid"
  | uri => "uri"

/-- the primitives by ordinal -/
def all : List Primitive := [
  boolean, byte, sByte, int16, uInt16, int32, uInt32, int64, uInt64, single, double, decimal, char, string,
  dateTime, dateTimeOffset, dateOnly, timeOnly, timeSpan, guid, uri]

/-- the position among the primitives -/
def ordinal (p : Primitive) : UInt64 :=
  UInt64.ofNat (all.idxOf p)

/-- an integer schema with its bounds -/
def integerSchema (low high : Int) : Schema :=
  ((Schema.ofType "integer").set "minimum" (.int low)).set "maximum" (.int high)

/-- a number schema with its bounds -/
def numberSchema (bound : Float) : Schema :=
  ((Schema.ofType "number").set "minimum" (.real (-bound))).set "maximum" (.real bound)

/-- a string schema with a format -/
def formatSchema (format : String) : Schema :=
  (Schema.ofType "string").set "format" (.str format)

/-- The schema of a primitive: a boolean, an integer, a number or a string, with the bounds of its values. -/
def schema : Primitive → Schema
  | boolean => Schema.ofType "boolean"
  | byte => integerSchema 0 255
  | sByte => integerSchema (-128) 127
  | int16 => integerSchema (-32768) 32767
  | uInt16 => integerSchema 0 65535
  | int32 => integerSchema (-2147483648) 2147483647
  | uInt32 => integerSchema 0 4294967295
  | int64 => integerSchema (-9223372036854775808) 9223372036854775807
  | uInt64 => integerSchema 0 18446744073709551615
  | single => numberSchema 340282346638528859811704183484516925440.0
  | double => numberSchema 1.7976931348623157e308
  | decimal => numberSchema 79228162514264337593543950335.0
  | char => ((Schema.ofType "string").set "minLength" (.nat 1)).set "maxLength" (.nat 1)
  | string => Schema.ofType "string"
  | dateTime => formatSchema "date-time"
  | dateTimeOffset => formatSchema "date-time"
  | dateOnly => formatSchema "date"
  | timeOnly => formatSchema "time"
  | timeSpan => formatSchema "duration"
  | guid => formatSchema "uuid"
  | uri => formatSchema "uri"

/-- Whether the values of a primitive are written as strings, so that they can be keys of an object. -/
def isStringLike (p : Primitive) : Bool :=
  (p.schema.toJson.get? "type").bind Json.text? == some "string"

end Primitive

end GraphSchema
