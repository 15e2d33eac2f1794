import GraphSchema.Text.Bytes
import GraphSchema.Text.Hex

/-!
References to definitions: a URI fragment that holds a JSON Pointer to a key below `$defs`.

- `Reference.escape` writes a key as a pointer token, `Reference.encode` a token as part of a fragment.
- `Reference.pointer` is the fragment for a key.
-/

namespace GraphSchema.Reference

/-- the keyword under which definitions stand -/
def definitionsKeyword : String := "$defs"

/-- In a token the tilde is `~0` and the slash is `~1`. -/
def escapeChar (c : Char) : List Char :=
  if c = '~' then ['~', '0'] else if c = '/' then ['~', '1'] else [c]

/-- a key as a token of a JSON Pointer -/
def escape (key : String) : String :=
  String.ofList (key.toList.flatMap escapeChar)

/-- Printable ASCII characters that may not stand in a fragment, or would be read as an escape there. -/
def reserved : List Char :=
  [' ', '"', '#', '%', '<', '>', '[', '\\', ']', '^', '\x60', '\x7b', '|', '\x7d']

/-- whether a character stands for itself in a fragment -/
def isPlain (c : Char) : Bool :=
  32 ≤ c.toNat && c.toNat < 127 && !reserved.contains c

/-- a byte as a percent sign and two digits -/
def percent (byte : UInt8) : List Char :=
  ['%', Text.upperHex (byte.toNat / 16), Text.upperHex (byte.toNat % 16)]

/-- a character in a fragment: itself, or its bytes -/
def encodeChar (c : Char) : List Char :=
  if isPlain c then [c] else (String.utf8EncodeChar c).flatMap percent

/-- a token in a fragment -/
def encode (token : String) : String :=
  String.ofList (token.toList.flatMap encodeChar)

/-- the reference to the definition under a key -/
def pointer (key : String) : String :=
  "#/" ++ definitionsKeyword ++ "/" ++ encode (escape key)

end GraphSchema.Reference
