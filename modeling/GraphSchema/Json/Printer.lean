import GraphSchema.Json.Basic
import GraphSchema.Decimal.Shortest
import GraphSchema.Text.Hex

/-!
Writing JSON: compact text without blanks, and pretty text with two blanks per level. Both write the
members of an object in the order in which the value holds them.
-/

namespace GraphSchema.Json

/-- Inside a string only the quote, the backslash and control characters are escaped. -/
def escapedChar (c : Char) : List Char :=
  if c = '"' then ['\\', '"']
  else if c = '\\' then ['\\', '\\']
  else if c = '\x08' then ['\\', 'b']
  else if c = '\t' then ['\\', 't']
  else if c = '\n' then ['\\', 'n']
  else if c = '\x0c' then ['\\', 'f']
  else if c = '\r' then ['\\', 'r']
  else if c.toNat < 32 then ['\\', 'u', '0', '0', Text.lowerHex (c.toNat / 16), Text.lowerHex (c.toNat % 16)]
  else [c]

/-- a string in quotes -/
def quotedChars (s : String) : List Char :=
  '"' :: (s.toList.flatMap escapedChar ++ ['"'])

/-- an integer in decimal -/
def intChars : Int → List Char
  | .ofNat n => Nat.toDigits 10 n
  | .negSucc n => '-' :: Nat.toDigits 10 (n + 1)

/-- Digits are written positionally for exponents from -5 to 15, where a whole number keeps `.0`, and else
with one digit before the point and a signed exponent. -/
def layout (d : Decimal.Digits) : List Char :=
  let count := d.digits.length
  if 0 ≤ d.exponent ∧ d.exponent < 16 then
    let whole := d.exponent.toNat + 1
    if count ≤ whole then d.digits ++ List.replicate (whole - count) '0' ++ ['.', '0']
    else d.digits.take whole ++ '.' :: d.digits.drop whole
  else if -5 ≤ d.exponent ∧ d.exponent < 0 then
    '0' :: '.' :: List.replicate ((-d.exponent).toNat - 1) '0' ++ d.digits
  else
    let point := if count = 1 then [] else ['.']
    let sign := if d.exponent < 0 then '-' else '+'
    d.digits.take 1 ++ point ++ d.digits.drop 1 ++ 'e' :: sign :: Nat.toDigits 10 d.exponent.natAbs

/-- a float by its shortest digits; what is not finite has no number text and is `null` -/
def realChars (x : Float) : List Char :=
  match Decimal.Dyadic.ofFloat? x with
  | none => ['n', 'u', 'l', 'l']
  | some d =>
    let sign := if d.negative then ['-'] else []
    if d.mantissa = 0 then sign ++ ['0', '.', '0'] else sign ++ layout d.shortest

def numberChars : Number → List Char
  | .int n => intChars n
  | .real x => realChars x

mutual

/-- the compact text of a value -/
def compactChars : Json → List Char
  | .null => ['n', 'u', 'l', 'l']
  | .bool true => ['t', 'r', 'u', 'e']
  | .bool false => ['f', 'a', 'l', 's', 'e']
  | .num n => numberChars n
  | .str s => quotedChars s
  | .arr items => '[' :: (compactItems items ++ [']'])
  | .obj members => '\x7b' :: (compactMembers members ++ ['\x7d'])

/-- items with a comma between neighbours -/
def compactItems : List Json → List Char
  | [] => []
  | [item] => compactChars item
  | item :: next :: rest => compactChars item ++ ',' :: compactItems (next :: rest)

/-- members with a comma between neighbours -/
def compactMembers : List (String × Json) → List Char
  | [] => []
  | [(key, value)] => quotedChars key ++ ':' :: compactChars value
  | (key, value) :: next :: rest =>
    quotedChars key ++ ':' :: (compactChars value ++ ',' :: compactMembers (next :: rest))

end

/-- a line break and the indentation of a level -/
def lineStart (level : Nat) : List Char :=
  '\n' :: List.replicate (2 * level) ' '

mutual

/-- the pretty text of a value that stands at an indentation level -/
def prettyChars (level : Nat) : Json → List Char
  | .arr [] => ['[', ']']
  | .arr items => '[' :: (prettyItems (level + 1) items ++ lineStart level ++ [']'])
  | .obj [] => ['\x7b', '\x7d']
  | .obj members => '\x7b' :: (prettyMembers (level + 1) members ++ lineStart level ++ ['\x7d'])
  | .null => ['n', 'u', 'l', 'l']
  | .bool true => ['t', 'r', 'u', 'e']
  | .bool false => ['f', 'a', 'l', 's', 'e']
  | .num n => numberChars n
  | .str s => quotedChars s

/-- items, each on a line of its own -/
def prettyItems (level : Nat) : List Json → List Char
  | [] => []
  | [item] => lineStart level ++ prettyChars level item
  | item :: next :: rest =>
    lineStart level ++ prettyChars level item ++ ',' :: prettyItems level (next :: rest)

/-- members, each on a line of its own -/
def prettyMembers (level : Nat) : List (String × Json) → List Char
  | [] => []
  | [(key, value)] => lineStart level ++ quotedChars key ++ ':' :: ' ' :: prettyChars level value
  | (key, value) :: next :: rest =>
    lineStart level ++ quotedChars key ++ ':' :: ' ' ::
      (prettyChars level value ++ ',' :: prettyMembers level (next :: rest))

end

/-- the compact text of a value -/
def compact (value : Json) : String :=
  String.ofList (compactChars value)

/-- the pretty text of a value, without a line break at the end -/
def pretty (value : Json) : String :=
  String.ofList (prettyChars 0 value)

end GraphSchema.Json
