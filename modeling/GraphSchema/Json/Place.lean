/-!
Places in a text and the faults of JSON syntax.

A place counts lines from one and, within a line, the bytes before it. A fault that is found by looking at
the next byte without taking it counts that byte (`Place.peek`).
-/

namespace GraphSchema.Json

/-- a line, from one, and the number of bytes before the place on it -/
structure Place where
  line : Nat
  column : Nat
  deriving Repr, DecidableEq, Inhabited

namespace Place

def origin : Place := ⟨1, 0⟩

/-- the place `count` bytes further on the same line -/
def right (place : Place) (count : Nat) : Place :=
  ⟨place.line, place.column + count⟩

/-- the place behind a character -/
def after (place : Place) (c : Char) : Place :=
  if c = '\n' then ⟨place.line + 1, 0⟩ else place.right c.utf8Size

/-- the place behind a text -/
def afterAll (place : Place) (text : List Char) : Place :=
  text.foldl after place

/-- the place behind the first byte of what follows, and at the end of the text the place itself -/
def peek (place : Place) : List Char → Place
  | [] => place
  | c :: _ => if c = '\n' then ⟨place.line + 1, 0⟩ else place.right 1

/-- the place behind the first `count` bytes of what follows, if there are so many -/
def afterBytes (place : Place) (count : Nat) : List Char → Option Place
  | [] => if count = 0 then some place else none
  | c :: rest =>
    if count < c.utf8Size then some (place.right count)
    else afterBytes (place.after c) (count - c.utf8Size) rest

end Place

/-- what can be wrong with the syntax of a text -/
inductive SyntaxError where
  | endInValue
  | endInList
  | endInObject
  | endInString
  | expectedValue
  | expectedIdent
  | expectedColon
  | expectedCommaOrBracket
  | expectedCommaOrBrace
  | trailingComma
  | trailingCharacters
  | keyNotString
  | invalidNumber
  | numberOutOfRange
  | invalidEscape
  | controlCharacter
  | loneSurrogate
  | endOfHexEscape
  | tooDeep
  deriving Repr, DecidableEq, Inhabited

def SyntaxError.message : SyntaxError → String
  | .endInValue => "EOF while parsing a value"
  | .endInList => "EOF while parsing a list"
  | .endInObject => "EOF while parsing an object"
  | .endInString => "EOF while parsing a string"
  | .expectedValue => "expected value"
  | .expectedIdent => "expected ident"
  | .expectedColon => "expected `:`"
  | .expectedCommaOrBracket => "expected `,` or `]`"
  | .expectedCommaOrBrace => "expected `,` or `\x7d`"
  | .trailingComma => "trailing comma"
  | .trailingCharacters => "trailing characters"
  | .keyNotString => "key must be a string"
  | .invalidNumber => "invalid number"
  | .numberOutOfRange => "number out of range"
  | .invalidEscape => "invalid escape"
  | .controlCharacter => "control character (\\u0000-\\u001F) found while parsing a string"
  | .loneSurrogate => "lone leading surrogate in hex escape"
  | .endOfHexEscape => "unexpected end of hex escape"
  | .tooDeep => "recursion limit exceeded"

/-- the place as error texts name it -/
def Place.suffixText (place : Place) : String :=
  " at line " ++ toString place.line ++ " column " ++ toString place.column

/-- a syntax error and where it was noticed -/
structure Fault where
  cause : SyntaxError
  place : Place
  deriving Repr, DecidableEq, Inhabited

def Fault.message (fault : Fault) : String :=
  fault.cause.message ++ fault.place.suffixText

end GraphSchema.Json
