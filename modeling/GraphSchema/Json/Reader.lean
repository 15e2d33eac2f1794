import GraphSchema.Json.Outline
import GraphSchema.Json.Path

/-!
Reading an outline as a value, or past it.

- `Outline.read` finds the first fault of syntax and the path to it. It refuses brackets that are nested too
  deeply; `Outline.skip` does not, and it does not look into strings and numbers.
- `Json.read` reads a whole text as one value, with nothing but blanks behind it.
-/

namespace GraphSchema.Json

/-- a syntax error of the first kind at the end of the text, else of the second kind -/
def faultAt (lexeme : Lexeme) (atFinish otherwise : SyntaxError) : Fault :=
  ⟨if lexeme.isFinish then atFinish else otherwise, lexeme.peek⟩

/-- the value of a lexeme, or why there is none -/
def Lexeme.scalar (lexeme : Lexeme) : Except Fault Json :=
  match lexeme.token with
  | .null => .ok .null
  | .bool b => .ok (.bool b)
  | .number n => n.map .num
  | .text s => s.map .str
  | .brokenText fault | .broken fault => .error fault.read
  | .openArray | .closeArray | .openObject | .closeObject | .comma | .colon | .stray | .finish =>
    .error (faultAt lexeme .endInValue .expectedValue)

/-- passes a lexeme over as a value -/
def Lexeme.skip (lexeme : Lexeme) : Except Fault Unit :=
  match lexeme.token with
  | .null | .bool _ | .number _ | .text _ => .ok ()
  | .brokenText fault | .broken fault => .error fault.skip
  | .openArray | .closeArray | .openObject | .closeObject | .comma | .colon | .stray | .finish =>
    .error (faultAt lexeme .endInValue .expectedValue)

/-- the text of a key -/
def Key.text (key : Key) : Except Fault String :=
  match key.lexeme.token with
  | .text s => s
  | .brokenText fault => .error fault.read
  | _ => .error ⟨.keyNotString, key.lexeme.peek⟩

/-- passes a key over -/
def Key.skip (key : Key) : Except Fault Unit :=
  match key.lexeme.token with
  | .brokenText fault => .error fault.skip
  | _ => .ok ()

/-- what is wrong where a colon is missing -/
def uncolonedFault (next : Lexeme) : Fault :=
  faultAt next .endInObject .expectedColon

namespace Ending

/-- the end of an array for a reader -/
def readArray : Ending → Except Fault Unit
  | .closed _ => .ok ()
  | .afterComma lexeme => .error (faultAt lexeme .endInValue .trailingComma)
  | .elsewhere lexeme => .error (faultAt lexeme .endInList .expectedCommaOrBracket)

/-- the end of an array for someone who skips it -/
def skipArray : Ending → Except Fault Unit
  | .closed _ => .ok ()
  | .afterComma lexeme => .error (faultAt lexeme .endInValue .expectedValue)
  | .elsewhere lexeme => .error (faultAt lexeme .endInList .expectedCommaOrBracket)

/-- whether a closing brace is the lexeme -/
def isCloseObject (lexeme : Lexeme) : Bool :=
  match lexeme.token with
  | .closeObject => true
  | _ => false

/-- the end of an object for a reader; `first` if there is no member before it -/
def readObject (first : Bool) : Ending → Except Fault Unit
  | .closed _ => .ok ()
  | .afterComma lexeme =>
    .error (faultAt lexeme .endInValue (if isCloseObject lexeme then .trailingComma else .keyNotString))
  | .elsewhere lexeme =>
    .error (faultAt lexeme .endInObject (if first then .keyNotString else .expectedCommaOrBrace))

/-- the end of an object for someone who skips it -/
def skipObject (first : Bool) : Ending → Except Fault Unit
  | .closed _ => .ok ()
  | .afterComma lexeme => .error (faultAt lexeme .endInObject .keyNotString)
  | .elsewhere lexeme =>
    .error (faultAt lexeme .endInObject (if first then .keyNotString else .expectedCommaOrBrace))

end Ending

/-- a fault of syntax and the path to the part that has it -/
structure Misread where
  path : Path
  fault : Fault
  deriving Repr, DecidableEq

/-- puts a path before a fault -/
def atPath {α : Type} (path : Path) (result : Except Fault α) : Except Misread α :=
  result.mapError (⟨path, ·⟩)

/-- the number of brackets that may be open around a value -/
def maxNesting : Nat := 127

namespace Outline

mutual

/-- The value as it is written, repeated keys included. So many brackets may open from here on. -/
def read (room : Nat) (path : Path) : Outline → Except Misread Json
  | .leaf lexeme => atPath path lexeme.scalar
  | .uncoloned next => .error ⟨path, uncolonedFault next⟩
  | .array opened items ending =>
    match room with
    | 0 => .error ⟨path, ⟨.tooDeep, opened.peek⟩⟩
    | room + 1 => do
      let values ← readItems room path 0 items
      atPath path ending.readArray
      return .arr values
  | .object opened members ending =>
    match room with
    | 0 => .error ⟨path, ⟨.tooDeep, opened.peek⟩⟩
    | room + 1 => do
      let values ← readMembers room path members
      atPath (path ++ [.unknown]) (ending.readObject members.isEmpty)
      return .obj values

/-- the items of an array, the first of which has this index -/
def readItems (room : Nat) (path : Path) (index : Nat) : List Outline → Except Misread (List Json)
  | [] => .ok []
  | item :: rest => do
    let value ← read room (path ++ [.index index]) item
    let values ← readItems room path (index + 1) rest
    return value :: values

def readMembers (room : Nat) (path : Path) :
    List (Key × Outline × Lexeme) → Except Misread (List (String × Json))
  | [] => .ok []
  | (key, part, _) :: rest => do
    let name ← atPath (path ++ [.unknown]) key.text
    let value ← read room (path ++ [.key name]) part
    let values ← readMembers room path rest
    return (name, value) :: values

end

mutual

/-- Passes a part over; only its brackets, keys and tokens have to be in order. -/
def skip : Outline → Except Fault Unit
  | .leaf lexeme => lexeme.skip
  | .uncoloned next => .error (uncolonedFault next)
  | .array _ items ending => do
    skipItems items
    ending.skipArray
  | .object _ members ending => do
    skipMembers members
    ending.skipObject members.isEmpty

def skipItems : List Outline → Except Fault Unit
  | [] => .ok ()
  | item :: rest => do
    skip item
    skipItems rest

def skipMembers : List (Key × Outline × Lexeme) → Except Fault Unit
  | [] => .ok ()
  | (key, part, _) :: rest => do
    key.skip
    skip part
    skipMembers rest

end

end Outline

/-- Reads a text as one value. Of repeated keys the last value counts, at the position of the first. -/
def read (text : String) : Except Fault Json := do
  let (outline, next) := Outline.ofText text
  let value ← (outline.read maxNesting []).mapError (·.fault)
  if next.isFinish then return value.collapse
  else .error ⟨.trailingCharacters, next.peek⟩

end GraphSchema.Json
