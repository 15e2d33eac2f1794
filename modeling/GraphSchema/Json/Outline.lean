import GraphSchema.Json.Lexeme

/-!
The outline of a JSON text: the tree of its brackets, keys and scalars, with the places of all of them, as
far as the text goes. A fault of syntax is a part of the tree, so that a reader which looks at the parts in
order meets its own errors and those of the syntax in the order of the text.

- `Scan.advance` takes one lexeme into the brackets that are open; the outline is its fold over the lexemes.
-/

namespace GraphSchema.Json

/-- how the content of a bracket ends, with the lexeme where it does -/
inductive Ending where
  /-- at its closing bracket -/
  | closed (lexeme : Lexeme)
  /-- behind a comma, at a lexeme that starts no item -/
  | afterComma (lexeme : Lexeme)
  /-- at a lexeme that is neither a comma nor the closing bracket, or that starts no first item -/
  | elsewhere (lexeme : Lexeme)

/-- a key and the lexeme that follows it -/
structure Key where
  lexeme : Lexeme
  next : Lexeme

/-- A part of a text. A member of an object is its key, its value and the lexeme that follows the value. -/
inductive Outline where
  | leaf (lexeme : Lexeme)
  /-- the value of a key that is not followed by a colon but by this lexeme -/
  | uncoloned (next : Lexeme)
  | array (opened : Lexeme) (items : List Outline) (ending : Ending)
  | object (opened : Lexeme) (members : List (Key × Outline × Lexeme)) (ending : Ending)

/-- an open bracket and its content so far, the latest first -/
inductive Frame where
  | array (opened : Lexeme) (items : List Outline)
  | object (opened : Lexeme) (members : List (Key × Outline × Lexeme)) (key : Key)

/-- where the scan of a text stands -/
inductive Scan where
  /-- a value comes next -/
  | awaitValue (frames : List Frame)
  /-- a key comes next, in an object with these members -/
  | awaitKey (opened : Lexeme) (members : List (Key × Outline × Lexeme)) (frames : List Frame)
  /-- a colon comes next -/
  | awaitColon (opened : Lexeme) (members : List (Key × Outline × Lexeme)) (key : Lexeme) (frames : List Frame)
  /-- a value is complete -/
  | complete (outline : Outline) (frames : List Frame)
  /-- the outermost value is complete, and this lexeme follows it -/
  | done (outline : Outline) (next : Lexeme)

/-- Closes the open brackets around a part that cannot be read past. -/
def cutOff (outline : Outline) (lexeme : Lexeme) : List Frame → Scan
  | [] => .done outline lexeme
  | .array opened items :: frames =>
    cutOff (.array opened (outline :: items).reverse (.elsewhere lexeme)) lexeme frames
  | .object opened members key :: frames =>
    cutOff (.object opened ((key, outline, lexeme) :: members).reverse (.elsewhere lexeme)) lexeme frames

namespace Scan

/-- a lexeme where a value is expected -/
def takeValue (frames : List Frame) (lexeme : Lexeme) : Scan :=
  match lexeme.token with
  | .openArray => .awaitValue (.array lexeme [] :: frames)
  | .openObject => .awaitKey lexeme [] frames
  | .null | .bool _ | .number _ | .text _ => .complete (.leaf lexeme) frames
  | .closeArray =>
    match frames with
    | .array opened [] :: outer => .complete (.array opened [] (.closed lexeme)) outer
    | .array opened items :: outer => cutOff (.array opened items.reverse (.afterComma lexeme)) lexeme outer
    | frames => cutOff (.leaf lexeme) lexeme frames
  | .finish =>
    match frames with
    | .array opened [] :: outer => cutOff (.array opened [] (.elsewhere lexeme)) lexeme outer
    | .array opened items :: outer => cutOff (.array opened items.reverse (.afterComma lexeme)) lexeme outer
    | frames => cutOff (.leaf lexeme) lexeme frames
  | .closeObject | .comma | .colon | .brokenText _ | .broken _ | .stray =>
    cutOff (.leaf lexeme) lexeme frames

/-- a lexeme where a key is expected -/
def takeKey (opened : Lexeme) (members : List (Key × Outline × Lexeme)) (frames : List Frame)
    (lexeme : Lexeme) : Scan :=
  match lexeme.token, members with
  | .text _, _ => .awaitColon opened members lexeme frames
  | .brokenText _, _ =>
    let broken := (⟨lexeme, lexeme⟩, .leaf lexeme, lexeme)
    cutOff (.object opened (broken :: members).reverse (.elsewhere lexeme)) lexeme frames
  | .closeObject, [] => .complete (.object opened [] (.closed lexeme)) frames
  | _, [] => cutOff (.object opened [] (.elsewhere lexeme)) lexeme frames
  | _, members => cutOff (.object opened members.reverse (.afterComma lexeme)) lexeme frames

/-- a lexeme where a colon is expected -/
def takeColon (opened : Lexeme) (members : List (Key × Outline × Lexeme)) (key : Lexeme)
    (frames : List Frame) (lexeme : Lexeme) : Scan :=
  match lexeme.token with
  | .colon => .awaitValue (.object opened members ⟨key, lexeme⟩ :: frames)
  | _ =>
    let broken := (⟨key, lexeme⟩, .uncoloned lexeme, lexeme)
    cutOff (.object opened (broken :: members).reverse (.elsewhere lexeme)) lexeme frames

/-- a lexeme behind a complete value -/
def takeNext (outline : Outline) (frames : List Frame) (lexeme : Lexeme) : Scan :=
  match frames with
  | [] => .done outline lexeme
  | .array opened items :: outer =>
    match lexeme.token with
    | .comma => .awaitValue (.array opened (outline :: items) :: outer)
    | .closeArray => .complete (.array opened (outline :: items).reverse (.closed lexeme)) outer
    | _ => cutOff (.array opened (outline :: items).reverse (.elsewhere lexeme)) lexeme outer
  | .object opened members key :: outer =>
    let members := (key, outline, lexeme) :: members
    match lexeme.token with
    | .comma => .awaitKey opened members outer
    | .closeObject => .complete (.object opened members.reverse (.closed lexeme)) outer
    | _ => cutOff (.object opened members.reverse (.elsewhere lexeme)) lexeme outer

/-- Takes in one lexeme. -/
def advance (scan : Scan) (lexeme : Lexeme) : Scan :=
  match scan with
  | .awaitValue frames => takeValue frames lexeme
  | .awaitKey opened members frames => takeKey opened members frames lexeme
  | .awaitColon opened members key frames => takeColon opened members key frames lexeme
  | .complete outline frames => takeNext outline frames lexeme
  | .done outline next => .done outline next

/-- the scan of a list of lexemes, from the start of a text -/
def run (lexemes : List Lexeme) : Scan :=
  lexemes.foldl advance (.awaitValue [])

/-- the outermost part that a scan has found, and the lexeme behind it -/
def result : Scan → Outline × Lexeme
  | .done outline next => (outline, next)
  | _ => let nothing := ⟨.finish, .origin, .origin⟩; (.leaf nothing, nothing)

end Scan

/-- The outline of the first value of a text, and the lexeme that follows it. -/
def Outline.ofText (text : String) : Outline × Lexeme :=
  (Scan.run (Lexeme.ofText text)).result

end GraphSchema.Json
