import GraphSchema.Reading.Failure

/-!
Typed reading. A source is a part of a text, or a value that was put aside while the members of a record
were read; both are read by the same functions.

- `Source.list`, `Source.record` and `Source.choice` read lists, records and names; what they are given
  decides the element type.
- In a text, parts are read in the order in which they stand, so the first failure is the one reported.
-/

namespace GraphSchema.Reading

open Json (Path Place Fault Lexeme Outline Key Ending SyntaxError)

inductive Source where
  /-- a part of a text, the path to it, and how many brackets may still open -/
  | part (path : Path) (room : Nat) (outline : Outline)
  /-- a value put aside -/
  | held (value : Json)

abbrev Result (α : Type) := Except Failure α

/-- a fault of syntax as a failure at a path -/
def malformed {α : Type} (path : Path) (result : Except Fault α) : Result α :=
  result.mapError (Failure.ofFault path)

/-- gives the failures of a record their spot -/
def settled {α : Type} (path : Path) (place : Place) (result : Result α) : Result α :=
  result.mapError (·.settle ⟨path, place⟩)

/-- Why a lexeme is not what was expected. A scalar is read to its end first; a bracket is not entered. -/
def rejectLexeme (path : Path) (lexeme : Lexeme) (why : Found → Cause) : Failure :=
  match lexeme.token with
  | .openArray => ⟨why .sequence, some ⟨path, lexeme.start⟩⟩
  | .openObject => ⟨why .map, some ⟨path, lexeme.start⟩⟩
  | _ =>
    match lexeme.scalar with
    | .ok value => ⟨why (.ofJson value), some ⟨path, lexeme.stop⟩⟩
    | .error fault => .ofFault path fault

/-- the lexeme with which a part of a text starts -/
def firstLexeme : Outline → Lexeme
  | .leaf lexeme => lexeme
  | .uncoloned next => next
  | .array opened _ _ => opened
  | .object opened _ _ => opened

/-- the end of the text, or a value that cannot be one of the names -/
def notNamed (lexeme : Lexeme) : Fault :=
  Json.faultAt lexeme .endInValue .expectedValue

/-- the place behind a key: the start of the next token, or its end if that is the closing brace -/
def keyPlace (key : Key) : Place :=
  if Ending.isCloseObject key.next then key.next.stop else key.next.start

/-- the place behind the content of a bracket -/
def endPlace : Ending → Place
  | .closed lexeme => lexeme.stop
  | .afterComma lexeme | .elsewhere lexeme => lexeme.start

namespace Source

/-- why a source is not what was expected -/
def reject (source : Source) (why : Found → Cause) : Failure :=
  match source with
  | part path _ (.uncoloned next) => .ofFault path (Json.uncolonedFault next)
  | part path _ outline => rejectLexeme path (firstLexeme outline) why
  | held value => .ofRecord (why (.ofJson value))

/-- the value of a source that is no array and no object -/
def scalar? : Source → Option Json
  | part _ _ (.leaf lexeme) => lexeme.scalar.toOption
  | part .. => none
  | held (.arr _) => none
  | held (.obj _) => none
  | held value => some value

/-! ## Scalars -/

def text (source : Source) : Result String :=
  match source.scalar? with
  | some (.str s) => .ok s
  | _ => .error (source.reject (.invalidType · "a string"))

def flag (source : Source) : Result Bool :=
  match source.scalar? with
  | some (.bool b) => .ok b
  | _ => .error (source.reject (.invalidType · "a boolean"))

/-- a non-negative integer -/
def count (source : Source) : Result Nat :=
  match source.scalar? with
  | some (.num (.int (.ofNat n))) => .ok n
  | some (.num (.int (.negSucc _))) => .error (source.reject (.invalidValue · "usize"))
  | _ => .error (source.reject (.invalidType · "usize"))

/-- `null`, or what `read` reads -/
def optional {α : Type} (read : Source → Result α) (source : Source) : Result (Option α) :=
  match source.scalar? with
  | some .null => .ok none
  | _ => some <$> read source

/-! ## Values of any type -/

/-- the value as it is written, repeated keys included -/
def raw : Source → Result Json
  | part path room outline =>
    (outline.read room path).mapError fun misread => .ofFault misread.path misread.fault
  | held value => .ok value

/-- any value -/
def any (source : Source) : Result Json :=
  Json.collapse <$> source.raw

/-- passes a member over -/
def ignore : Source → Result Unit
  | part path _ outline => malformed path outline.skip
  | held _ => .ok ()

/-! ## Lists -/

/-- the items of an array in a text, the first of which has this index -/
def listItems {α : Type} (read : Source → Result α) (path : Path) (room index : Nat) :
    List Outline → Result (List α)
  | [] => .ok []
  | item :: rest => do
    let value ← read (part (path ++ [.index index]) room item)
    let values ← listItems read path room (index + 1) rest
    return value :: values

/-- a list of what `read` reads -/
def list {α : Type} (read : Source → Result α) : Source → Result (List α)
  | part path 0 (.array opened _ _) => .error (.ofFault path ⟨.tooDeep, opened.peek⟩)
  | part path (room + 1) (.array _ items ending) => do
    let values ← listItems read path room 0 items
    malformed path ending.readArray
    return values
  | held (.arr items) => items.mapM fun item => read (held item)
  | source => .error (source.reject (.invalidType · "a sequence"))

/-! ## Records -/

/-- How a record is read: a draft takes in one member at a time, by name, and is finished at the end. -/
structure Form (δ α : Type) where
  start : δ
  take : δ → String → Source → Result δ
  finish : δ → Result α

/-- How a record is read from an array: the draft takes in one item after the other. -/
structure Columns (δ α : Type) where
  take : List (δ → Source → Result δ)
  finish : δ → Result α

/-- takes in the members of an object of a text -/
def takeMembers {δ : Type} (take : δ → String → Source → Result δ) (path : Path) (room : Nat) (draft : δ) :
    List (Key × Outline × Lexeme) → Result δ
  | [] => .ok draft
  | (key, outline, _) :: rest => do
    let name ← malformed (path ++ [.unknown]) key.text
    let draft ← settled path (keyPlace key) (take draft name (part (path ++ [.key name]) room outline))
    takeMembers take path room draft rest

/-- takes in members that were put aside -/
def takeHeld {δ : Type} (take : δ → String → Source → Result δ) (draft : δ) :
    List (String × Json) → Result δ
  | [] => .ok draft
  | (name, value) :: rest => do
    let draft ← take draft name (held value)
    takeHeld take draft rest

/-- a record whose members were put aside -/
def heldRecord {δ α : Type} (form : Form δ α) (members : List (String × Json)) : Result α :=
  takeHeld form.take form.start members >>= form.finish

/-- a record that is an object; `expected` describes it -/
def record {δ α : Type} (expected : String) (form : Form δ α) : Source → Result α
  | part path 0 (.object opened _ _) => .error (.ofFault path ⟨.tooDeep, opened.peek⟩)
  | part path (room + 1) (.object _ members ending) => do
    let draft ← takeMembers form.take path room form.start members
    malformed (path ++ [.unknown]) (ending.readObject members.isEmpty)
    settled path (endPlace ending) (form.finish draft)
  | held (.obj members) => heldRecord form members
  | source => .error (source.reject (.invalidType · expected))

/-- the end of an array whose columns are all taken -/
def fullEnd (path : Path) : List Outline → Ending → Result Unit
  | item :: _, _ => .error (.ofFault path ⟨.trailingCharacters, (firstLexeme item).peek⟩)
  | [], .closed _ => .ok ()
  | [], .afterComma lexeme =>
    let closing := match lexeme.token with
      | .closeArray => true
      | _ => false
    .error (.ofFault path ⟨if closing then .trailingComma else .trailingCharacters, lexeme.peek⟩)
  | [], .elsewhere lexeme => .error (.ofFault path (Json.faultAt lexeme .endInList .trailingCharacters))

/-- takes in the items of an array of a text; what is left over is a fault -/
def takeItems {δ : Type} (path : Path) (room index : Nat) (ending : Ending) (draft : δ) :
    List (δ → Source → Result δ) → List Outline → Result δ
  | [], items => do
    fullEnd path items ending
    return draft
  | _ :: _, [] => do
    malformed path ending.readArray
    return draft
  | take :: takes, item :: items => do
    let draft ← take draft (part (path ++ [.index index]) room item)
    takeItems path room (index + 1) ending draft takes items

/-- takes in items that were put aside, as many as there are columns -/
def takeHeldItems {δ : Type} (draft : δ) : List (δ → Source → Result δ) → List Json → Result δ
  | take :: takes, item :: items => do
    let draft ← take draft (held item)
    takeHeldItems draft takes items
  | _, _ => .ok draft

/-- a record that is an object, or an array of its members in order -/
def recordOrRow {δ α : Type} (expected : String) (form : Form δ α) (columns : Columns δ α) : Source → Result α
  | part path 0 (.array opened _ _) => .error (.ofFault path ⟨.tooDeep, opened.peek⟩)
  | part path (room + 1) (.array _ items ending) => do
    let draft ← takeItems path room 0 ending form.start columns.take items
    settled path (endPlace ending) (columns.finish draft)
  | held (.arr items) => do
    let draft ← takeHeldItems form.start columns.take items
    let value ← columns.finish draft
    let width := columns.take.length
    if items.length ≤ width then return value
    else .error (.ofRecord (.invalidLength items.length (toString width ++ " elements in sequence")))
  | source => source.record expected form

/-- A member that may come only once: its value, if it was not there before. -/
def once {α : Type} (name : String) (slot : Option α) (read : Result α) : Result (Option α) :=
  match slot with
  | some _ => .error (.ofRecord (.duplicateField name))
  | none => some <$> read

/-- a member that has to be there -/
def required {α : Type} (name : String) (slot : Option α) : Result α :=
  match slot with
  | some value => .ok value
  | none => .error (.ofRecord (.missingField name))

/-! ## Names -/

/-- the value that a name stands for -/
def named {α : Type} (known : List (String × α)) (name : String) : Result α :=
  match List.lookup name known with
  | some value => .ok value
  | none => .error (.ofRecord (.unknownVariant name (known.map Prod.fst)))

/-- a name in an object of a text: its only key, with the value `null` -/
def choiceObject {α : Type} (known : List (String × α)) (path : Path) (room : Nat) :
    List (Key × Outline × Lexeme) → Ending → Result α
  | [], .closed lexeme | [], .afterComma lexeme | [], .elsewhere lexeme =>
    .error (rejectLexeme path lexeme (.invalidType · "variant identifier"))
  | (key, outline, after) :: _, _ => do
    let name ← malformed path key.text
    let value ← settled path key.lexeme.stop (named known name)
    match outline with
    | .uncoloned next => .error (.ofFault path (Json.uncolonedFault next))
    | outline =>
      let unit := part (path ++ [.key name]) room outline
      match unit.scalar? with
      | some .null =>
        if Ending.isCloseObject after then return value
        else .error (.ofFault path ⟨if after.isFinish then .endInObject else .expectedValue, after.start⟩)
      | _ => .error (unit.reject (.invalidType · "unit"))

/-- one of several names: a string, or an object with the name as its only key and no value -/
def choice {α : Type} (known : List (String × α)) : Source → Result α
  | part path _ (.leaf lexeme) =>
    match lexeme.token with
    | .text _ | .brokenText _ => do
      let name ← text (part path 0 (.leaf lexeme))
      settled path lexeme.stop (named known name)
    | _ => .error (.ofFault path (notNamed lexeme))
  | part path _ (.uncoloned next) => .error (.ofFault path (Json.uncolonedFault next))
  | part path _ (.array opened _ _) => .error (.ofFault path (notNamed opened))
  | part path 0 (.object opened _ _) => .error (.ofFault path ⟨.tooDeep, opened.peek⟩)
  | part path (room + 1) (.object _ members ending) => choiceObject known path room members ending
  | held (.str name) => named known name
  | held (.obj [(name, value)]) => do
    let found ← named known name
    match value with
    | .null | .obj [] => return found
    | other => .error (.ofRecord (.invalidType (.ofJson other) "unit"))
  | held (.obj _) => .error (.ofRecord (.invalidValue .map "map with a single key"))
  | held other => .error (.ofRecord (.invalidType (.ofJson other) "string or map"))

/-! ## Records of several kinds -/

/-- the kind that a tag gives, by name or by position -/
def kindOf {α : Type} (known : List (String × α)) : Json → Result α
  | .str name => named known name
  | .num (.int (.ofNat n)) =>
    match known[n]? with
    | some (_, value) => .ok value
    | none =>
      let expected := "variant index 0 <= i < " ++ toString known.length
      .error (.ofRecord (.invalidValue (.number (.int n)) expected))
  | other => .error (.ofRecord (.invalidType (.ofJson other) "variant identifier"))

/-- The kind among the members of a record, which may come only once, and the other members in order. -/
def splitKind {α : Type} (known : List (String × α)) (kind : Option α) :
    List (String × Json) → Result (α × List (String × Json))
  | [] => do
    let kind ← required "kind" kind
    return (kind, [])
  | (name, value) :: rest =>
    if name = "kind" then do
      let kind ← once "kind" kind (kindOf known value)
      splitKind known kind rest
    else do
      let (kind, others) ← splitKind known kind rest
      return (kind, (name, value) :: others)

/-- Reads the kind of a record from its members, and then the record of that kind from the other ones. -/
def tagged {κ α : Type} (known : List (String × κ)) (read : κ → List (String × Json) → Result α)
    (members : List (String × Json)) : Result α := do
  let (kind, others) ← splitKind known none members
  read kind others

end Source

/-- Reads the first value of a text; what follows it is not looked at. -/
def readText {α : Type} (read : Source → Result α) (text : String) : Result α :=
  read (.part [] Json.maxNesting (Outline.ofText text).1)

end GraphSchema.Reading
