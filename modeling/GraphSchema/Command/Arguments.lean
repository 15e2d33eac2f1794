import GraphSchema.Compile.Options

/-!
The command line.

- `Command.parse` reads it from left to right. A request for help ends the reading, and so does the first
  thing that is wrong.
- An option takes the words behind it as its values: `--input` all up to the next option, the others one. A
  value can also be attached, as in `--id=x`, `-ix` or `-i=x`; then it is the only one.
-/

namespace GraphSchema

/-- which documents to read -/
structure InputSettings where
  /-- paths and patterns -/
  input : List String
  /-- whether the implementations of abstract types are completed -/
  scanImplementations : Bool := false
  deriving Repr, DecidableEq

/-- settings that win over those of a document -/
structure OptionSettings where
  id : Option String := none
  dictionaryKeys : Option KeyMode := none
  maxDepth : Option Nat := none
  dialect : Option String := none
  deriving Repr, DecidableEq

structure CompileCommand where
  inputs : InputSettings
  options : OptionSettings := {}
  /-- a file, or a directory for several documents -/
  out : Option String := none
  /-- whether diagnostics are an error in the end -/
  denyDiagnostics : Bool := false
  /-- whether to stop before anything is read -/
  noOp : Bool := false
  deriving Repr, DecidableEq

inductive Command where
  | compile (command : CompileCommand)
  | hash (inputs : InputSettings)
  | version
  | help
  deriving Repr, DecidableEq

namespace Arguments

/-- what an option is for -/
inductive Name where
  | input
  | scanImplementations
  | id
  | dictionaryKeys
  | maxDepth
  | dialect
  | out
  | denyDiagnostics
  | noOp
  | help
  deriving Repr, DecidableEq

/-- how many values an option takes -/
inductive Arity where
  | none
  | one
  | many
  deriving Repr, DecidableEq

def Name.arity : Name → Arity
  | input => .many
  | id | dictionaryKeys | maxDepth | dialect | out => .one
  | scanImplementations | denyDiagnostics | noOp | help => .none

/-- the options of a command, by their long names and by their letters -/
structure Names where
  long : List (String × Name)
  short : List (Char × Name)

def compileNames : Names where
  long := [
    ("input", .input), ("scan-implementations", .scanImplementations), ("id", .id),
    ("dictionary-keys", .dictionaryKeys), ("max-depth", .maxDepth), ("dialect", .dialect), ("out", .out),
    ("deny-diagnostics", .denyDiagnostics), ("no-op", .noOp), ("help", .help)]
  short := [('i', .input), ('o', .out), ('h', .help)]

def hashNames : Names where
  long := [("input", .input), ("scan-implementations", .scanImplementations), ("help", .help)]
  short := [('i', .input), ('h', .help)]

/-- why the reading ends before its end -/
inductive Stop where
  | help
  /-- the command line is wrong -/
  | usage
  deriving Repr, DecidableEq

/-- what has been given so far -/
structure Draft where
  input : List String := []
  scanImplementations : Bool := false
  options : OptionSettings := {}
  out : Option String := none
  denyDiagnostics : Bool := false
  noOp : Bool := false

/-- a value that may be given once -/
def once {α : Type} (slot value : Option α) : Except Stop (Option α) :=
  match slot, value with
  | none, some value => .ok (some value)
  | _, _ => .error .usage

/-- a flag that may be given once -/
def raise (flag : Bool) : Except Stop Bool :=
  if flag then .error .usage else .ok true

/-- A number that fits in 64 bits, in decimal digits. A plus sign may stand before it. -/
def count? (text : String) : Option Nat :=
  let digits := match text.toList with
    | '+' :: rest => rest
    | all => all
  if digits.isEmpty || !digits.all Char.isDigit then none
  else
    let n := digits.foldl (fun n d => n * 10 + (d.toNat - '0'.toNat)) 0
    if n < Nat.pow 2 64 then some n else none

/-- a path, which may not be empty -/
def path? (text : String) : Option String :=
  if text.isEmpty then none else some text

/-- Takes in an option with its values. -/
def Draft.take (draft : Draft) (name : Name) (values : List String) : Except Stop Draft := do
  let options := draft.options
  match name, values with
  | .input, [] => .error .usage
  | .input, values => return { draft with input := draft.input ++ values }
  | .id, [value] => return { draft with options := { options with id := ← once options.id value } }
  | .dictionaryKeys, [value] =>
    let mode := List.lookup value KeyMode.named
    return { draft with options := { options with dictionaryKeys := ← once options.dictionaryKeys mode } }
  | .maxDepth, [value] =>
    return { draft with options := { options with maxDepth := ← once options.maxDepth (count? value) } }
  | .dialect, [value] => return { draft with options := { options with dialect := ← once options.dialect value } }
  | .out, [value] => return { draft with out := ← once draft.out (path? value) }
  | .scanImplementations, [] =>
    return { draft with scanImplementations := ← raise draft.scanImplementations }
  | .denyDiagnostics, [] => return { draft with denyDiagnostics := ← raise draft.denyDiagnostics }
  | .noOp, [] => return { draft with noOp := ← raise draft.noOp }
  | .help, [] => .error .help
  | _, _ => .error .usage

/-- where the reading stands: what is given, the option that waits for values, and those it has -/
structure State where
  draft : Draft := {}
  waiting : Option (Name × List String) := none
  /-- whether two dashes have ended the options -/
  ended : Bool := false

/-- Takes in the option that waits for values. -/
def State.close (state : State) : Except Stop Draft :=
  match state.waiting with
  | some (name, values) => state.draft.take name values
  | none => .ok state.draft

/-- an option, with the value that is attached to it, if one is -/
def State.open (draft : Draft) (name : Name) (attached : Option String) : Except Stop State :=
  match name.arity, attached with
  | .none, none => do return { draft := ← draft.take name [] }
  | .none, some _ => .error .usage
  | _, some value => do return { draft := ← draft.take name [value] }
  | _, none => .ok { draft, waiting := some (name, []) }

/-- a text up to an equals sign, and what follows the sign, if there is one -/
def splitEquals (text : List Char) : String × Option String :=
  match text.dropWhile (· != '=') with
  | _ :: rest => (String.ofList (text.takeWhile (· != '=')), some (String.ofList rest))
  | [] => (String.ofList text, none)

/-- what is attached to a letter; an equals sign before it does not belong to it -/
def attachedTo : List Char → Option String
  | [] => none
  | '=' :: rest => some (String.ofList rest)
  | rest => some (String.ofList rest)

/-- an option by its letter, behind one dash -/
def State.openShort (names : Names) (draft : Draft) (letter : Char) (rest : List Char) : Except Stop State :=
  match List.lookup letter names.short with
  | some .help => .error .help
  | some name => State.open draft name (attachedTo rest)
  | none => .error .usage

/-- an option by its long name, behind two dashes -/
def State.openLong (names : Names) (draft : Draft) (text : List Char) : Except Stop State :=
  let (long, attached) := splitEquals text
  match List.lookup long names.long with
  | some name => State.open draft name attached
  | none => .error .usage

/-- a word that is no option -/
def State.value (state : State) (word : String) : Except Stop State :=
  match state.waiting with
  | none => .error .usage
  | some (name, values) =>
    match name.arity with
    | .many => .ok { state with waiting := some (name, values ++ [word]) }
    | _ => do return { draft := ← state.draft.take name [word] }

/-- Takes in one word. -/
def State.step (names : Names) (state : State) (word : String) : Except Stop State :=
  if state.ended then .error .usage
  else
    match word.toList with
    | ['-', '-'] => do return { draft := ← state.close, ended := true }
    | '-' :: '-' :: text => do State.openLong names (← state.close) text
    | '-' :: letter :: rest => do State.openShort names (← state.close) letter rest
    | _ => state.value word

/-- what the words behind the name of a command give -/
def read (names : Names) (words : List String) : Except Stop Draft := do
  let state ← words.foldlM (State.step names) {}
  let draft ← state.close
  if draft.input.isEmpty then .error .usage else return draft

def Draft.inputs (draft : Draft) : InputSettings where
  input := draft.input
  scanImplementations := draft.scanImplementations

def Draft.toCompile (draft : Draft) : CompileCommand where
  inputs := draft.inputs
  options := draft.options
  out := draft.out
  denyDiagnostics := draft.denyDiagnostics
  noOp := draft.noOp

/-- the command, unless the reading was stopped -/
def settle (result : Except Stop Command) : Option Command :=
  match result with
  | .ok command => some command
  | .error .help => some .help
  | .error .usage => none

end Arguments

/-- Reads a command line; none if it is wrong. -/
def Command.parse (words : List String) : Option Command :=
  match words with
  | "compile" :: rest =>
    Arguments.settle ((Command.compile ∘ Arguments.Draft.toCompile) <$> Arguments.read Arguments.compileNames rest)
  | "hash" :: rest =>
    Arguments.settle ((Command.hash ∘ Arguments.Draft.inputs) <$> Arguments.read Arguments.hashNames rest)
  | ["help"] | ["help", "compile"] | ["help", "hash"] | ["help", "help"] => some .help
  | "--version" :: _ => some .version
  | "--help" :: _ => some .help
  | word :: _ =>
    match word.toList with
    | '-' :: 'V' :: _ => some .version
    | '-' :: 'h' :: _ => some .help
    | _ => none
  | [] => none

end GraphSchema
