import GraphSchema.Command.Arguments
import GraphSchema.Compile.Document
import GraphSchema.Files.Search
import GraphSchema.Hash.Graph

/-!
Running commands on a machine.

A command first reads all its documents and computes all its results, and only then writes: one document that
cannot be read or compiled leaves the machine as it was.
-/

namespace GraphSchema

/-- a step of a command; it fails with a chain of messages -/
abbrev Run (m : Type → Type) := ExceptT Chain m

/-- puts a message before the error of a result -/
def withContext {m : Type → Type} [Monad m] {ε α : Type} (context : String) (describe : ε → Chain)
    (result : Except ε α) : Run m α :=
  liftExcept (result.mapError fun error => context :: describe error)

/-- the chain of a text that cannot be read as a document -/
def failureChain (failure : Reading.Failure) : Chain :=
  [failure.message, failure.detail]

section

variable {m : Type → Type} [Monad m] [Host m]

/-! ## Reading -/

/-- whether a word is a pattern and not a path -/
def isPattern (word : String) : Bool :=
  word.toList.any fun c => c == '*' || c == '?' || c == '[' || c == '\x7b'

/-- the paths that a word stands for -/
def resolve (word : String) : Run m (List String) :=
  if isPattern word then do
    let paths ← Search.paths word
    if paths.isEmpty then throw ["glob pattern matched no files: " ++ word] else return paths
  else return [word]

/-- a document and the path that it was read from -/
structure Loaded where
  source : String
  document : GraphDocument

/-- Reads a document. -/
def loadDocument (scan : Bool) (source : String) : Run m Loaded := do
  let text ← withContext ("failed to read source file " ++ source) (fun error => [error.message])
    (← Host.read source)
  let document ← withContext ("failed to parse graph document " ++ source) failureChain
    (GraphDocument.ofText text)
  return { source, document := if scan then document.link else document }

/-- Reads all documents. -/
def InputSettings.load (inputs : InputSettings) : Run m (List Loaded) := do
  let sources ← inputs.input.mapM resolve
  sources.flatten.mapM (loadDocument inputs.scanImplementations)

/-! ## Compiling -/

/-- The settings for a document: those of the command line win over its own. -/
def OptionSettings.resolve (given : OptionSettings) (document : GraphDocument) : CompileOptions :=
  let own := document.options.getD {}
  { dialect := given.dialect.getD own.dialect
    dictionaryKeys := given.dictionaryKeys.getD own.dictionaryKeys
    maxDepth := given.maxDepth.getD own.maxDepth }

/-- a compiled document and the path of its source -/
structure Outcome where
  source : String
  compiled : CompiledSchema

/-- Compiles a document. -/
def compileLoaded (given : OptionSettings) (loaded : Loaded) : Except Chain Outcome :=
  let document := loaded.document
  let request := { document.request with id := given.id <|> document.request.id }
  match build document.objects request (given.resolve document) with
  | .ok compiled => .ok { source := loaded.source, compiled }
  | .error error => .error ["failed to compile " ++ loaded.source, error.message]

/-- whether there is something to say about a document -/
def Outcome.isFlagged (outcome : Outcome) : Bool :=
  !outcome.compiled.diagnostics.isEmpty

/-- what is reported on a document -/
def Outcome.summary (outcome : Outcome) : String :=
  let diagnostics := outcome.compiled.diagnostics
  let mark := if outcome.isFlagged then "!" else "✓"
  let head := mark ++ " " ++ outcome.source ++ " (" ++ toString outcome.compiled.definitions
    ++ " definition(s), " ++ toString diagnostics.length ++ " diagnostic(s))\n"
  diagnostics.foldl (fun text d => text ++ "    warning: " ++ d.text ++ "\n") head

/-- The name of the file for a document: its own hint, else the name of the source with a new ending. -/
def Outcome.fileName (outcome : Outcome) : String :=
  match outcome.compiled.fileName with
  | some hint => hint
  | none =>
    let stem := (FilePath.fileStem? outcome.source).getD "schema"
    FilePath.dropEnding stem ".graph" ++ ".schema.json"

/-- Writes a document to a file, and makes the directory for it. -/
def writeFile (target content : String) : Run m Unit := do
  match FilePath.parent? target with
  | some above =>
    withContext ("failed to create " ++ above) (fun error => [FileError.message error])
      (← Host.makeDirectories above)
  | none => pure ()
  withContext ("failed to write " ++ target) (fun error => [FileError.message error])
    (← Host.write target content)

/-- Writes a document where it belongs: to the stream of results, to a file, or into a directory. -/
def writeOutcome (out : Option String) (many : Bool) (outcome : Outcome) : Run m Unit := do
  let text := outcome.compiled.document.pretty
  match out with
  | none => Host.print (text ++ "\n")
  | some out =>
    if many || (← Host.isDirectory out) then writeFile (FilePath.join out outcome.fileName) text
    else writeFile out text

/-- Reports on a document and writes it. -/
def deliver (out : Option String) (many : Bool) (outcome : Outcome) : Run m Unit := do
  Host.report outcome.summary
  writeOutcome out many outcome

def CompileCommand.run (command : CompileCommand) : Run m Unit := do
  if command.noOp then return
  let documents ← command.inputs.load
  if command.options.id.isSome && 1 < documents.length then
    throw ["--id applies to a single input, got " ++ toString documents.length]
  let outcomes ← liftExcept (documents.mapM (compileLoaded command.options))
  outcomes.forM (deliver command.out (1 < outcomes.length))
  let flagged := outcomes.countP Outcome.isFlagged
  if command.denyDiagnostics && 0 < flagged then
    throw [toString flagged ++ " schema(s) carry diagnostics"]

/-! ## Hashing -/

/-- Prints the hash of a document's root. -/
def printHash (loaded : Loaded) : Run m Unit := do
  let document := loaded.document
  let options := document.options.getD {}
  let hash ← withContext ("failed to hash " ++ loaded.source) (fun error => [GraphError.message error])
    (document.objects.structuralHash document.request.root options.maxDepth)
  Host.print (Hash.hex hash ++ "  " ++ loaded.source ++ "\n")

/-! ## Commands -/

def versionText : String := "typegraph-schema 0.1.0\n"

def usageText : String :=
  "Usage: typegraph-schema compile --input <PATH>... [OPTIONS]\n"
    ++ "       typegraph-schema hash --input <PATH>... [--scan-implementations]\n"

def Command.run : Command → Run m Unit
  | .compile command => command.run
  | .hash inputs => do
    let documents ← inputs.load
    documents.forM printHash
  | .version => Host.print versionText
  | .help => Host.print usageText

/-- Runs a command line. The result is the exit code: 1 for a failure, 2 for a wrong command line. -/
def runCommandLine (words : List String) : m Nat := do
  match Command.parse words with
  | none =>
    Host.report usageText
    return 2
  | some command =>
    match ← ExceptT.run (Command.run command) with
    | .ok () => return 0
    | .error chain =>
      Host.report ("error: " ++ String.intercalate ": " chain ++ "\n")
      return 1

end

end GraphSchema
