import GraphSchema.Command.Run

/-!
Fixtures: graphs beside the documents that they have to compile to.

Every file `NAME.graph.json` of a directory is compiled and compared with `NAME.expected.json`; the order of
members does not count.
-/

namespace GraphSchema

namespace Fixtures

variable {m : Type → Type} [Monad m] [Host m]

def graphEnding : String := ".graph.json"

def expectedEnding : String := ".expected.json"

/-- the path of the document that a graph has to compile to -/
def expectedPath (path : String) : String :=
  FilePath.dropEnding path graphEnding ++ expectedEnding

/-- the document of a fixture -/
def compileFixture (text : String) : Except Chain Json := do
  let document ← (GraphDocument.ofText text).mapError failureChain
  let linked := document.link
  let compiled ← (build linked.objects linked.request (linked.options.getD {})).mapError
    fun error => [error.message]
  return compiled.document

/-- The documents of a fixture, the compiled one and the expected one. -/
def load (path : String) : Run m (Json × Json) := do
  let text ← liftExcept ((← Host.read path).mapError fun error => [FileError.message error])
  let actual ← liftExcept (compileFixture text)
  let expectedText ← withContext ("missing " ++ expectedPath path) (fun error => [FileError.message error])
    (← Host.read (expectedPath path))
  let expected ← liftExcept ((Json.read expectedText).mapError fun fault => [fault.message])
  return (actual, expected)

/-- Reports on a fixture; whether it passes. -/
def check (path : String) : m Bool := do
  match ← ExceptT.run (load path) with
  | .error chain =>
    Host.report ("❌ " ++ path ++ ": " ++ String.intercalate ": " chain ++ "\n")
    return false
  | .ok (actual, expected) =>
    if Json.alike actual expected then
      Host.report ("✅ " ++ path ++ "\n")
      return true
    else
      Host.report ("❌ " ++ path ++ " differs\n— expected —\n" ++ expected.pretty ++ "\n— actual —\n"
        ++ actual.pretty ++ "\n")
      return false

/-- the text of an error that ends the run: the message and what caused it -/
def endText : Chain → String
  | [] => ""
  | [message] => "Error: " ++ message ++ "\n"
  | message :: causes =>
    "Error: " ++ message ++ "\n\nCaused by:\n    " ++ String.intercalate "\n    " causes ++ "\n"

/-- Checks the fixtures of a directory. The result is the exit code. -/
def run (directory : String) : m Nat := do
  match ← Host.list directory with
  | .error error =>
    Host.report (endText ["failed to list " ++ directory, error.message])
    return 1
  | .ok names =>
    let sorted := names.mergeSort fun a b => decide (a ≤ b)
    let graphs := (sorted.map (FilePath.join directory)).filter (FilePath.hasEnding · graphEnding)
    let results ← graphs.mapM check
    let failed := results.countP (!·)
    if 0 < failed then
      Host.report (endText [toString failed ++ " of " ++ toString graphs.length ++ " fixture(s) failed"])
      return 1
    else
      Host.report ("all " ++ toString graphs.length ++ " fixture(s) passed\n")
      return 0

/-- Runs a command line whose first word is the directory. -/
def runCommandLine (words : List String) : m Nat :=
  run (words.head?.getD "fixtures")

end Fixtures

end GraphSchema
