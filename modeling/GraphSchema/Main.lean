import GraphSchema.Command.Fixtures

/-!
The program. Under a name that ends in `fixtures` it checks the fixtures of a directory, under every other
name it runs the commands.
-/

namespace GraphSchema

/-- an error of the system as an error of a file -/
def FileError.ofSystem : IO.Error → FileError
  | .noFileOrDirectory .. => .notFound
  | .alreadyExists .. => .alreadyExists
  | .inappropriateType .. => .isDirectory
  | .userError _ => .notText
  | error => .other (toString error)

/-- the result of an action, with its error as a value -/
def attempt {α : Type} (action : IO α) : IO (Except FileError α) := do
  match ← action.toBaseIO with
  | .ok value => return .ok value
  | .error error => return .error (.ofSystem error)

instance instHostSystem : Host IO where
  read path := attempt do
    if ← ((← IO.currentDir) / path).isDir then
      throw (.inappropriateType none 21 "is a directory")
    IO.FS.readFile path
  write path content := attempt do
    if ← ((← IO.currentDir) / path).isDir then
      throw (.inappropriateType none 21 "is a directory")
    IO.FS.writeFile path content
  makeDirectory path := attempt (IO.FS.createDir path)
  list path := attempt do
    let entries ← ((← IO.currentDir) / path).readDir
    return (entries.map (·.fileName)).toList
  isDirectory path := do ((← IO.currentDir) / path).isDir
  isPresent path := do ((← IO.currentDir) / path).pathExists
  print text := do (← IO.getStdout).putStr text
  report text := do (← IO.getStderr).putStr text

end GraphSchema

open GraphSchema in
def main (words : List String) : IO UInt32 := do
  let name := (← IO.appPath).fileStem.getD ""
  let code ← if FilePath.hasEnding name "fixtures" then Fixtures.runCommandLine words else runCommandLine words
  return code.toUInt32
