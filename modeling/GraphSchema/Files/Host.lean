import GraphSchema.Files.Path

/-!
What a command needs from the machine that it runs on: files, directories, and two streams of text.
-/

namespace GraphSchema

/-- why a file operation fails -/
inductive FileError where
  | notFound
  | notDirectory
  | isDirectory
  | alreadyExists
  | nameTooLong
  | nulInName
  | notText
  | other (message : String)
  deriving Repr, DecidableEq, Inhabited

def FileError.message : FileError → String
  | notFound => "No such file or directory (os error 2)"
  | notDirectory => "Not a directory (os error 20)"
  | isDirectory => "Is a directory (os error 21)"
  | alreadyExists => "File exists (os error 17)"
  | nameTooLong => "File name too long (os error 36)"
  | nulInName => "file name contained an unexpected NUL byte"
  | notText => "stream did not contain valid UTF-8"
  | other message => message

/-- A machine: its files by path, and its streams. -/
class Host (m : Type → Type) where
  read : String → m (Except FileError String)
  write : String → String → m (Except FileError Unit)
  makeDirectory : String → m (Except FileError Unit)
  /-- the names in a directory, in any order -/
  list : String → m (Except FileError (List String))
  isDirectory : String → m Bool
  isPresent : String → m Bool
  /-- Writes to the stream of results. -/
  print : String → m Unit
  /-- Writes to the stream of messages. -/
  report : String → m Unit

/-- A step that can fail runs on the same machine. -/
instance {ε : Type} {m : Type → Type} [Monad m] [Host m] : Host (ExceptT ε m) where
  read path := ExceptT.lift (Host.read path)
  write path content := ExceptT.lift (Host.write path content)
  makeDirectory path := ExceptT.lift (Host.makeDirectory path)
  list path := ExceptT.lift (Host.list path)
  isDirectory path := ExceptT.lift (Host.isDirectory path)
  isPresent path := ExceptT.lift (Host.isPresent path)
  print text := ExceptT.lift (Host.print text)
  report text := ExceptT.lift (Host.report text)

namespace Host

variable {m : Type → Type} [Monad m] [Host m]

/-- Makes the first of a list of directories, and before it those that it lies in. -/
def makeAll : List String → m (Except FileError Unit)
  | [] => return .ok ()
  | path :: above => do
    let settle (error : FileError) : m (Except FileError Unit) := do
      return if ← isDirectory path then .ok () else .error error
    match ← makeDirectory path with
    | .ok () => return .ok ()
    | .error .notFound =>
      match ← makeAll above with
      | .error error => return .error error
      | .ok () =>
        match ← makeDirectory path with
        | .ok () => return .ok ()
        | .error error => settle error
    | .error error => settle error

/-- Makes a directory and those that it lies in. -/
def makeDirectories (path : String) : m (Except FileError Unit) :=
  makeAll (FilePath.ancestors path)

end Host

end GraphSchema
