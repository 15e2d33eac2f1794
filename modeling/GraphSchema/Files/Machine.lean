import GraphSchema.Files.Host

/-!
A machine as a value: a tree of directories and text files, the directory that relative paths start from,
and what has been written to the streams. It has no links and no permissions.

- `Machine.instHost` runs commands on it.
-/

namespace GraphSchema

/-- a place in the tree: the names on the way down from the root -/
abbrev Location := List String

structure Machine where
  /-- the directories apart from the root -/
  directories : List Location := []
  files : List (Location × String) := []
  /-- where relative paths start -/
  current : Location := []
  printed : String := ""
  reported : String := ""
  deriving Inhabited

namespace Machine

def hasDirectory (machine : Machine) (location : Location) : Bool :=
  location.isEmpty || machine.directories.contains location

def fileAt? (machine : Machine) (location : Location) : Option String :=
  List.lookup location machine.files

def hasFile (machine : Machine) (location : Location) : Bool :=
  (machine.fileAt? location).isSome

/-- the longest name and the longest path, in bytes -/
def maxName : Nat := 255

def maxPath : Nat := 4095

/-- one step down, or up -/
def follow (location : Location) (name : String) : Location :=
  if name = ".." then location.dropLast
  else if name = "." then location
  else location ++ [name]

/-- Goes along names from a location. All but the last one have to be directories. -/
def walk (machine : Machine) (location : Location) : List String → Except FileError Location
  | [] => .ok location
  | name :: rest =>
    if machine.hasFile location then .error .notDirectory
    else if !machine.hasDirectory location then .error .notFound
    else if maxName < name.utf8ByteSize then .error .nameTooLong
    else machine.walk (follow location name) rest

/-- The location that a path leads to; nothing need be there. -/
def locate (machine : Machine) (path : String) : Except FileError Location :=
  if path.isEmpty then .error .notFound
  else if path.toList.contains '\x00' then .error .nulInName
  else if maxPath < path.utf8ByteSize then .error .nameTooLong
  else
    let start := if FilePath.isAbsolute path then [] else machine.current
    machine.walk start ((FilePath.parts path).filter (· != ""))

/-- The location of something that is there. A slash at the end of the path asks for a directory. -/
def find (machine : Machine) (path : String) : Except FileError Location := do
  let location ← machine.locate path
  if machine.hasDirectory location then return location
  else if machine.hasFile location then
    if FilePath.endsInSlash path then .error .notDirectory else return location
  else .error .notFound

def isDirectory (machine : Machine) (path : String) : Bool :=
  match machine.find path with
  | .ok location => machine.hasDirectory location
  | .error _ => false

def isPresent (machine : Machine) (path : String) : Bool :=
  (machine.find path).toBool

def read (machine : Machine) (path : String) : Except FileError String := do
  let location ← machine.find path
  match machine.fileAt? location with
  | some content => return content
  | none => .error .isDirectory

/-- Writes a file at a location, in place if there is one. -/
def putFile (files : List (Location × String)) (location : Location) (content : String) :
    List (Location × String) :=
  match files with
  | [] => [(location, content)]
  | (l, old) :: rest =>
    if l = location then (l, content) :: rest else (l, old) :: putFile rest location content

/-- Writes a file. The directory it lies in has to be there. -/
def write (machine : Machine) (path content : String) : Except FileError Machine := do
  let location ← machine.locate path
  if FilePath.endsInSlash path || machine.hasDirectory location then .error .isDirectory
  else return { machine with files := putFile machine.files location content }

/-- Makes a directory. The one it lies in has to be there. -/
def makeDirectory (machine : Machine) (path : String) : Except FileError Machine := do
  let location ← machine.locate path
  if machine.hasDirectory location || machine.hasFile location then .error .alreadyExists
  else return { machine with directories := machine.directories ++ [location] }

/-- the last name of a location that lies directly in a directory -/
def nameIn? (directory location : Location) : Option String :=
  if location.dropLast = directory then location.getLast? else none

def list (machine : Machine) (path : String) : Except FileError (List String) := do
  let location ← machine.find path
  if machine.hasDirectory location then
    return (machine.directories ++ machine.files.map (·.1)).filterMap (nameIn? location)
  else .error .notDirectory

/-- Runs an operation that changes the machine if it succeeds. -/
def change (operation : Machine → Except FileError Machine) : StateM Machine (Except FileError Unit) :=
  fun machine =>
    match operation machine with
    | .ok changed => (.ok (), changed)
    | .error error => (.error error, machine)

instance instHost : Host (StateM Machine) where
  read path := do return (← get).read path
  write path content := change (·.write path content)
  makeDirectory path := change (·.makeDirectory path)
  list path := do return (← get).list path
  isDirectory path := do return (← get).isDirectory path
  isPresent path := do return (← get).isPresent path
  print text := modify fun machine => { machine with printed := machine.printed ++ text }
  report text := modify fun machine => { machine with reported := machine.reported ++ text }

/-- a machine with a directory, and with those that it lies in -/
def addDirectory (machine : Machine) (location : Location) : Machine :=
  (List.range (location.length + 1)).foldl (fun acc count =>
    let above := location.take count
    if acc.hasDirectory above then acc else { acc with directories := acc.directories ++ [above] }) machine

/-- a machine with a file, and with the directories that it lies in -/
def addFile (machine : Machine) (location : Location) (content : String) : Machine :=
  let machine := machine.addDirectory location.dropLast
  { machine with files := putFile machine.files location content }

end Machine

end GraphSchema
