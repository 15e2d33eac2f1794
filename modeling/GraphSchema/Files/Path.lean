/-!
Paths of files, as texts with slashes.

A path is kept as it is written; its components leave out empty parts, and dots except at the start.
-/

namespace GraphSchema.FilePath

/-- the parts of a text between slashes -/
def splitChars (begun : List Char) : List Char → List (List Char)
  | [] => [begun.reverse]
  | c :: rest => if c = '/' then begun.reverse :: splitChars [] rest else splitChars (c :: begun) rest

/-- the parts of a path between slashes, empty ones included -/
def parts (path : String) : List String :=
  (splitChars [] path.toList).map String.ofList

def isAbsolute (path : String) : Bool :=
  path.toList.head? == some '/'

/-- whether a slash ends the path -/
def endsInSlash (path : String) : Bool :=
  path.toList.getLast? == some '/'

/-- whether a part behind the first one counts for nothing -/
def isIdle (part : String) : Bool :=
  part == "" || part == "."

/-- the components of a path; an absolute one starts with the root `/` -/
def components (path : String) : List String :=
  match parts path with
  | [] => []
  | first :: rest =>
    let behind := rest.filter (!isIdle ·)
    if isAbsolute path then "/" :: behind
    else if first = "" then behind
    else first :: behind

/-- whether a path is the working directory by name -/
def isHere (path : String) : Bool :=
  components path == ["."]

/-- Appends a path; an absolute one replaces what it is appended to. -/
def join (path name : String) : String :=
  if isAbsolute name || path.isEmpty then name
  else if endsInSlash path then path ++ name
  else path ++ "/" ++ name

/-- Drops idle parts at the end, but never the first part. -/
def trimIdle : List String → List String
  | [] => []
  | first :: rest => first :: (rest.reverse.dropWhile isIdle).reverse

/-- The path without its last component; none for a path that has no component or is the root. -/
def parent? (path : String) : Option String :=
  match components path with
  | [] => none
  | ["/"] => none
  | _ =>
    let above := trimIdle (trimIdle (parts path)).dropLast
    if above == [""] then some "/" else some (String.intercalate "/" above)

/-- the last component, if it names something -/
def fileName? (path : String) : Option String :=
  match (components path).getLast? with
  | some name => if name == "/" || name == "." || name == ".." then none else some name
  | none => none

/-- A name up to its last dot. A dot at the start does not count. -/
def stem (name : String) : String :=
  match (name.toList.reverse.dropWhile (· != '.')).reverse.dropLast with
  | [] => name
  | before => String.ofList before

/-- the name of the file without its last extension -/
def fileStem? (path : String) : Option String :=
  (fileName? path).map stem

/-- Takes an ending off a text that has it. -/
def dropEnding (text ending : String) : String :=
  if ending.toList.isSuffixOf text.toList then
    String.ofList (text.toList.take (text.toList.length - ending.toList.length))
  else text

/-- whether a text has an ending -/
def hasEnding (text ending : String) : Bool :=
  ending.toList.isSuffixOf text.toList

/-- A path and the paths above it, as long as they name something; there are at most as many as given. -/
def ancestorsWithin : Nat → String → List String
  | 0, _ => []
  | count + 1, path =>
    match parent? path with
    | none => []
    | some above => path :: ancestorsWithin count above

/-- a path and the paths above it, the longest first -/
def ancestors (path : String) : List String :=
  ancestorsWithin (parts path).length path

end GraphSchema.FilePath
