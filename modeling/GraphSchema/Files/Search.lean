import GraphSchema.Files.Host
import GraphSchema.Files.Pattern

/-!
Finding the files that a pattern stands for.

A pattern is split at its slashes, and its components are matched from the directory on top downwards. Names
without wildcards are looked up; for the others the directory is listed, in the order of the names, and each
entry is followed to its end before the next one.
-/

namespace GraphSchema

/-- messages, the outermost first -/
abbrev Chain := List String

namespace Search

variable {m : Type → Type} [Monad m] [Host m]

/-- a path and the components that are still to be matched, if it is not matched to the end; the first of
them stands for the name of the path itself -/
abbrev Candidate := String × Option (List (List Pattern.Token))

/-- What lies in a directory, given the components that are left: the entries to be matched against the first
of them. A name without wildcards is followed at once. -/
def expand (path : String) : List (List Pattern.Token) → ExceptT Chain m (List Candidate)
  | [] => return []
  | tokens :: rest => do
    let enter (next : String) : ExceptT Chain m (List Candidate) :=
      if rest.isEmpty then return [(next, none)] else expand next rest
    match Pattern.literal? tokens with
    | some name =>
      let next := if FilePath.isHere path then name else FilePath.join path name
      let found ← if name = "." ∨ name = ".." then Host.isDirectory path else Host.isPresent next
      if found then enter next else return []
    | none =>
      if !(← Host.isDirectory path) then return []
      else
        match ← Host.list path with
        | .error error =>
          throw ["attempting to read `" ++ path ++ "` resulted in an error: " ++ error.message]
        | .ok names =>
          let sorted := names.mergeSort fun a b => decide (a ≤ b)
          let entries := sorted.map fun name =>
            (if FilePath.isHere path then name else FilePath.join path name, some (tokens :: rest))
          let special (name : String) : ExceptT Chain m (List Candidate) :=
            if tokens.head? = some (.char '.') && Pattern.matchesName tokens name then
              enter (FilePath.join path name)
            else return []
          return (← special "..") ++ (← special ".") ++ entries

/-- what a step gives for all candidates, one after the other -/
def inOrder (step : Candidate → ExceptT Chain m (List String)) : List Candidate → ExceptT Chain m (List String)
  | [] => return []
  | candidate :: rest => do
    let paths ← step candidate
    return paths ++ (← inOrder step rest)

/-- Matches the name of a path against the first of its components, and what lies below, by the given step,
against the rest. -/
def matchPath (directoriesOnly : Bool) (step : Candidate → ExceptT Chain m (List String)) (path : String) :
    List (List Pattern.Token) → ExceptT Chain m (List String)
  | [] => return []
  | tokens :: rest => do
    if ((FilePath.fileName? path).map (Pattern.matchesName tokens)).getD false then
      if rest.isEmpty then
        if directoriesOnly && !(← Host.isDirectory path) then return [] else return [path]
      else inOrder step (← expand path rest)
    else return []

/-- the paths that come out of a candidate, given a step for those below it -/
def follow (directoriesOnly : Bool) (step : Candidate → ExceptT Chain m (List String)) :
    Candidate → ExceptT Chain m (List String)
  | (path, none) => do
    if directoriesOnly && !(← Host.isDirectory path) then return [] else return [path]
  | (_, some []) => return []
  | (path, some (tokens :: rest)) => do
    if Pattern.isRecursive tokens then
      let behind := rest.dropWhile Pattern.isRecursive
      if ← Host.isDirectory path then
        let inside ← expand path (tokens :: behind)
        let here ← if behind.isEmpty then pure [path] else matchPath directoriesOnly step path behind
        return here ++ (← inOrder step inside)
      else matchPath directoriesOnly step path behind
    else matchPath directoriesOnly step path (tokens :: rest)

/-- the paths that come out of a candidate and lie at most so many levels below it -/
def visit (directoriesOnly : Bool) : Nat → Candidate → ExceptT Chain m (List String)
  | 0, _ => return []
  | levels + 1, candidate => follow directoriesOnly (visit directoriesOnly levels) candidate

/-- No path that can be opened has more components. -/
def maxLevels : Nat := 4096

/-- the components of a pattern behind its root; a slash at the end adds none -/
def componentTexts (pattern : String) : List String :=
  let parts := FilePath.parts pattern
  let parts := if FilePath.isAbsolute pattern then parts.drop 1 else parts
  if parts.getLast? = some "" then parts.dropLast else parts

/-- The paths that a pattern stands for. -/
def paths (pattern : String) : ExceptT Chain m (List String) := do
  let parsed := do
    let _ ← Pattern.parse pattern
    (componentTexts pattern).mapM Pattern.parse
  match parsed with
  | .error error => throw ["bad glob pattern: " ++ pattern, error.text]
  | .ok components =>
    let start := if FilePath.isAbsolute pattern then "/" else "."
    inOrder (visit (FilePath.endsInSlash pattern) maxLevels) (← expand start components)

end Search

end GraphSchema
