import ProjectGraph.FileTree.Basic
import ProjectGraph.Wildcard.Parse

/-! # Searching a file tree

A search pattern selects paths below a root, component by component: a plain name is looked up, a
component with wildcards is matched against the entries of a directory, and `**` stands for a
directory and all directories below it. Results come in the order of their components.

An entry whose name starts with a dot is hidden, unless some segment of the search pattern starts with
a dot and matches that name. -/

namespace ProjectGraph

/-- One component of a search pattern. -/
inductive Segment where
  /-- An entry of this name, or `..`. -/
  | name (text : String)
  /-- Every entry whose name matches. -/
  | wild (pattern : Wildcard)
  /-- This directory and all directories below it. -/
  | deep
  deriving DecidableEq, Repr

structure SearchPattern where
  segments : List Segment
  /-- A slash at the end asks for directories. -/
  directoriesOnly : Bool
  deriving DecidableEq, Repr

namespace SearchPattern

/-- Does the text hold two stars side by side? -/
def hasDeep : List Char → Bool
  | '*' :: '*' :: _ => true
  | _ :: cs => hasDeep cs
  | [] => false

def parseSegment (text : String) : Except FileError Segment :=
  if text = "**" then .ok .deep
  else if hasDeep text.toList then .error .partialDeep
  else if Wildcard.isPattern text then .ok (.wild (Wildcard.parse text))
  else .ok (.name text)

/-- A run of `**` selects what one `**` selects. -/
def mergeDeep : List Segment → List Segment :=
  List.foldr (fun s rest => if s = .deep ∧ rest.head? = some .deep then rest else s :: rest) []

def parse (pattern : String) : Except FileError SearchPattern :=
  if pattern = "" then .error .emptyPattern
  else
    let path := PathName.parse pattern
    let trailingSlash := pattern.toList.getLast? = some '/'
    if path.IsAbsolute then .error .absolutePattern
    else if path.components = [] then .error (.voidPattern trailingSlash)
    else do
      let segments ← path.components.mapM parseSegment
      return ⟨mergeDeep segments, trailingSlash⟩

end SearchPattern

namespace FileTree

variable (t : FileTree)

/-- Refuses to list a directory whose path is too long. -/
def checkLength (p : PathName) : Except FileError Unit :=
  if IsTooLong p then .error (.nameTooLong p.text) else .ok ()

/-- The paths that the segments select from the directory at `pos`. `spelled` is the path that led
there; with `directoriesOnly` the last segment, too, selects directories only. -/
def select (root : PathName) (directoriesOnly : Bool) :
    List Segment → (pos : Position) → (spelled : List String) →
      Except FileError (List (List String))
  | [], _, spelled => .ok [spelled]
  | .name text :: rest, pos, spelled => do
    let spelled := spelled ++ [text]
    let path : PathName := root ++ ⟨0, spelled⟩
    if HasNull text then return []
    checkLength path
    match t.step pos text with
    | .error .nameTooLong => throw (.nameTooLong path.text)
    | .error _ => return []
    | .ok pos =>
      if (directoriesOnly || !rest.isEmpty) && t.entryAt pos != some .directory then return []
      else select root directoriesOnly rest pos spelled
  | .wild pattern :: rest, pos, spelled => do
    checkLength (root ++ ⟨0, spelled⟩)
    let found ← (t.children pos).mapM fun (name, e) =>
      if (directoriesOnly || !rest.isEmpty) && e != .directory then .ok []
      else if pattern.fits name then
        select root directoriesOnly rest (pos ++ [name]) (spelled ++ [name])
      else .ok []
    return found.flatten
  | .deep :: rest, pos, spelled => do
    let found ← ([] :: t.directoriesBelow pos).mapM fun names => do
      let selected ← select root directoriesOnly rest (pos ++ names) (spelled ++ names)
      checkLength (root ++ ⟨0, spelled ++ names⟩)
      return selected
    return found.flatten

/-- Inserts a path into a list of paths in increasing order, unless it is there already. -/
def insertPath (p : List String) : List (List String) → List (List String)
  | [] => [p]
  | q :: qs =>
    if p < q then p :: q :: qs
    else if p = q then q :: qs
    else q :: insertPath p qs

/-- The paths in increasing order, each once. -/
def sortPaths (paths : List (List String)) : List (List String) :=
  paths.foldr insertPath []

/-- The paths below `root` that a pattern selects, by their components from the root on. -/
def search (root : PathName) (pattern : String) : Except FileError (List (List String)) := do
  let parsed ← SearchPattern.parse pattern
  if ← t.isDirectory root then
    match t.locate root with
    | .ok pos => return sortPaths (← t.select root parsed.directoriesOnly parsed.segments pos [])
    | .error _ => return []
  else return []

/-! ## Hidden and excluded paths -/

/-- Is the path matched by one of the patterns? -/
def isExcluded (path : String) (exclude : List (List String)) : Bool :=
  exclude.any fun patterns => patterns.any fun pattern => Wildcard.accepts pattern path

def startsWithDot (text : String) : Bool := text.toList.head? = some '.'

/-- Is some component of the path hidden from the pattern? -/
def isHidden (path pattern : String) : Bool :=
  let dotted := (Text.split '/' pattern).filter startsWithDot
  (Text.split '/' path).any fun part =>
    startsWithDot part && !dotted.any fun segment => Wildcard.accepts segment part

/-- The visible paths below `root` that a pattern selects. -/
def visibleFiles (root : PathName) (pattern : String) : Except FileError (List String) := do
  let found ← t.search root pattern
  return (found.map fun p => (⟨0, p⟩ : PathName).text).filter fun path => !isHidden path pattern

/-- The files that each of the patterns selects, less those that `exclude` takes away. -/
def resolveFiles (root : PathName) (patterns : List String)
    (exclude : Option (List (List String))) : Except FileError (List (List String)) := do
  let excluded := exclude.getD []
  let found ← patterns.mapM (t.visibleFiles root)
  if excluded = [] then return found
  return found.map fun paths => paths.filter fun path => !isExcluded path excluded

end FileTree
end ProjectGraph
