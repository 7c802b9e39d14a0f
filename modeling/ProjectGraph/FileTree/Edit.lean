import ProjectGraph.FileTree.Basic

/-! # Changing a file tree

Directories are made with the ones above them, and what has been made stays when a later step fails.
A path that is a directory already, or a link to the directory above, counts as made. -/

namespace ProjectGraph

/-- A change of the file tree that can fail halfway. -/
abbrev TreeEdit := EStateM FileError FileTree

namespace FileTree

/-- Makes one directory inside an existing one. -/
def makeDirectory (p : PathName) : TreeEdit Unit := do
  let t ← get
  if p.components.any fun name => HasNull name then throw .nullCharacter
  match t.locate p, p.components.getLast? with
  | .ok _, _ => throw (.alreadyExists p.text)
  | .error .notADirectory, _ => throw (.notADirectory p.text)
  | .error .nameTooLong, _ => throw (.nameTooLong p.text)
  | .error .missing, none => throw (.noSuchFile p.text)
  | .error .missing, some name =>
    match t.locate p.parent with
    | .ok pos =>
      if name = ".." then throw (.noSuchFile p.text) else set (t.put (pos ++ [name]) .directory)
    | .error _ => throw (.noSuchFile p.text)

/-- Accepts a failure to make a directory that is there. -/
def orPresent (p : PathName) (e : FileError) : TreeEdit Unit := do
  match (← get).isDirectory p with
  | .ok true => pure ()
  | .ok false => throw e
  | .error tooLong => throw tooLong

/-- Makes a directory, unless it is there already. -/
def ensureDirectory (p : PathName) : TreeEdit Unit := fun t =>
  match makeDirectory p t with
  | .ok () t => .ok () t
  | .error .nullCharacter t => .error .nullCharacter t
  | .error (.noSuchFile path) t => .error (.noSuchFile path) t
  | .error e t => orPresent p e t

/-- Makes the directory of the reversed components, and first those above it that are missing. -/
def ensureDirectoriesBelow (slashes : Nat) : List String → TreeEdit Unit
  | [] => ensureDirectory ⟨slashes, []⟩
  | name :: above => fun t =>
    let p : PathName := ⟨slashes, (name :: above).reverse⟩
    match makeDirectory p t with
    | .ok () t => .ok () t
    | .error .nullCharacter t => .error .nullCharacter t
    | .error (.noSuchFile _) t =>
      (do ensureDirectoriesBelow slashes above; ensureDirectory p : TreeEdit Unit) t
    | .error e t => orPresent p e t

/-- Makes a directory and those above it, as far as they are missing. -/
def ensureDirectories (p : PathName) : TreeEdit Unit :=
  ensureDirectoriesBelow p.slashes p.components.reverse

/-- Goes down along names from a directory, making the directories that are missing. -/
def descend (pos : Position) : List String → TreeEdit Position
  | [] => return pos
  | name :: rest => do
    if name = ".." then descend pos.dropLast rest
    else
      let next := pos ++ [name]
      if ((← get).entryAt next).isNone then modify fun t => t.put next .directory
      descend next rest

/-- Writes a file into an existing directory. -/
def writeFile (p : PathName) (content : String) : TreeEdit Unit := do
  let t ← get
  if IsTooLong p then throw (.nameTooLong p.text)
  match t.locate p.parent, p.components.getLast? with
  | .ok pos, some name =>
    if t.entryAt (pos ++ [name]) = some .directory then throw (.isADirectory p.text)
    else set (t.put (pos ++ [name]) (.file content))
  | _, _ => throw (.noSuchFile p.text)

/-- Writes a file named `name`: at the path itself, or inside it if the path is a directory. -/
def installFile (p : PathName) (name content : String) : TreeEdit Unit := do
  match (← get).isDirectory p with
  | .ok true => writeFile (p ++ .single name) content
  | _ => writeFile p content

end FileTree
end ProjectGraph
