import ProjectGraph.PathName
import ProjectGraph.Project.Basic

/-! # Groups and the files in them

Each directory has one group, whatever way its path is spelled. The group of a file is that of its
directory. -/

namespace ProjectGraph.Project

variable [IdScheme]

/-- The group of a directory inside its parent directory. -/
def newGroup (above : List String) (name : String) : Group where
  name := name
  groupId := some ("path:" ++ (⟨0, above ++ [name]⟩ : PathName).text)

/-- The group of the directory with these reversed components, made together with the groups of the
directories above it as far as they are missing. -/
def groupBelow : List String → Edit ObjectId
  | [] => return (← get).mainGroup
  | name :: above => do
    let directory := (name :: above).reverse
    match (← get).directories.get? directory with
    | some id => return id
    | none =>
      let parent ← groupBelow above
      let id ← register (.group (newGroup above.reverse name))
      addChild parent ⟨id, some name⟩
      modify fun p => { p with directories := p.directories.insert directory id }
      return id

/-- The group of a directory. An absolute directory has none. -/
def groupForPath (directory : String) : Edit ObjectId := do
  let path := PathName.normalize directory
  if path.IsAbsolute then throw (.endlessDirectory directory)
  groupBelow path.components.reverse

/-- The group of the directory that a file is in. -/
def groupOfFile (path : String) : Edit ObjectId := groupForPath (Text.directoryOf path)

omit [IdScheme] in
/-- The first file with this path among the references. -/
def findFileIn (path : String) : List Reference → Edit (Option (Identified FileReference))
  | [] => return none
  | r :: rest => do
    match (← resolve r.id).content.file? with
    | some f => if f.path = path then return some ⟨r.id, f⟩ else findFileIn path rest
    | none => findFileIn path rest

omit [IdScheme] in
/-- The first file with this path directly inside a group. -/
def findFileReference (group : ObjectId) (path : String) :
    Edit (Option (Identified FileReference)) := do
  findFileIn path (← heldAs Content.group? group).children

/-- Registers a file of the project at the end of a group. -/
def newFileReference (group : ObjectId) (path : String) : Edit (Identified FileReference) := do
  let file := FileReference.source path
  let id ← register (.file file)
  addChild group ⟨id, some file.name⟩
  return ⟨id, file⟩

end ProjectGraph.Project
