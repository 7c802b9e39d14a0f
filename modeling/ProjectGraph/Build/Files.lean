import ProjectGraph.Project.Groups
import ProjectGraph.Project.Phases

/-! # Filing the files of a target

A path that a project knows already is filed where it is: it goes into no further phase. -/

namespace ProjectGraph.Project

variable [IdScheme]

/-- The reference to a file of the project, made anew if there is none. -/
def fileReferenceFor (path : String) : Edit (Identified FileReference) := do
  let group ← groupOfFile path
  match ← findFileReference group path with
  | some f => return f
  | none => newFileReference group path

/-- Files a new path, and puts it into a phase of the target. -/
def addFile (t : ObjectId) (kind : PhaseKind) (path : String) : Edit Unit := do
  let group ← groupOfFile path
  match ← findFileReference group path with
  | some _ => return
  | none => addFileToPhase t kind (← newFileReference group path)

/-- Files the new ones among the paths, in order. -/
def addFiles (t : ObjectId) (kind : PhaseKind) (paths : List (List String)) : Edit Unit :=
  paths.forM fun paths => paths.forM (addFile t kind)

/-- Files the information property list of a target, which is in no phase. -/
def addInfoPlist (path : String) : Edit Unit := discard <| fileReferenceFor path

/-- What makes a header public. -/
def publicHeader : Settings := ⟨[("ATTRIBUTES", .list ["Public"])], by decide⟩

/-- Puts the header of a target into its headers phase, wherever the header is filed. -/
def addFrameworkHeader (t : ObjectId) : Option String → Edit Unit
  | none => return
  | some path => do addFileToPhase t .headers (← fileReferenceFor path) (some publicHeader)

end ProjectGraph.Project
