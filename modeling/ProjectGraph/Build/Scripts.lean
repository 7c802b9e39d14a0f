import ProjectGraph.Build.Basic
import ProjectGraph.Build.CopyScript
import ProjectGraph.Project.Phases

/-! # Script phases of a target

The scripts of a target run in its slots: one slot for each script of a stage, by its index, and one
for copying frameworks. -/

namespace ProjectGraph

/-- When the scripts of a target run. -/
structure Stage where
  name : String
  deriving DecidableEq, Repr

namespace Stage

/-- Before the files are built. -/
def pre : Stage := ⟨"pre"⟩

/-- After the files have been built. -/
def post : Stage := ⟨"post"⟩

end Stage

/-- The slot of the script at an index. -/
def scriptSlot (stage : Stage) (index : Nat) : String := stage.name ++ ":" ++ toString index

/-- The slot of the script that copies frameworks. -/
def copyFrameworksSlot : String := "copy-frameworks"

/-- The name of the phase that copies frameworks. -/
def copyFrameworksName : String := "Copy Carthage Frameworks"

namespace Project

variable [IdScheme]

/-- Gives the slots of a stage, from an index on, these scripts. -/
def addScriptsFrom (t : ObjectId) (stage : Stage) : (index : Nat) → List Script → Edit Unit
  | _, [] => return
  | index, script :: rest => do
    addScriptPhase t (scriptSlot stage index) script
    addScriptsFrom t stage (index + 1) rest

/-- Gives the slots of a stage the scripts that a target declares. -/
def addBuildScripts (t : ObjectId) (stage : Stage) : Option (List Script) → Edit Unit
  | none => return
  | some scripts => addScriptsFrom t stage 0 scripts

end Project

namespace Builder

/-- Where the script is installed. -/
def templatePath (b : Builder) : Option PathName :=
  b.scriptsDirectory.map fun directory => b.root ++ directory ++ .single CopyScript.fileName

/-- How a script phase runs the installed script. -/
def runInstalled (directory : PathName) : String :=
  let path : PathName := .single "${SRCROOT}" ++ directory ++ .single CopyScript.fileName
  "exec \"" ++ path.text ++ "\""

end Builder

namespace Build

/-- Installs the script, over an older one, unless this builder has done so. -/
def installTemplate : Build Unit := do
  let b := (← get).builder
  if b.templateInstalled then return
  match b.templatePath with
  | none => throw .noScriptsDirectory
  | some path =>
    say ("copying " ++ CopyScript.fileName ++ " to " ++ path.parent.text)
    editTree (FileTree.ensureDirectories path.parent)
    editTree (FileTree.installFile path CopyScript.fileName CopyScript.text)
    modify fun s => { s with builder.templateInstalled := true }

/-- Has a target copy frameworks: by the installed script, or by its text without a directory for
scripts. -/
def addCopyFrameworksPhase [IdScheme] (t : ObjectId) (frameworks : List String) : Build Unit := do
  let body ← match (← get).builder.scriptsDirectory with
    | none => pure CopyScript.text
    | some directory => do
      installTemplate
      pure (Builder.runInstalled directory)
  edit (Project.addScriptPhase t copyFrameworksSlot ⟨copyFrameworksName, body, frameworks⟩)

end Build
end ProjectGraph
