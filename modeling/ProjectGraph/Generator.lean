import ProjectGraph.Build.Launch
import ProjectGraph.Build.TargetBuild
import ProjectGraph.Config
import ProjectGraph.Document.Checks

/-! # Generators

A generator builds declared targets into a project, run after run, and checks the project after each
run. A run that fails leaves the project as far as it has come. -/

namespace ProjectGraph

variable [IdScheme]

/-- A new project from its name and a value that gives the names of its configurations. -/
def Project.ofValue (name : String) (configurations : Value) : Except Error Project := do
  Project.create name (← configurations.names)

/-- Where a generator finds files and puts scripts, as the paths are spelled. -/
structure Generator where
  root : String
  scriptsDirectory : Option String
  deriving DecidableEq, Repr

namespace Generator

omit [IdScheme] in
/-- A generator for a root, which has to be a directory, and a directory for scripts, which has to be
relative. -/
def ofPaths (tree : FileTree) (root : String) (scriptsDirectory : Option String) :
    Except Error Generator := do
  match tree.isDirectory (.parse root) with
  | .ok true => pure ()
  | .ok false => throw (.rootNotDirectory root)
  | .error e => throw (.file e)
  match scriptsDirectory with
  | some directory =>
    if (PathName.parse directory).IsAbsolute then throw (.absoluteScriptsDirectory directory)
  | none => pure ()
  return ⟨root, scriptsDirectory⟩

/-- A generator and its new project. The project is made before the paths are looked at. -/
def start (tree : FileTree) (config : Config) : Except Error (Generator × Project) := do
  let project ← Project.ofValue config.projectName config.buildConfig
  return (← ofPaths tree config.projectRoot config.scriptsDirectory, project)

/-- Builds a target and the target that tests it, and sets up their scheme. -/
def buildDeclaration (d : Declaration) : Build Unit := do
  let t ← Build.build d.target
  let test ← match d.test with
    | some test => some <$> Build.build test
    | none => pure none
  discard <| Build.edit (Project.configureScheme d t test)

omit [IdScheme] in
/-- Checks the project as it is. -/
def checkProject : Edit Unit := do
  let s ← Project.snapshot
  match s.check with
  | .ok () => return
  | .error e => throw e

/-- Builds all declared targets in order and checks the project. -/
def buildAll (declarations : List Declaration) : Build Unit := do
  match checkNames declarations with
  | .ok () => pure ()
  | .error e => throw e
  declarations.forM buildDeclaration
  Build.edit checkProject

/-- One run of a generator. Each run has a builder of its own. -/
def run (g : Generator) (declarations : List Declaration) : EStateM Error Workspace Unit := fun w =>
  match buildAll declarations ⟨w, .ofPaths g.root g.scriptsDirectory⟩ with
  | .ok () s => .ok () s.workspace
  | .error e s => .error e s.workspace

end Generator
end ProjectGraph
