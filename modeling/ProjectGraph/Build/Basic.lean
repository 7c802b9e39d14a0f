import ProjectGraph.FileTree.Edit
import ProjectGraph.FileTree.Glob
import ProjectGraph.Project.Basic

/-! # Builds

A build works on a project and on the file tree around it, and reports what it does line by line. -/

namespace ProjectGraph

structure Workspace where
  project : Project
  tree : FileTree
  /-- The lines reported so far. -/
  printed : List String := []
  deriving DecidableEq

/-- Where the files of a project are, and where scripts go. -/
structure Builder where
  root : PathName
  scriptsDirectory : Option PathName
  /-- The script has been installed. A builder installs it once. -/
  templateInstalled : Bool := false
  deriving DecidableEq, Repr

structure BuildState where
  workspace : Workspace
  builder : Builder
  deriving DecidableEq

/-- A step of a build. Where it fails, what has been done before stays. -/
abbrev Build := EStateM Error BuildState

namespace Builder

/-- A builder for a root and a scripts directory as they are spelled. -/
def ofPaths (root : String) (scriptsDirectory : Option String) : Builder where
  root := .parse root
  scriptsDirectory := scriptsDirectory.map PathName.parse

end Builder

namespace Build

variable {α : Type}

/-- Reports a line. -/
def say (line : String) : Build Unit :=
  modify fun s => { s with workspace.printed := s.workspace.printed ++ [line] }

/-- Changes the project. -/
def edit (x : Edit α) : Build α := fun s =>
  match x s.workspace.project with
  | .ok a p => .ok a { s with workspace.project := p }
  | .error e p => .error e { s with workspace.project := p }

/-- Changes the file tree. -/
def editTree (x : TreeEdit α) : Build α := fun s =>
  match x s.workspace.tree with
  | .ok a t => .ok a { s with workspace.tree := t }
  | .error e t => .error (.file e) { s with workspace.tree := t }

/-- The files below the root that the patterns select. -/
def resolveFiles (patterns : List String) (exclude : Option (List (List String))) :
    Build (List (List String)) := fun s =>
  match s.workspace.tree.resolveFiles s.builder.root patterns exclude with
  | .ok paths => .ok paths s
  | .error e => .error (.file e) s

end Build
end ProjectGraph
