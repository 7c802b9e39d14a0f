import ProjectGraph.FileType
import ProjectGraph.ObjectId.Basic
import ProjectGraph.Setting
import ProjectGraph.Target
import ProjectGraph.Text.FileName

/-! # Contents of objects

A project is made of objects that refer to each other by id. The content of an object determines its
key, and the key its id. -/

namespace ProjectGraph

/-! ## Files -/

/-- A file that a project knows: one of its own, or a product that it makes. -/
inductive FileReference where
  /-- A file of the project, by its path from the project root. -/
  | source (path : String)
  /-- A product, by its path in the directory of built products. -/
  | product (path : String) (type : FileType)
  deriving DecidableEq, Repr

namespace FileReference

def path : FileReference → String
  | source path => path
  | product path _ => path

def name : FileReference → String
  | source path => Text.baseNameOf path
  | product path _ => path

/-- The directory that the path starts from. -/
def sourceTree : FileReference → String
  | source _ => "SOURCE_ROOT"
  | product .. => "BUILT_PRODUCTS_DIR"

def key (f : FileReference) : String := "PBXFileReference:" ++ f.sourceTree ++ ":" ++ f.path

end FileReference

/-- The membership of a file in a build phase. -/
structure BuildFile where
  file : Reference
  name : String
  target : String
  phase : PhaseKind
  settings : Option Settings
  deriving DecidableEq

def BuildFile.key (f : BuildFile) : String :=
  "PBXBuildFile:" ++ f.file.id.text ++ ":" ++ f.target ++ ":" ++ f.phase.name

/-! ## Build phases -/

/-- What a build phase does. -/
inductive PhaseRole where
  | files (kind : PhaseKind)
  /-- Runs a script. The slot tells where in the target's description the script comes from. -/
  | script (slot : String) (script : Script)
  deriving DecidableEq, Repr

/-- Is this the role of a script in a slot? -/
def PhaseRole.isSlot (slot : String) : PhaseRole → Bool
  | .script s _ => s = slot
  | .files _ => false

structure BuildPhase where
  target : String
  role : PhaseRole
  files : List Reference := []
  deriving DecidableEq, Repr

namespace BuildPhase

def key (p : BuildPhase) : String :=
  match p.role with
  | .files kind => kind.typeName ++ ":" ++ p.target
  | .script slot _ => "PBXShellScriptBuildPhase:" ++ p.target ++ ":" ++ slot

/-- The name of a phase that runs a script. Phases of files have none. -/
def name? (p : BuildPhase) : Option String :=
  match p.role with
  | .files _ => none
  | .script _ script => some script.name

end BuildPhase

/-! ## Groups -/

structure Group where
  name : String
  path : Option String := none
  groupId : Option String := none
  children : List Reference := []
  deriving DecidableEq, Repr

namespace Group

/-- The first of the two texts that is there and not empty tells groups of one name apart. -/
def distinction (path groupId : Option String) : Option String :=
  match path.filter (· ≠ "") with
  | some p => some p
  | none => groupId.filter (· ≠ "")

def keyOf (name : String) (path groupId : Option String) : String :=
  match distinction path groupId with
  | some d => "PBXGroup:" ++ name ++ ":" ++ d
  | none => "PBXGroup:" ++ name

def key (g : Group) : String := keyOf g.name g.path g.groupId

end Group

/-! ## Configurations -/

/-- How the owner of configurations shows in their keys. -/
def ownerKey (owner : String) : String := if owner = "" then "GLOBAL" else owner

structure Configuration where
  name : String
  owner : String
  settings : Settings
  deriving DecidableEq

def Configuration.key (c : Configuration) : String :=
  "XCBuildConfiguration:" ++ ownerKey c.owner ++ ":" ++ c.name

structure ConfigurationList where
  owner : String
  configurations : List Reference
  defaultName : String
  deriving DecidableEq, Repr

def ConfigurationList.key (l : ConfigurationList) : String :=
  "XCConfigurationList:" ++ ownerKey l.owner

/-! ## Targets and the project itself -/

structure NativeTarget where
  name : String
  kind : TargetKind
  buildPhases : List Reference := []
  configurationList : Option Reference := none
  productReference : Option Reference := none
  deriving DecidableEq, Repr

def NativeTarget.key (t : NativeTarget) : String := "PBXNativeTarget:" ++ t.name

structure ProjectRecord where
  name : String
  configurationList : Option Reference
  mainGroup : Reference
  productsGroup : Reference
  targets : List Reference := []
  deriving DecidableEq, Repr

def ProjectRecord.key (p : ProjectRecord) : String := "PBXProject:" ++ p.name

/-! ## Contents

In a broken project a reference can lead to a content of another type than is meant. Such a content is
read by the parts that it has in common with the type that is meant. -/

inductive Content where
  | file (f : FileReference)
  | buildFile (f : BuildFile)
  | phase (p : BuildPhase)
  | group (g : Group)
  | configuration (c : Configuration)
  | configurationList (l : ConfigurationList)
  | target (t : NativeTarget)
  | project (p : ProjectRecord)
  deriving DecidableEq

namespace Content

def key : Content → String
  | file f => f.key
  | buildFile f => f.key
  | phase p => p.key
  | group g => g.key
  | configuration c => c.key
  | configurationList l => l.key
  | target t => t.key
  | project p => p.key

def file? : Content → Option FileReference
  | file f => some f
  | _ => none

def buildFile? : Content → Option BuildFile
  | buildFile f => some f
  | _ => none

def phase? : Content → Option BuildPhase
  | phase p => some p
  | _ => none

def group? : Content → Option Group
  | group g => some g
  | _ => none

def configuration? : Content → Option Configuration
  | configuration c => some c
  | _ => none

def configurationList? : Content → Option ConfigurationList
  | configurationList l => some l
  | _ => none

def target? : Content → Option NativeTarget
  | target t => some t
  | _ => none

def project? : Content → Option ProjectRecord
  | project p => some p
  | _ => none

/-- The name of a content. Phases of files and lists of configurations have none. -/
def name? : Content → Option String
  | file f => some f.name
  | buildFile f => some f.name
  | phase p => p.name?
  | group g => some g.name
  | configuration c => some c.name
  | configurationList _ => none
  | target t => some t.name
  | project p => some p.name

/-- The path of a content of a type that has paths. A group can do without. -/
def path? : Content → Option (Option String)
  | file f => some (some f.path)
  | group g => some g.path
  | _ => none

end Content

/-- The id of a content. -/
def Content.id [IdScheme] (c : Content) : ObjectId := IdScheme.ofKey c.key

end ProjectGraph
