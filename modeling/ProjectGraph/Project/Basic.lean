import ProjectGraph.Error
import ProjectGraph.Object.Basic
import ProjectGraph.Scheme

/-! # Projects

A project registers its objects in order, each under its own id. Its groups and its own record are also
known to it by other means than a reference, so they stay at hand when the registry forgets them. -/

namespace ProjectGraph

structure Project where
  /-- The names of the configurations of the project and of every target. -/
  configurationNames : List String
  configurationNames_ne_nil : configurationNames ≠ []
  mainGroup : ObjectId
  productsGroup : ObjectId
  /-- The object that stands for the project. -/
  record : ObjectId
  /-- The group of each directory below the root, by the components of its normal form. -/
  directories : Table (List String) ObjectId := ∅
  /-- The registered objects, in order of registration. -/
  objects : List Object
  /-- Groups and records that the registry has forgotten. -/
  detached : List Object := []
  /-- The schemes, in order of creation. -/
  schemes : List Scheme := []
  deriving DecidableEq

/-- A change of a project. Where it fails, what has been changed before stays. -/
abbrev Edit := EStateM Error Project

/-- An object, changed if it has this id. -/
def Object.updateAt (id : ObjectId) (f : Object → Object) (o : Object) : Object :=
  if o.id = id then f o else o

namespace Project

/-! ## The registry -/

/-- The registered object of an id. -/
def find? (p : Project) (id : ObjectId) : Option Object := p.objects.find? fun o => o.id = id

/-- The object of an id, registered or forgotten. -/
def held? (p : Project) (id : ObjectId) : Option Object :=
  (p.objects ++ p.detached).find? fun o => o.id = id

/-- Registers a content under its own id. -/
def register [IdScheme] (c : Content) : Edit ObjectId := fun p =>
  match p.find? c.id with
  | some _ => .error (.duplicateId c.id c.key) p
  | none => .ok c.id { p with objects := p.objects ++ [c.object] }

/-- The object under an id. -/
def resolve (id : ObjectId) : Edit Object := fun p =>
  match p.find? id with
  | some o => .ok o p
  | none => .error (.missingObject id) p

/-- The object that a reference leads to. -/
def follow (r : Reference) : Edit Object := resolve r.id

/-- A part of an object, which it has to have. -/
def partOf {α : Type} (part : Object → Option α) (o : Object) : Edit α :=
  match part o with
  | some a => return a
  | none => throw (.unsuitableObject o.id)

/-- What an object shows under a view of its content, which it has to have. -/
def viewAs {α : Type} (view : Content → Option α) (o : Object) : Edit α :=
  partOf (fun o => view o.content) o

/-- A part of the object under an id, which has to have it. -/
def resolvePart {α : Type} (part : Object → Option α) (id : ObjectId) : Edit α := do
  partOf part (← resolve id)

/-- The content under an id, which has to have this view. -/
def resolveAs {α : Type} (view : Content → Option α) (id : ObjectId) : Edit α := do
  viewAs view (← resolve id)

/-- The content of an object that is at hand even if it has been forgotten. -/
def heldAs {α : Type} (view : Content → Option α) (id : ObjectId) : Edit α := fun p =>
  match (p.held? id).bind fun o => view o.content with
  | some a => .ok a p
  | none => .error (.missingObject id) p

/-- Changes the object under an id. -/
def modifyObject (id : ObjectId) (f : Object → Object) : Edit Unit :=
  modify fun p =>
    { p with
      objects := p.objects.map (Object.updateAt id f)
      detached := p.detached.map (Object.updateAt id f) }

/-- Changes the content under an id. The id stays what it is. -/
def modifyContent (id : ObjectId) (f : Content → Content) : Edit Unit :=
  modifyObject id fun o => { o with content := f o.content }

def modifyPhase (id : ObjectId) (f : BuildPhase → BuildPhase) : Edit Unit :=
  modifyContent id fun
    | .phase p => .phase (f p)
    | c => c

def modifyGroup (id : ObjectId) (f : Group → Group) : Edit Unit :=
  modifyContent id fun
    | .group g => .group (f g)
    | c => c

def modifyConfigurationList (id : ObjectId) (f : ConfigurationList → ConfigurationList) :
    Edit Unit :=
  modifyContent id fun
    | .configurationList l => .configurationList (f l)
    | c => c

def modifyTarget (id : ObjectId) (f : NativeTarget → NativeTarget) : Edit Unit :=
  modifyContent id fun
    | .target t => .target (f t)
    | c => c

/-- Changes the project's own record. -/
def modifyRecord (f : ProjectRecord → ProjectRecord) : Edit Unit := do
  modifyContent (← get).record fun
    | .project r => .project (f r)
    | c => c

/-- Appends a reference to the children of a group. -/
def addChild (group : ObjectId) (r : Reference) : Edit Unit :=
  modifyGroup group fun g => { g with children := g.children ++ [r] }

/-! ## Reading a project -/

/-- The project's own record. -/
def projectRecord : Edit ProjectRecord := do heldAs Content.project? (← get).record

def target (id : ObjectId) : Edit NativeTarget := resolveAs Content.target? id

/-- What the project lists as its targets, in order. -/
def targets : Edit (List Object) := do (← projectRecord).targets.mapM follow

/-- The id of the first object of this name. -/
def findNamed (name : String) : List Object → Edit (Option ObjectId)
  | [] => return none
  | o :: rest => do
    if (← viewAs Content.name? o) = name then return some o.id else findNamed name rest

/-- The first target of this name. -/
def targetNamed? (name : String) : Edit (Option ObjectId) := do findNamed name (← targets)

/-- What a target lists as its build phases, in order. -/
def buildPhases (t : ObjectId) : Edit (List Object) := do (← target t).buildPhases.mapM follow

/-- The files of a build phase, in order. -/
def phaseFiles (phase : BuildPhase) : Edit (List FileReference) :=
  phase.files.mapM fun r => do
    resolveAs Content.file? (← resolveAs Content.buildFile? r.id).file.id

/-- What is listed as the configurations of a target, in order; nothing for a target without a list
of configurations. -/
def buildConfigurations (t : ObjectId) : Edit (List Object) := do
  match ← resolvePart Object.configurationList? t with
  | none => return []
  | some r => (← resolveAs Content.configurationList? r.id).configurations.mapM follow

/-- The item at an index. An index below zero counts from the end. -/
def itemAt {α : Type} (items : List α) (index : Int) : Edit α :=
  match if index < 0 then index + items.length else index with
  | .negSucc _ => throw .indexOutOfRange
  | .ofNat i =>
    match items[i]? with
    | some a => return a
    | none => throw .indexOutOfRange

/-- What is listed as the configuration of a target at an index. -/
def configurationAt (t : ObjectId) (index : Int) : Edit Object := do
  itemAt (← buildConfigurations t) index

end Project
end ProjectGraph
