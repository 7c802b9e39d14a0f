import ProjectGraph.Project.Basic

/-! # Build phases of a target -/

namespace ProjectGraph.Project

variable [IdScheme]

/-- Registers a build phase at the end of the phases of a target. -/
def appendPhase (t : ObjectId) (phase : BuildPhase) (comment : String) : Edit ObjectId := do
  let id ← register (.phase phase)
  modifyTarget t fun t => { t with buildPhases := t.buildPhases ++ [⟨id, some comment⟩] }
  return id

omit [IdScheme] in
/-- The first phase among the objects whose role passes a test. -/
def findPhase (test : PhaseRole → Bool) (objects : List Object) : Option (Identified BuildPhase) :=
  objects.findSome? fun o => (o.view? Content.phase?).filter fun p => test p.content.role

/-- The phase of a kind, made at the end of the target's phases if there is none. -/
def phaseOfKind (t : ObjectId) (kind : PhaseKind) : Edit (Identified BuildPhase) := do
  match findPhase (· = .files kind) (← buildPhases t) with
  | some p => return p
  | none =>
    let phase : BuildPhase := { target := (← target t).name, role := .files kind }
    return ⟨← appendPhase t phase kind.title, phase⟩

/-- Makes sure that a target has a phase of a kind. -/
def addBuildPhase (t : ObjectId) (kind : PhaseKind) : Edit Unit := discard <| phaseOfKind t kind

omit [IdScheme] in
/-- Is a file the file of one of these build files? -/
def holdsFile (file : ObjectId) : List Reference → Edit Bool
  | [] => return false
  | r :: rest => do
    if (← resolveAs Content.buildFile? r.id).file.id = file then return true
    else holdsFile file rest

/-- Appends a file to the target's phase of a kind, unless the phase holds it. -/
def addFileToPhase (t : ObjectId) (kind : PhaseKind) (file : Identified FileReference)
    (settings : Option Settings := none) : Edit Unit := do
  let phase ← phaseOfKind t kind
  if ← holdsFile file.id phase.content.files then return
  let name := file.content.name
  let buildFile : BuildFile :=
    { file := ⟨file.id, some name⟩, name := name, target := (← target t).name, phase := kind,
      settings := settings }
  let id ← register (.buildFile buildFile)
  modifyPhase phase.id fun p => { p with files := p.files ++ [⟨id, some name⟩] }

/-- Gives a slot of the target a script: the phase of the slot is updated where it stands, or a new
one comes last. The references to a phase keep their comment. -/
def addScriptPhase (t : ObjectId) (slot : String) (script : Script) : Edit Unit := do
  match findPhase (PhaseRole.isSlot slot) (← buildPhases t) with
  | some p => modifyPhase p.id fun p => { p with role := .script slot script }
  | none =>
    discard <| appendPhase t { target := (← target t).name, role := .script slot script } script.name

end ProjectGraph.Project
