import ProjectGraph.Project.Groups

/-! # Damage

These operations break a project on purpose, so that the checks have something to find. -/

namespace ProjectGraph

/-- Where a reference can be put that does not belong there. -/
inductive Socket where
  /-- At the end of the group of a directory. -/
  | group (directory : String)
  | products
  | targets
  /-- In place of the main group of the project's record. -/
  | mainGroup
  /-- At the end of the phases of a target. -/
  | phases (t : ObjectId)
  /-- At the end of the files of a phase, by its index in a target. -/
  | phaseFiles (t : ObjectId) (index : Int)
  /-- In place of the product of a target. -/
  | product (t : ObjectId)
  /-- At the end of the configurations of a target. -/
  | configurations (t : ObjectId)

/-- The parts that can be taken from a target. -/
inductive TargetPart where
  | productReference
  | configurationList

namespace Project

/-- Puts a reference without a comment into a place. -/
def dangle [IdScheme] (id : ObjectId) : Socket → Edit Unit
  | .group directory => do addChild (← groupForPath directory) ⟨id, none⟩
  | .products => do addChild (← get).productsGroup ⟨id, none⟩
  | .targets => modifyRecord fun r => { r with targets := r.targets ++ [⟨id, none⟩] }
  | .mainGroup => modifyRecord fun r => { r with mainGroup := ⟨id, none⟩ }
  | .phases t => do
    discard <| target t
    modifyTarget t fun t => { t with buildPhases := t.buildPhases ++ [⟨id, none⟩] }
  | .phaseFiles t index => do
    let o ← itemAt (← buildPhases t) index
    discard <| viewAs Content.phase? o
    modifyPhase o.id fun p => { p with files := p.files ++ [⟨id, none⟩] }
  | .product t => do
    discard <| resolve t
    modifyObject t (Object.withProductReference (some ⟨id, none⟩))
  | .configurations t => do
    match ← resolvePart Object.configurationList? t with
    | some r =>
      discard <| resolveAs Content.configurationList? r.id
      modifyConfigurationList r.id fun l =>
        { l with configurations := l.configurations ++ [⟨id, none⟩] }
    | none => throw (.unsuitableObject t)

/-- Gives a setting of a configuration, by its index in a target, a value of an unknown type. -/
def poison (t : ObjectId) (index : Int) (key typeName : String) : Edit Unit := do
  let o ← configurationAt t index
  let settings ← partOf Object.settings? o
  modifyObject o.id (Object.withSettings (settings.insert key (.foreign typeName [key])))

/-- Takes a part from a target. -/
def clear (t : ObjectId) (part : TargetPart) : Edit Unit := do
  discard <| resolve t
  modifyObject t <|
    match part with
    | .productReference => Object.withProductReference none
    | .configurationList => Object.withConfigurationList none

/-- Takes a target from the targets of the project, by the comment of its reference. The target stays
registered. -/
def forgetTarget (name : String) : Edit Unit :=
  modifyRecord fun r => { r with targets := r.targets.filter fun r => r.comment ≠ some name }

/-- Is the content at hand without the registry? -/
def staysAtHand (c : Content) : Bool := c.group?.isSome || c.project?.isSome

/-- Takes an object from the registry. Groups and the project's record stay at hand. -/
def forgetObject (id : ObjectId) : Edit Unit := fun p =>
  match p.find? id with
  | none => .error (.missingObject id) p
  | some o =>
    .ok () { p with
      objects := p.objects.filter fun o => o.id ≠ id
      detached := if staysAtHand o.content then p.detached ++ [o] else p.detached }

end Project
end ProjectGraph
