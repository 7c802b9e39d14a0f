import ProjectGraph.Project.Basic

/-! # Schemes of a project

A scheme has the name of a target and is known by it. -/

namespace ProjectGraph.Project

/-- The scheme of this name. -/
def scheme? (p : Project) (name : String) : Option Scheme := p.schemes.find? fun s => s.name = name

/-- How a scheme refers to a target. The product of a target without one has the target's name. -/
def buildableReference (t : ObjectId) : Edit BuildableReference := do
  let o ← resolve t
  let name ← viewAs Content.name? o
  match ← partOf Object.productReference? o with
  | none => return ⟨t, name, some name⟩
  | some r => return ⟨t, name, ← resolveAs Content.path? r.id⟩

/-- The name of the scheme of a target. A new scheme builds the target and uses the first
configuration. -/
def schemeFor (t : ObjectId) : Edit String := do
  let name ← resolveAs Content.name? t
  match (← get).scheme? name with
  | some _ => return name
  | none =>
    let entry ← buildableReference t
    modify fun p =>
      { p with
        schemes := p.schemes ++
          [{ name := name
             configuration := p.configurationNames.head p.configurationNames_ne_nil
             buildEntries := [entry] }] }
    return name

def modifyScheme (name : String) (f : Scheme → Scheme) : Edit Unit :=
  modify fun p => { p with schemes := p.schemes.map fun s => if s.name = name then f s else s }

def setLaunchArguments (scheme : String) (arguments : List LaunchArgument) : Edit Unit :=
  modifyScheme scheme fun s => { s with launchArguments := arguments }

def setEnvironmentVariables (scheme : String) (environment : List EnvironmentVariable) : Edit Unit :=
  modifyScheme scheme fun s => { s with environmentVariables := environment }

/-- Sets the targets that a scheme tests, and has the scheme build them. -/
def setTestTargets (scheme : String) (tests : List ObjectId) (codeCoverage : Bool) : Edit Unit := do
  let entries ← tests.mapM buildableReference
  modifyScheme scheme fun s => s.setTestables entries codeCoverage

end ProjectGraph.Project
