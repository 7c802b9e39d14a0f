import ProjectGraph.Build.Dependencies
import ProjectGraph.Build.Files
import ProjectGraph.Build.Scripts
import ProjectGraph.Project.Targets
import ProjectGraph.Settings.Compose

/-! # Building a target

The order of the steps fixes the order of the build phases. A dependency is linked only if its product
is there before, so targets are built in the order of their dependencies. -/

namespace ProjectGraph.Build

variable [IdScheme]

/-- Files the sources of a target. -/
def addSourceFiles (t : ObjectId) (patterns : List String) (exclude : Option (List (List String))) :
    Build Unit := do
  let files ← resolveFiles patterns exclude
  edit (Project.addFiles t .sources files)

/-- Files the resources of a target. -/
def addResourceFiles (t : ObjectId) : Option (List String) → Build Unit
  | none => return
  | some patterns => do
    let files ← resolveFiles patterns none
    edit (Project.addFiles t .resources files)

omit [IdScheme] in
/-- Puts the settings of a target over those of its configurations. -/
def composeSettings (t : ObjectId) (d : Target) : Edit Unit := do
  (← Project.buildConfigurations t).forM fun o => do
    let settings ← Project.partOf Object.settings? o
    Project.setBuildSettings o.id (Settings.compose d settings.plain)

/-- Builds a target and returns its id. -/
def build (d : Target) : Build ObjectId := do
  say ("generating " ++ d.name)
  let t ← edit (Project.newNativeTarget d.name d.kind)
  edit (Project.newConfigurationList t (configurationPlatform d.platforms) d.language.kind d.kind)
  edit (Project.addBuildScripts t .pre d.preBuildScripts)
  edit (Project.addInfoPlist d.infoPlist)
  if !d.isTest then edit (Project.addFrameworkHeader t d.header)
  addSourceFiles t d.includeFiles d.excludeFiles
  edit (composeSettings t d)
  discard <| edit (Project.newProductReference t d.name d.kind)
  edit (Project.addBuildPhase t .resources)
  edit (Project.addBuildPhase t .frameworks)
  edit (Project.addBuildScripts t .post d.postBuildScripts)
  let thirdParty ← edit (Project.linkDependencies t d.dependencies)
  addResourceFiles t d.resourceFiles
  if d.isTest && !thirdParty.isEmpty then addCopyFrameworksPhase t thirdParty
  return t

end ProjectGraph.Build
