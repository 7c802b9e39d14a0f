import ProjectGraph.Project.Create
import ProjectGraph.Settings.Defaults

/-! # Targets of a project and their configurations -/

namespace ProjectGraph.Project

variable [IdScheme]

/-- The target of this name, made anew if there is none. An old target keeps its kind. -/
def newNativeTarget (name : String) (kind : TargetKind) : Edit ObjectId := do
  match ← targetNamed? name with
  | some t => return t
  | none =>
    let id ← register (.target { name := name, kind := kind })
    modifyRecord fun r => { r with targets := r.targets ++ [⟨id, some name⟩] }
    return id

/-- A target's configuration of this name, with its defaults. -/
def defaultConfiguration (owner : String) (platform : PlatformKind) (language : LanguageKind)
    (kind : TargetKind) (name : String) : Configuration :=
  ⟨name, owner, Settings.defaults platform language kind name⟩

/-- Gives a target its configurations, one for each configuration name of the project, unless it has
a list of configurations. -/
def newConfigurationList (t : ObjectId) (platform : PlatformKind) (language : LanguageKind)
    (kind : TargetKind) : Edit Unit := do
  match ← resolvePart Object.configurationList? t with
  | some _ => return
  | none =>
    let owner ← resolveAs Content.name? t
    let p ← get
    let configurations := p.configurationNames.map (defaultConfiguration owner platform language kind)
    configurations.forM fun c => discard <| register (.configuration c)
    let list := newConfigurationListOf owner p.configurationNames p.configurationNames_ne_nil
      (configurations.map configurationReference)
    let id ← register (.configurationList list)
    modifyObject t (Object.withConfigurationList (some ⟨id, none⟩))

omit [IdScheme] in
/-- Replaces the settings of a configuration. -/
def setBuildSettings (configuration : ObjectId) (settings : Settings) : Edit Unit :=
  modifyObject configuration (Object.withSettings settings)

end ProjectGraph.Project
