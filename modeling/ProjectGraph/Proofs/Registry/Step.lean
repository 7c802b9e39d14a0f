import Mathlib.Tactic.Tauto
import ProjectGraph.Project.Groups
import ProjectGraph.Proofs.Registry.Links

/-! # Steps

Whatever is done to a project is done in steps of a few kinds: a content is registered and referred
to, or one part of an object or of a scheme is replaced. A step is due when the project is ready for
it, and fresh when the id of what it registers is free. -/

namespace ProjectGraph

/-! ## Changing a content -/

namespace Content

/-- The content with a reference at the end of its links of a kind. -/
def append (kind : LinkKind) (r : Reference) (c : Content) : Content :=
  match kind with
  | .child =>
    match c with
    | group g => group { g with children := g.children ++ [r] }
    | c => c
  | .target =>
    match c with
    | project p => project { p with targets := p.targets ++ [r] }
    | c => c
  | .buildPhase =>
    match c with
    | target t => target { t with buildPhases := t.buildPhases ++ [r] }
    | c => c
  | .phaseFile =>
    match c with
    | phase p => phase { p with files := p.files ++ [r] }
    | c => c
  | _ => c

def withRole (role : PhaseRole) : Content → Content
  | phase p => phase { p with role := role }
  | c => c

def withConfigurationList (r : Option Reference) : Content → Content
  | target t => target { t with configurationList := r }
  | project p => project { p with configurationList := r }
  | c => c

def withProductReference (r : Option Reference) : Content → Content
  | target t => target { t with productReference := r }
  | c => c

def withSettings (settings : Settings) : Content → Content
  | configuration c => configuration { c with settings := settings }
  | c => c

theorem grows_append (kind : LinkKind) (r : Reference) (c : Content) : c.Grows (c.append kind r) := by
  cases kind with
  | child =>
    cases c with
    | group g => exact .group rfl rfl rfl (List.prefix_append _ _)
    | _ => exact .refl _
  | target =>
    cases c with
    | project p => exact .project rfl rfl rfl rfl (List.prefix_append _ _)
    | _ => exact .refl _
  | buildPhase =>
    cases c with
    | target t => exact .target rfl rfl (List.prefix_append _ _) (fun _ h => h) fun h => h
    | _ => exact .refl _
  | phaseFile =>
    cases c with
    | phase p => exact .phase rfl rfl (List.prefix_append _ _)
    | _ => exact .refl _
  | _ => exact .refl _

theorem grows_withProductReference (r : Reference) (c : Content) :
    c.Grows (c.withProductReference (some r)) := by
  cases c with
  | target t => exact .target rfl rfl (List.prefix_refl _) (fun _ h => h) fun _ => rfl
  | _ => exact .refl _

theorem grows_withSettings (settings : Settings) (c : Content) :
    c.Grows (c.withSettings settings) := by
  cases c with
  | configuration c => exact .configuration rfl rfl
  | _ => exact .refl _

theorem mem_links_append {kind : LinkKind} {r : Reference} {c : Content} {l : Link}
    (h : l ∈ (c.append kind r).links) : l ∈ c.links ∨ l = ⟨kind, r⟩ := by
  cases kind with
  | child =>
    cases c with
    | group g => simpa [append, links, or_comm, eq_comm] using h
    | _ => exact .inl h
  | target =>
    cases c with
    | project p =>
      simp only [append, links, List.map_append, List.mem_append, List.map_cons, List.map_nil,
        List.mem_singleton] at h ⊢
      tauto
    | _ => exact .inl h
  | buildPhase =>
    cases c with
    | target t =>
      simp only [append, links, List.map_append, List.mem_append, List.map_cons, List.map_nil,
        List.mem_singleton] at h ⊢
      tauto
    | _ => exact .inl h
  | phaseFile =>
    cases c with
    | phase p => simpa [append, links, or_comm, eq_comm] using h
    | _ => exact .inl h
  | _ => exact .inl h

theorem links_withSettings (settings : Settings) (c : Content) :
    (c.withSettings settings).links = c.links := by
  cases c <;> rfl

theorem links_withRole (role : PhaseRole) (c : Content) : (c.withRole role).links = c.links := by
  cases c <;> rfl

theorem mem_links_withProductReference {r : Reference} {c : Content} {l : Link}
    (h : l ∈ (c.withProductReference (some r)).links) : l ∈ c.links ∨ l = ⟨.product, r⟩ := by
  cases c with
  | target t =>
    simp only [withProductReference, links, List.mem_append, Option.toList_some, List.map_cons,
      List.map_nil, List.mem_singleton] at h ⊢
    tauto
  | _ => exact .inl h

theorem mem_links_withConfigurationList {r : Reference} {c : Content} {l : Link}
    (h : l ∈ (c.withConfigurationList (some r)).links) :
    l ∈ c.links ∨ l = ⟨.configurationList, r⟩ := by
  cases c with
  | target t =>
    simp only [withConfigurationList, links, List.mem_append, Option.toList_some, List.map_cons,
      List.map_nil, List.mem_singleton] at h ⊢
    tauto
  | project p =>
    simp only [withConfigurationList, links, List.mem_append, Option.toList_some, List.map_cons,
      List.map_nil, List.mem_singleton] at h ⊢
    tauto
  | _ => exact .inl h

end Content

namespace Object

theorem content_withConfigurationList (r : Option Reference) (o : Object) :
    (o.withConfigurationList r).content = o.content.withConfigurationList r := by
  obtain ⟨i, c, a⟩ := o
  cases c <;> rfl

theorem content_withProductReference (r : Option Reference) (o : Object) :
    (o.withProductReference r).content = o.content.withProductReference r := by
  obtain ⟨i, c, a⟩ := o
  cases c <;> rfl

theorem content_withSettings (settings : Settings) (o : Object) :
    (o.withSettings settings).content = o.content.withSettings settings := by
  obtain ⟨i, c, a⟩ := o
  cases c <;> rfl

theorem id_withConfigurationList (r : Option Reference) (o : Object) :
    (o.withConfigurationList r).id = o.id := by
  obtain ⟨i, c, a⟩ := o
  cases c <;> rfl

theorem id_withProductReference (r : Option Reference) (o : Object) :
    (o.withProductReference r).id = o.id := by
  obtain ⟨i, c, a⟩ := o
  cases c <;> rfl

theorem id_withSettings (settings : Settings) (o : Object) :
    (o.withSettings settings).id = o.id := by
  obtain ⟨i, c, a⟩ := o
  cases c <;> rfl

theorem id_updateAt {i : ObjectId} {f : Object → Object} (hf : ∀ o, (f o).id = o.id) (o : Object) :
    (o.updateAt i f).id = o.id := by
  unfold updateAt
  split
  · exact hf o
  · rfl

theorem content_updateAt {i : ObjectId} {f : Object → Object} {g : Content → Content}
    (hf : ∀ o, (f o).content = g o.content) (o : Object) :
    (o.updateAt i f).content = if o.id = i then g o.content else o.content := by
  unfold updateAt
  split
  · exact hf o
  · rfl

end Object

/-! ## Steps -/

/-- A change of the launch and test settings of a scheme. -/
inductive SchemeChange where
  | launchArguments (arguments : List LaunchArgument)
  | environmentVariables (environment : List EnvironmentVariable)
  | testables (entries : List BuildableReference) (codeCoverage : Bool)
  deriving DecidableEq, Repr

def SchemeChange.apply (s : Scheme) : SchemeChange → Scheme
  | launchArguments arguments => { s with launchArguments := arguments }
  | environmentVariables environment => { s with environmentVariables := environment }
  | testables entries codeCoverage => s.setTestables entries codeCoverage

/-- What is registered at the end of the list of an owner. -/
inductive Part where
  | target (name : String) (kind : TargetKind)
  /-- A phase of the target of this name. -/
  | phase (owner : String) (role : PhaseRole)
  | buildFile (f : BuildFile)
  /-- The group of a directory, inside the group of the directory above. -/
  | group (above : List String) (name : String)
  | source (path : String)
  | product (path : String) (type : FileType)
  deriving DecidableEq

namespace Part

def content : Part → Content
  | target name kind => .target { name := name, kind := kind }
  | phase owner role => .phase { target := owner, role := role }
  | buildFile f => .buildFile f
  | group above name => .group (Project.newGroup above name)
  | source path => .file (.source path)
  | product path type => .file (.product path type)

/-- The kind of the link from the owner. -/
def home : Part → LinkKind
  | target .. => .target
  | phase .. => .buildPhase
  | buildFile _ => .phaseFile
  | group .. | source _ | product .. => .child

/-- The comment of the reference from the owner. -/
def comment : Part → String
  | target name _ => name
  | phase _ (.files kind) => kind.title
  | phase _ (.script _ script) => script.name
  | buildFile f => f.name
  | group _ name => name
  | source path => Text.baseNameOf path
  | product path _ => path

/-- The reference from the owner. -/
def reference [IdScheme] (x : Part) : Reference := ⟨x.content.id, some x.comment⟩

theorem home_fits (x : Part) : x.home.fits x.content := by
  cases x <;> rfl

end Part

inductive Step where
  | attach (owner : ObjectId) (part : Part)
  /-- Registers a configuration, which nothing refers to yet. -/
  | configuration (c : Configuration)
  /-- Registers a list of configurations and gives it to a target. -/
  | configurationList (t : ObjectId) (l : ConfigurationList)
  | settings (c : ObjectId) (new : Settings)
  /-- Sets the product of a target. -/
  | product (t : ObjectId) (r : Reference)
  /-- Replaces the script in a slot of a target. -/
  | script (t phase : ObjectId) (slot : String) (new : Script)
  | scheme (s : Scheme)
  | schemeChange (name : String) (change : SchemeChange)
  deriving DecidableEq

namespace Step

variable [IdScheme]

/-- The content that a step registers. -/
def new? : Step → Option Content
  | attach _ x => some x.content
  | configuration c => some (.configuration c)
  | configurationList _ l => some (.configurationList l)
  | _ => none

/-- What a step makes of a registered object. -/
def revise : Step → Object → Object
  | attach owner x =>
    Object.updateAt owner fun o => { o with content := o.content.append x.home x.reference }
  | configurationList t l =>
    Object.updateAt t (Object.withConfigurationList (some ⟨(Content.configurationList l).id, none⟩))
  | settings c new => Object.updateAt c (Object.withSettings new)
  | product t r => Object.updateAt t (Object.withProductReference (some r))
  | script _ phase slot new =>
    Object.updateAt phase fun o => { o with content := o.content.withRole (.script slot new) }
  | configuration _ | scheme _ | schemeChange .. => id

/-- What a step makes of the content under an id. -/
def reviseContent : Step → ObjectId → Content → Content
  | attach owner x, i, c => if i = owner then c.append x.home x.reference else c
  | configurationList t l, i, c =>
    if i = t then c.withConfigurationList (some ⟨(Content.configurationList l).id, none⟩) else c
  | settings j new, i, c => if i = j then c.withSettings new else c
  | product t r, i, c => if i = t then c.withProductReference (some r) else c
  | script _ phase slot new, i, c => if i = phase then c.withRole (.script slot new) else c
  | configuration _, _, c | scheme _, _, c | schemeChange .., _, c => c

/-- The project after a step. -/
def apply (s : Step) (p : Project) : Project :=
  { p with
    objects := (p.objects ++ s.new?.toList.map Content.object).map s.revise
    detached := p.detached.map s.revise
    directories :=
      match s with
      | attach _ (.group above name) =>
        p.directories.insert (above ++ [name]) (Part.group above name).content.id
      | _ => p.directories
    schemes :=
      match s with
      | scheme new => p.schemes ++ [new]
      | schemeChange name change =>
        p.schemes.map fun s => if s.name = name then change.apply s else s
      | _ => p.schemes }

theorem id_revise (s : Step) (o : Object) : (s.revise o).id = o.id := by
  cases s with
  | attach | script => exact Object.id_updateAt (by intro _; rfl) o
  | configurationList => exact Object.id_updateAt (Object.id_withConfigurationList _) o
  | settings => exact Object.id_updateAt (Object.id_withSettings _) o
  | product => exact Object.id_updateAt (Object.id_withProductReference _) o
  | configuration | scheme | schemeChange => rfl

theorem content_revise (s : Step) (o : Object) :
    (s.revise o).content = s.reviseContent o.id o.content := by
  cases s with
  | attach | script => exact Object.content_updateAt (by intro _; rfl) o
  | configurationList => exact Object.content_updateAt (Object.content_withConfigurationList _) o
  | settings => exact Object.content_updateAt (Object.content_withSettings _) o
  | product => exact Object.content_updateAt (Object.content_withProductReference _) o
  | configuration | scheme | schemeChange => rfl

end Step
end ProjectGraph
