import ProjectGraph.Proofs.Operations.Entries
import ProjectGraph.Proofs.Ownership.Start
import ProjectGraph.Proofs.Runs.Run

/-! # Reachable projects

A project is reachable if operations, builds of targets and runs of generators lead to it from a new
one, where each of them may have failed halfway. Reachable projects are well-formed, and their objects
have one owner each. -/

namespace ProjectGraph

/-- An operation on a project, with ids in place of the objects that it is applied to. -/
inductive Operation where
  | newNativeTarget (name : String) (kind : TargetKind)
  | newConfigurationList (t : ObjectId) (platform : PlatformKind) (language : LanguageKind)
      (kind : TargetKind)
  | setBuildSettings (configuration : ObjectId) (settings : Settings)
  | groupForPath (directory : String)
  | newFileReference (group : ObjectId) (path : String)
  | addBuildPhase (t : ObjectId) (kind : PhaseKind)
  | addFileToPhase (t : ObjectId) (kind : PhaseKind) (file : Identified FileReference)
      (settings : Option Settings)
  | addScriptPhase (t : ObjectId) (slot : String) (script : Script)
  | newProductReference (t : ObjectId) (name : String) (kind : TargetKind)
  | schemeFor (t : ObjectId)
  | setLaunchArguments (scheme : String) (arguments : List LaunchArgument)
  | setEnvironmentVariables (scheme : String) (environment : List EnvironmentVariable)
  | setTestTargets (scheme : String) (tests : List ObjectId) (codeCoverage : Bool)
  | targets
  | targetNamed (name : String)
  | buildPhases (t : ObjectId)
  | phaseFiles (phase : Identified BuildPhase)
  | buildConfigurations (t : ObjectId)
  | findFileReference (group : ObjectId) (path : String)
  | findProduct (path : String)
  | snapshot

namespace Operation

variable [IdScheme]

/-- The operation as a change of a project. -/
def run : Operation → Edit Unit
  | newNativeTarget name kind => discard <| Project.newNativeTarget name kind
  | newConfigurationList t platform language kind =>
    Project.newConfigurationList t platform language kind
  | setBuildSettings configuration settings => Project.setBuildSettings configuration settings
  | groupForPath directory => discard <| Project.groupForPath directory
  | newFileReference group path => discard <| Project.newFileReference group path
  | addBuildPhase t kind => Project.addBuildPhase t kind
  | addFileToPhase t kind file settings => Project.addFileToPhase t kind file settings
  | addScriptPhase t slot script => Project.addScriptPhase t slot script
  | newProductReference t name kind => discard <| Project.newProductReference t name kind
  | schemeFor t => discard <| Project.schemeFor t
  | setLaunchArguments scheme arguments => Project.setLaunchArguments scheme arguments
  | setEnvironmentVariables scheme environment => Project.setEnvironmentVariables scheme environment
  | setTestTargets scheme tests codeCoverage => Project.setTestTargets scheme tests codeCoverage
  | targets => discard Project.targets
  | targetNamed name => discard <| Project.targetNamed? name
  | buildPhases t => discard <| Project.buildPhases t
  | phaseFiles phase => discard <| Project.phaseFiles phase.content
  | buildConfigurations t => discard <| Project.buildConfigurations t
  | findFileReference group path => discard <| Project.findFileReference group path
  | findProduct path => discard <| Project.findProduct path
  | snapshot => discard Project.snapshot

omit [IdScheme] in
/-- The operation is applied to objects of the project, each of the type that it takes. -/
def Valid (p : Project) : Operation → Prop
  | newConfigurationList t .. | addBuildPhase t _ | addScriptPhase t .. | newProductReference t ..
  | schemeFor t | buildPhases t | buildConfigurations t => ∃ a, p.content? t = some (.target a)
  | setBuildSettings i _ => ∃ c, p.content? i = some (.configuration c)
  | newFileReference i _ | findFileReference i _ => ∃ g, p.content? i = some (.group g)
  | addFileToPhase t _ file _ =>
    (∃ a, p.content? t = some (.target a)) ∧ p.content? file.id = some (.file file.content)
  | setTestTargets _ tests _ => ∀ t ∈ tests, ∃ a, p.content? t = some (.target a)
  | phaseFiles phase => p.content? phase.id = some (.phase phase.content)
  | newNativeTarget .. | groupForPath _ | setLaunchArguments .. | setEnvironmentVariables .. | targets
  | targetNamed _ | findProduct _ | snapshot => True

/-- The operation gives configurations to a target. -/
def Configures : Operation → Prop
  | newConfigurationList .. => True
  | _ => False

end Operation

namespace Project

variable [IdScheme] {p : Project}

theorem exists_phaseFiles (hp : p.WellFormed) {i : ObjectId} {q : BuildPhase}
    (hq : p.content? i = some (.phase q)) : ∃ files, phaseFiles q p = .ok files p := by
  have hmem : ∀ r ∈ q.files, ∃ f, p.content? r.id = some (.buildFile f) := fun r hr =>
    hp.buildFile_of_mem hq hr
  unfold phaseFiles
  generalize q.files = rs at hmem
  induction rs with
  | nil => exact ⟨[], rfl⟩
  | cons r rs ih =>
    obtain ⟨f, hf⟩ := hmem r (by simp)
    obtain ⟨g, hg⟩ := hp.file_of_buildFile hf
    obtain ⟨files, hfiles⟩ := ih fun r' hr => hmem r' (List.mem_cons_of_mem r hr)
    have hbuildFile : resolveAs Content.buildFile? r.id p = .ok f p := resolveAs_of_content? hf rfl
    have hfile : resolveAs Content.file? f.file.id p = .ok g p := resolveAs_of_content? hg rfl
    refine ⟨g :: files, ?_⟩
    rw [List.mapM_cons, bind_assoc, bind_of_ok hbuildFile, bind_of_ok hfile, bind_of_ok hfiles]
    rfl

end Project

theorem Step.Gives.slot?_eq {p : Project} {s : Step} {name slot : String} {script : Script}
    (h : s.Gives p name slot script) : s.slot? = some slot := by
  rcases h with ⟨i, rfl⟩ | ⟨t, a, i, rfl, -⟩ <;> rfl

/-- The step can be one of the operation: only one of the operations makes configurations, only one
sets scripts, and schemes get to mention registered targets only. -/
structure Operation.Allows (op : Operation) (q : Project) (s : Step) : Prop where
  configuring : s.isConfiguring → op.Configures
  arranging : s.Arranging q
  gives : ∀ name slot script, s.Gives q name slot script → ∃ t, op = .addScriptPhase t slot script

namespace Operation.Allows

variable {op : Operation} {q : Project} {s : Step}

theorem of_slot?_eq_none (hs : s.isConfiguring → op.Configures) (ha : s.Arranging q)
    (h : s.slot? = none) : op.Allows q s where
  configuring := hs
  arranging := ha
  gives name slot script hgives := by
    rw [hgives.slot?_eq] at h
    cases h

/-- A step that registers or changes one object other than a configuration or a script. -/
theorem of_plain (hs : s.isConfiguring → op.Configures) (ha : s.onSchemes = false)
    (h : s.slot? = none) : op.Allows q s :=
  of_slot?_eq_none hs (Step.arranging_of_not_onSchemes ha) h

theorem of_arrangingSteps {name : String} (h : Project.ArrangingSteps name q s) : op.Allows q s := by
  obtain ⟨hsteps, harranging⟩ := h
  refine of_slot?_eq_none (fun hs => absurd hs (Step.not_isConfiguring_of_schemeSteps hsteps)) harranging ?_
  rcases hsteps with ⟨new, -, rfl⟩ | ⟨name, -, change, rfl⟩ <;> rfl

end Operation.Allows

/-- A valid operation takes steps, and fails in no other way than steps do. -/
theorem Operation.performs [IdScheme] {p : Project} (hp : p.WellFormed) {op : Operation}
    (hv : op.Valid p) :
    Edit.Performs op.Allows op.run p fun _ _ => True := by
  have hweaken : ∀ {A : Project → Step → Prop} {x : Edit Unit} {R : Unit → Project → Prop},
      Edit.Performs A x p R → (∀ q s, A q s → op.Allows q s) →
        Edit.Performs op.Allows x p fun _ _ => True :=
    fun h hA => h.mono hA fun _ _ _ _ => trivial
  have hread : ∀ {α : Type} {x : Edit α} {a : α}, x p = .ok a p →
      Edit.Performs op.Allows (discard x) p fun _ _ => True :=
    fun h => .of_ok (discard_of_ok h) trivial
  cases op with
  | newNativeTarget name kind =>
    refine hweaken (Project.performs_newNativeTarget hp name kind).discard ?_
    rintro q s rfl
    exact .of_plain (by simp [Step.isConfiguring]) rfl rfl
  | newConfigurationList t platform language kind =>
    obtain ⟨a, ha⟩ := hv
    refine hweaken (Project.performs_newConfigurationList hp ha platform language kind) ?_
    rintro q s ⟨-, ⟨_, _, _, _, rfl⟩ | ⟨l, rfl, -⟩⟩ <;> exact .of_plain (fun _ => trivial) rfl rfl
  | setBuildSettings i settings =>
    obtain ⟨c, hc⟩ := hv
    refine hweaken (Project.performs_setBuildSettings hc settings) ?_
    rintro q s ⟨-, rfl⟩
    exact .of_plain (by simp [Step.isConfiguring]) rfl rfl
  | groupForPath directory =>
    refine hweaken (Project.performs_groupForPath p directory).discard ?_
    rintro q s ⟨i, above, name, rfl, -⟩
    exact .of_plain (by simp [Step.isConfiguring]) rfl rfl
  | newFileReference i path =>
    obtain ⟨g, hg⟩ := hv
    refine hweaken (Project.performs_newFileReference hp hg path).discard ?_
    rintro q s ⟨-, rfl⟩
    exact .of_plain (by simp [Step.isConfiguring]) rfl rfl
  | addBuildPhase t kind =>
    obtain ⟨a, ha⟩ := hv
    refine hweaken (Project.performs_addBuildPhase hp ha kind) ?_
    rintro q s rfl
    exact .of_plain (by simp [Step.isConfiguring]) rfl rfl
  | addFileToPhase t kind file settings =>
    obtain ⟨⟨a, ha⟩, hfile⟩ := hv
    refine hweaken (Project.performs_addFileToPhase hp ha kind hfile settings) ?_
    rintro q s (rfl | ⟨i, f, rfl, -⟩) <;>
      exact .of_plain (by simp [Step.isConfiguring]) rfl rfl
  | addScriptPhase t slot script =>
    obtain ⟨a, ha⟩ := hv
    refine hweaken (Project.performs_addScriptPhase hp ha slot script) ?_
    rintro q s (rfl | ⟨j, rfl⟩)
    · refine ⟨by simp [Step.isConfiguring], Step.arranging_of_not_onSchemes rfl, ?_⟩
      rintro name slot' script' (⟨i, h⟩ | ⟨u, b, i, h, -⟩) <;> cases h
      exact ⟨t, rfl⟩
    · refine ⟨by simp [Step.isConfiguring], Step.arranging_of_not_onSchemes rfl, ?_⟩
      rintro name slot' script' (⟨i, h⟩ | ⟨u, b, i, h, -⟩) <;> cases h
      exact ⟨t, rfl⟩
  | newProductReference t name kind =>
    obtain ⟨a, ha⟩ := hv
    refine hweaken (Project.performs_newProductReference hp ha name kind).discard ?_
    rintro q s (⟨type, rfl⟩ | ⟨f, -, rfl⟩) <;>
      exact .of_plain (by simp [Step.isConfiguring]) rfl rfl
  | schemeFor t =>
    obtain ⟨a, ha⟩ := hv
    exact hweaken (Project.performs_schemeFor hp ha).discard fun _ _ h => .of_arrangingSteps h
  | setLaunchArguments scheme arguments =>
    refine hweaken (Project.performs_of_changeScheme (Project.setLaunchArguments_eq scheme arguments p)
      (List.forall_mem_nil _) ?_) fun _ _ h => .of_arrangingSteps h
    simp
  | setEnvironmentVariables scheme environment =>
    refine hweaken (Project.performs_of_changeScheme
      (Project.setEnvironmentVariables_eq scheme environment p) (List.forall_mem_nil _) ?_)
      fun _ _ h => .of_arrangingSteps h
    simp
  | setTestTargets scheme tests codeCoverage =>
    obtain ⟨entries, hentries, hrefers⟩ := Project.exists_mapM_buildableReference hp hv
    refine hweaken (Project.performs_of_changeScheme
      (Project.setTestTargets_eq hentries scheme codeCoverage) hrefers ?_)
      fun _ _ h => .of_arrangingSteps h
    simp
  | targets =>
    obtain ⟨r, hr⟩ := hp.record
    have htargets : Project.targets p = .ok (p.objectsAt r.targets) p := by
      show (Project.projectRecord >>= fun r => r.targets.mapM Project.follow) p = _
      rw [bind_of_ok (Project.projectRecord_of_content? hr)]
      exact Project.mapM_follow (hp.isSome_of_targets hr)
    exact hread htargets
  | targetNamed name =>
    obtain ⟨r, hr⟩ := hp.record
    exact hread (Project.targetNamed?_eq hp hr name)
  | buildPhases t =>
    obtain ⟨a, ha⟩ := hv
    exact hread (Project.buildPhases_eq hp ha)
  | phaseFiles phase =>
    obtain ⟨files, hfiles⟩ := Project.exists_phaseFiles hp hv
    exact hread hfiles
  | buildConfigurations t =>
    obtain ⟨a, ha⟩ := hv
    exact hread (Project.buildConfigurations_eq hp ha)
  | findFileReference i path =>
    obtain ⟨g, hg⟩ := hv
    exact hread (Project.findFileReference_eq hp hg path)
  | findProduct path => exact hread (Project.findProduct_eq hp path)
  | snapshot =>
    obtain ⟨r, hr⟩ := hp.record
    exact hread (Project.snapshot_eq hp hr)

/-! ## Moves and what they reach -/

/-- An operation, a build or a run takes one project to the other, and fails with the error if there
is one. -/
inductive Move [IdScheme] : Project → Option Error → Project → Prop
  | operation {p} (op : Operation) (valid : op.Valid p) :
      Move p (failureOf op.run p) (stateAfter op.run p)
  | build (s : BuildState) (d : Target) :
      Move s.project (failureOf (Build.build d) s) (stateAfter (Build.build d) s).project
  | run (w : Workspace) (g : Generator) (ds : List Declaration) :
      Move w.project (failureOf (g.run ds) w) (stateAfter (g.run ds) w).project

/-- Moves lead to the project from a new one. -/
inductive Reachable [IdScheme] : Project → Prop
  | new {name value p} (new : Project.ofValue name value = .ok p) : Reachable p
  | move {p e q} (reachable : Reachable p) (move : Move p e q) : Reachable q

variable [IdScheme] {p q : Project} {e : Option Error}

/-- A move takes steps, and fails in no other way than steps do. -/
theorem Move.outcome (h : Move p e q) (hp : p.WellFormed) (ho : p.Owned) :
    Path (fun _ _ => True) p q ∧ ∀ err, e = some err → Failure (fun _ _ => True) q err := by
  cases h with
  | operation op valid =>
    exact ((op.performs hp valid).weaken fun _ _ _ => trivial).outcome
  | build s d =>
    have hbuild : Build.Performs (fun _ _ => True) (Build.build d) s fun _ _ => True := by
      rw [Build.build_eq]
      exact (Performs.map (Build.performs_reportedBuild hp d) fun _ _ _ => trivial).weaken
        fun _ _ _ => trivial
    exact hbuild.outcome
  | run w g ds =>
    obtain ⟨hpath, hfails⟩ := (Generator.performs_run hp ho g ds).outcome
    exact ⟨hpath.mono fun _ _ _ => trivial, fun e he => (hfails e he).mono fun _ _ _ => trivial⟩

theorem Reachable.invariant (h : Reachable p) : p.WellFormed ∧ p.Owned := by
  induction h with
  | new new => exact Project.wellFormed_of_ofValue new
  | move _ move ih =>
    obtain ⟨hpath, -⟩ := move.outcome ih.1 ih.2
    exact ⟨hpath.wellFormed ih.1, hpath.owned ih.1 ih.2⟩

theorem Reachable.wellFormed (h : Reachable p) : p.WellFormed := h.invariant.1

theorem Reachable.owned (h : Reachable p) : p.Owned := h.invariant.2

theorem Reachable.of_run {g : Generator} {ds : List Declaration} {w w' : Workspace}
    (h : Reachable w.project) (hrun : g.run ds w = .ok () w') : Reachable w'.project := by
  have hmove := Move.run w g ds
  rw [stateAfter_of_ok hrun] at hmove
  exact h.move hmove

end ProjectGraph
