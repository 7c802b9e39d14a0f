import ProjectGraph.Proofs.Builds.Sound
import ProjectGraph.Proofs.Ownership.Unique

/-! # What the phases of a target hold

The phases of a target, the paths of the files in them and the input files of its scripts are read from
the project as from its document: from the target through the lists of references. Build files and
phases tell the same by their own fields. -/

namespace ProjectGraph

/-- The input files of the script in a slot. -/
def PhaseRole.inputs? (slot : String) : PhaseRole → Option (List String)
  | .script s x => if s = slot then some x.inputs else none
  | .files _ => none

theorem PhaseRole.inputs?_eq_some {slot : String} {role : PhaseRole} {inputs : List String} :
    role.inputs? slot = some inputs ↔ ∃ script, role = .script slot script ∧ script.inputs = inputs := by
  cases role with
  | files kind => simp [inputs?]
  | script s x =>
    simp only [inputs?, Option.ite_none_right_eq_some, Option.some.injEq, PhaseRole.script.injEq]
    constructor
    · rintro ⟨rfl, rfl⟩
      exact ⟨x, ⟨rfl, rfl⟩, rfl⟩
    · rintro ⟨y, ⟨rfl, rfl⟩, h⟩
      exact ⟨rfl, h⟩

namespace Project

/-! ## Reading phases -/

/-- The file that a reference to a build file leads to. -/
def fileBehind (p : Project) (r : Reference) : Option FileReference := do
  let f ← (← p.content? r.id).buildFile?
  (← p.content? f.file.id).file?

/-- The files in a phase, in order. -/
def filesOf (p : Project) (q : BuildPhase) : List FileReference := q.files.filterMap p.fileBehind

/-- The phases that a target of this name lists, in order. -/
def phasesOf (p : Project) (name : String) : List (Identified BuildPhase) :=
  p.objects.flatMap fun o =>
    match o.content.targetNamed? name with
    | none => []
    | some a => a.buildPhases.filterMap fun r => do
      let q ← (← p.content? r.id).phase?
      return ⟨r.id, q⟩

/-- The phase, which is one of sources or resources, has a file with this path. -/
def Member (p : Project) (phase : ObjectId) (path : String) : Prop :=
  ∃ q kind, p.content? phase = some (.phase q) ∧ q.role = .files kind ∧ kind.claims ∧
    path ∈ (p.filesOf q).map FileReference.path

/-- The paths of the files that targets of this name are linked with. -/
def linkedPaths (p : Project) (name : String) : List String :=
  ((p.phasesOf name).filter fun x => x.content.role = .files .frameworks).flatMap fun x =>
    (p.filesOf x.content).map FileReference.path

/-- The input files of the phase in which a target of this name copies frameworks, if it has one. -/
def copyInputs (p : Project) (name : String) : Option (List String) :=
  (p.phasesOf name).findSome? fun x => x.content.role.inputs? copyFrameworksSlot

variable {p : Project} {name slot path : String} {q : BuildPhase} {i : ObjectId}

theorem fileBehind_eq_some {r : Reference} {g : FileReference} :
    p.fileBehind r = some g ↔
      ∃ f, p.content? r.id = some (.buildFile f) ∧ p.content? f.file.id = some (.file g) := by
  unfold fileBehind
  simp only [Option.bind_eq_bind, Option.bind_eq_some_iff]
  constructor
  · rintro ⟨c, hc, f, hf, d, hd, hg⟩
    cases c <;> cases hf
    cases d <;> cases hg
    exact ⟨f, hc, hd⟩
  · rintro ⟨f, hf, hg⟩
    exact ⟨_, hf, f, rfl, _, hg, rfl⟩

theorem mem_filesOf {g : FileReference} :
    g ∈ p.filesOf q ↔ ∃ r ∈ q.files, ∃ f, p.content? r.id = some (.buildFile f) ∧
      p.content? f.file.id = some (.file g) := by
  simp only [filesOf, List.mem_filterMap, fileBehind_eq_some]

variable [IdScheme]

/-- A target lists the phases with its name. -/
theorem mem_phasesOf (hp : p.WellFormed) (ho : p.Owned) {x : Identified BuildPhase} :
    x ∈ p.phasesOf name ↔ p.content? x.id = some (.phase x.content) ∧ x.content.target = name := by
  constructor
  · intro hx
    obtain ⟨o, hmem, hx⟩ := List.mem_flatMap.1 hx
    cases ha : o.content.targetNamed? name with
    | none =>
      rw [ha] at hx
      cases hx
    | some a =>
      rw [ha] at hx
      obtain ⟨r, hr, hphase⟩ := List.mem_filterMap.1 hx
      simp only [Option.bind_eq_bind, Option.bind_eq_some_iff, Option.pure_def, Option.some.injEq] at hphase
      obtain ⟨c, hc, q, hq, rfl⟩ := hphase
      cases c <;> cases hq
      obtain ⟨htarget, rfl⟩ := Content.targetNamed?_eq_some.1 ha
      have ho := content?_of_mem hp.nodup_ids hmem
      rw [htarget] at ho
      exact ⟨hc, hp.phases _ a ho r hr q hc⟩
  · rintro ⟨hx, rfl⟩
    obtain ⟨t, a, ha, hlisted, hname⟩ := ho.exists_target_of_phase hp hx
    obtain ⟨r, hr, hid⟩ := List.mem_map.1 hlisted
    obtain ⟨o, hmem, -, hcontent⟩ := exists_mem_of_content? ha
    refine List.mem_flatMap.2 ⟨o, hmem, ?_⟩
    rw [Content.targetNamed?_eq_some.2 ⟨hcontent, hname⟩]
    refine List.mem_filterMap.2 ⟨r, hr, ?_⟩
    rw [hid, hx]
    rfl

/-! ## What build files tell -/

/-- A file in a phase of files is put there by a build file. -/
theorem exists_joins_of_mem_filesOf (hp : p.WellFormed) {kind : PhaseKind}
    (hq : p.content? i = some (.phase q)) (hrole : q.role = .files kind)
    (h : path ∈ (p.filesOf q).map FileReference.path) :
    ∃ file g, p.Joins q.target kind file ∧ p.content? file = some (.file g) ∧ g.path = path := by
  obtain ⟨g, hg, rfl⟩ := List.mem_map.1 h
  obtain ⟨r, hr, f, hf, hfile⟩ := mem_filesOf.1 hg
  obtain ⟨htarget, hplace⟩ := hp.buildFiles i q hq r hr f hf
  rw [hrole] at hplace
  exact ⟨f.file.id, g, ⟨r.id, f, hf, htarget, (Sum.inl.inj hplace).symm, rfl⟩, hfile, rfl⟩

/-- What a build file puts into a phase is in it. -/
theorem exists_phase_of_joins (hp : p.WellFormed) (ho : p.Owned) {kind : PhaseKind} {file : ObjectId}
    {g : FileReference} (h : p.Joins name kind file) (hg : p.content? file = some (.file g)) :
    ∃ i q, p.content? i = some (.phase q) ∧ q.target = name ∧ q.role = .files kind ∧
      g.path ∈ (p.filesOf q).map FileReference.path := by
  obtain ⟨j, f, hf, rfl, rfl, rfl⟩ := h
  obtain ⟨i, c, hc, hlink⟩ :=
    ho.exists_owner hp hf rfl (Owned.ne_mainGroup hp hf (by simp [Content.home?]))
  obtain ⟨q, rfl, hlisted⟩ := Content.mem_linkedIds_phaseFile.1 hlink
  obtain ⟨r, hr, rfl⟩ := List.mem_map.1 hlisted
  obtain ⟨htarget, hplace⟩ := hp.buildFiles i q hc r hr f hf
  refine ⟨i, q, hc, htarget.symm, PhaseRole.place_eq_inl.1 hplace, ?_⟩
  exact List.mem_map_of_mem (mem_filesOf.2 ⟨r, hr, f, hf, hg⟩)

theorem mem_linkedPaths (hp : p.WellFormed) (ho : p.Owned) :
    path ∈ p.linkedPaths name ↔
      ∃ file g, p.Joins name .frameworks file ∧ p.content? file = some (.file g) ∧ g.path = path := by
  unfold linkedPaths
  simp only [List.mem_flatMap, List.mem_filter, mem_phasesOf hp ho, decide_eq_true_eq]
  constructor
  · rintro ⟨x, ⟨⟨hx, rfl⟩, hrole⟩, hpath⟩
    exact exists_joins_of_mem_filesOf hp hx hrole hpath
  · rintro ⟨file, g, hjoins, hg, rfl⟩
    obtain ⟨i, q, hq, htarget, hrole, hpath⟩ := exists_phase_of_joins hp ho hjoins hg
    exact ⟨⟨i, q⟩, ⟨⟨hq, htarget⟩, hrole⟩, hpath⟩

/-! ## What script phases tell -/

/-- A target has one script in a slot. -/
theorem Scripted.unique (hp : p.WellFormed) {script script' : Script}
    (h : p.Scripted name slot script) (h' : p.Scripted name slot script') : script = script' := by
  obtain ⟨i, q, hq, htarget, hrole⟩ := h
  obtain ⟨i', q', hq', htarget', hrole'⟩ := h'
  have hkey : q.key = q'.key := by
    unfold BuildPhase.key
    rw [hrole, hrole', htarget, htarget']
  obtain rfl := hp.eq_of_key_eq hq hq' hkey
  rw [hq] at hq'
  cases hq'
  rw [hrole] at hrole'
  cases hrole'
  rfl

theorem copyInputs_eq_some (hp : p.WellFormed) (ho : p.Owned) {inputs : List String} :
    p.copyInputs name = some inputs ↔
      ∃ script, p.Scripted name copyFrameworksSlot script ∧ script.inputs = inputs := by
  have hscripted : ∀ {x inputs}, x ∈ p.phasesOf name →
      x.content.role.inputs? copyFrameworksSlot = some inputs →
      ∃ script, p.Scripted name copyFrameworksSlot script ∧ script.inputs = inputs := by
    intro x inputs hx hinputs
    obtain ⟨hphase, htarget⟩ := (mem_phasesOf hp ho).1 hx
    obtain ⟨script, hrole, hsame⟩ := PhaseRole.inputs?_eq_some.1 hinputs
    exact ⟨script, ⟨x.id, x.content, hphase, htarget, hrole⟩, hsame⟩
  constructor
  · intro h
    obtain ⟨x, hx, hinputs⟩ := List.exists_of_findSome?_eq_some h
    exact hscripted hx hinputs
  · rintro ⟨script, hscript, rfl⟩
    obtain ⟨i, q, hq, htarget, hrole⟩ := hscript
    have hx : ⟨i, q⟩ ∈ p.phasesOf name := (mem_phasesOf hp ho).2 ⟨hq, htarget⟩
    cases hfound : p.copyInputs name with
    | none =>
      have hnone := List.findSome?_eq_none_iff.1 hfound _ hx
      rw [PhaseRole.inputs?_eq_some.2 ⟨script, hrole, rfl⟩] at hnone
      cases hnone
    | some inputs =>
      obtain ⟨y, hy, hinputs⟩ := List.exists_of_findSome?_eq_some hfound
      obtain ⟨script', hscript', rfl⟩ := hscripted hy hinputs
      rw [hscript'.unique hp ⟨i, q, hq, htarget, hrole⟩]

end Project
end ProjectGraph
