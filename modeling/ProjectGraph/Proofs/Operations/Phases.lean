import ProjectGraph.Build.Scripts
import ProjectGraph.Proofs.Operations.Performs
import ProjectGraph.Proofs.Registry.Joins

/-! # Build phases of a target -/

namespace ProjectGraph

theorem PhaseRole.place_eq_inl {role : PhaseRole} {kind : PhaseKind} :
    role.place = .inl kind ↔ role = .files kind := by
  cases role <;> simp [place]

namespace Project

variable {p q : Project} {t : ObjectId} {place : PhaseKind ⊕ String} {x : Identified BuildPhase}

/-! ## The phase in a place -/

/-- The phase is the first one of the target in this place. -/
def PhaseIn (p : Project) (t : ObjectId) (place : PhaseKind ⊕ String) (x : Identified BuildPhase) :
    Prop :=
  ∃ a, p.content? t = some (.target a) ∧ p.first (Content.phaseAt? place) a.buildPhases = some x

theorem PhaseIn.content? (h : p.PhaseIn t place x) :
    p.content? x.id = some (.phase x.content) ∧ x.content.role.place = place := by
  obtain ⟨a, -, hx⟩ := h
  obtain ⟨r, -, hid, c, hc, hview⟩ := exists_of_first hx
  obtain ⟨rfl, hplace⟩ := Content.phaseAt?_eq_some.1 hview
  exact ⟨hid ▸ hc, hplace⟩

theorem PhaseIn.exists_mem (h : p.PhaseIn t place x) :
    ∃ a, p.content? t = some (.target a) ∧ ∃ r ∈ a.buildPhases, r.id = x.id := by
  obtain ⟨a, ha, hx⟩ := h
  obtain ⟨r, hr, hid, -⟩ := exists_of_first hx
  exact ⟨a, ha, r, hr, hid⟩

variable [IdScheme]

theorem PhaseIn.target (hp : p.WellFormed) (h : p.PhaseIn t place x) {a : NativeTarget}
    (ha : p.content? t = some (.target a)) : x.content.target = a.name := by
  obtain ⟨hx, -⟩ := h.content?
  obtain ⟨b, hb, r, hr, hid⟩ := h.exists_mem
  rw [ha] at hb
  cases hb
  exact hp.phases t a ha r hr x.content (hid ▸ hx)

/-- The phase in a place stays in it, and keeps its files at the begin of its list. -/
theorem PhaseIn.grows (hp : p.WellFormed) (h : p.PhaseIn t place x) (hpq : p.Grows q) :
    ∃ y, q.PhaseIn t place y ∧ y.id = x.id ∧ x.content.files <+: y.content.files := by
  obtain ⟨hx, -⟩ := h.content?
  obtain ⟨a, ha, hfirst⟩ := h
  obtain ⟨b, hb, -, -, hbegins, -⟩ := hpq.target ha
  obtain ⟨y, hy, hid⟩ := first_of_grows (Content.stableView_phaseAt? place) hpq
    (hp.isSome_of_phases ha) hbegins hfirst
  have hyin : q.PhaseIn t place y := ⟨b, hb, hy⟩
  obtain ⟨c, hc, -, -, hfiles⟩ := hpq.phase hx
  obtain ⟨hcontent, -⟩ := hyin.content?
  rw [hid, hc] at hcontent
  cases hcontent
  exact ⟨y, hyin, hid, hfiles⟩

/-- The comment of the reference to a phase, by its role. -/
def phaseComment : PhaseRole → String
  | .files kind => kind.title
  | .script _ script => script.name

omit [IdScheme] in
/-- A target without a phase in a place can be given one. -/
theorem due_phase {a : NativeTarget} (ha : p.content? t = some (.target a)) {role : PhaseRole}
    (hnone : p.first (Content.phaseAt? role.place) a.buildPhases = none) :
    (Step.attach t (.phase a.name role)).Due p := by
  refine .phase ha fun r hr q hq hplace => ?_
  have hview := first_eq_none_iff.1 hnone r hr _ hq
  rw [Content.phaseAt?_eq_some.2 ⟨rfl, hplace⟩] at hview
  cases hview

theorem performs_appendPhase (hp : p.WellFormed) {a : NativeTarget}
    (ha : p.content? t = some (.target a)) (role : PhaseRole)
    (hnone : p.first (Content.phaseAt? role.place) a.buildPhases = none) :
    Edit.Performs (fun q s => q = p ∧ s = .attach t (.phase a.name role))
      (appendPhase t { target := a.name, role := role } (phaseComment role)) p
      fun i q => q.PhaseIn t role.place ⟨i, { target := a.name, role := role }⟩ := by
  have hdue := due_phase ha hnone
  have hcomment : (Part.phase a.name role).comment = phaseComment role := by
    cases role <;> rfl
  refine Edit.performs_register (b := (Part.phase a.name role).content.id) hdue ⟨rfl, rfl⟩ rfl ?_
    fun hfresh => ?_
  · rw [← hcomment]
    rfl
  · have hnew := first_attached hp hdue hfresh (Content.stableView_phaseAt? role.place)
      (hp.isSome_of_phases ha) hnone (Content.phaseAt?_eq_some.2 ⟨rfl, rfl⟩)
    refine ⟨{ a with buildPhases := a.buildPhases ++ [Part.reference (.phase a.name role)] }, ?_, hnew⟩
    rw [Step.content?_apply_of_some ha]
    simp [Step.reviseContent, Content.append, Part.home]

/-! ## Phases of files -/

theorem phaseOfKind_of_phaseIn {kind : PhaseKind} (hp : p.WellFormed)
    (h : p.PhaseIn t (.inl kind) x) : phaseOfKind t kind p = .ok x p := by
  obtain ⟨a, ha, hx⟩ := h
  rw [phaseOfKind, bind_of_ok (buildPhases_eq hp ha),
    findPhase_eq (isFiles_eq kind) fun r hr => hp.phase_of_mem ha hr, hx]
  rfl

/-- A target without a phase of a kind is given one. -/
theorem phaseOfKind_of_none (hp : p.WellFormed) {a : NativeTarget}
    (ha : p.content? t = some (.target a)) {kind : PhaseKind}
    (hnone : p.first (Content.phaseAt? (.inl kind)) a.buildPhases = none) :
    phaseOfKind t kind p =
      (appendPhase t { target := a.name, role := .files kind } (phaseComment (.files kind)) >>=
        fun i => pure ⟨i, { target := a.name, role := .files kind }⟩) p := by
  rw [phaseOfKind, bind_of_ok (buildPhases_eq hp ha),
    findPhase_eq (isFiles_eq kind) fun r hr => hp.phase_of_mem ha hr, hnone]
  exact bind_of_ok (target_of_content? ha)

theorem performs_phaseOfKind (hp : p.WellFormed) {a : NativeTarget}
    (ha : p.content? t = some (.target a)) (kind : PhaseKind) :
    Edit.Performs (fun _ s => s = .attach t (.phase a.name (.files kind))) (phaseOfKind t kind) p
      fun x q => q.PhaseIn t (.inl kind) x := by
  cases hx : p.first (Content.phaseAt? (.inl kind)) a.buildPhases with
  | some x =>
    have hin : p.PhaseIn t (.inl kind) x := ⟨a, ha, hx⟩
    exact .of_ok (phaseOfKind_of_phaseIn hp hin) hin
  | none =>
    refine Leads.congr (phaseOfKind_of_none hp ha hx) ?_
    refine ((performs_appendPhase hp ha (.files kind) hx).weaken fun _ _ h => h.2).bind ?_
    exact fun i q _ h => .of_ok rfl h

/-- The target has a phase of this kind. -/
def HasPhase (p : Project) (t : ObjectId) (kind : PhaseKind) : Prop := ∃ x, p.PhaseIn t (.inl kind) x

theorem HasPhase.grows {kind : PhaseKind} (hp : p.WellFormed) (h : p.HasPhase t kind)
    (hpq : p.Grows q) : q.HasPhase t kind := by
  obtain ⟨x, hx⟩ := h
  obtain ⟨y, hy, -⟩ := hx.grows hp hpq
  exact ⟨y, hy⟩

theorem addBuildPhase_of_hasPhase {kind : PhaseKind} (hp : p.WellFormed) (h : p.HasPhase t kind) :
    addBuildPhase t kind p = .ok () p := by
  obtain ⟨x, hx⟩ := h
  exact discard_of_ok (phaseOfKind_of_phaseIn hp hx)

theorem performs_addBuildPhase (hp : p.WellFormed) {a : NativeTarget}
    (ha : p.content? t = some (.target a)) (kind : PhaseKind) :
    Edit.Performs (fun _ s => s = .attach t (.phase a.name (.files kind))) (addBuildPhase t kind) p
      fun _ q => q.HasPhase t kind :=
  (performs_phaseOfKind hp ha kind).discard

/-! ## Files in phases -/

/-- The target's phase of this kind holds the file. -/
def Holds (p : Project) (t : ObjectId) (kind : PhaseKind) (file : ObjectId) : Prop :=
  ∃ x f, p.PhaseIn t (.inl kind) x ∧ p.first (Content.buildFileOf? file) x.content.files = some f

theorem Holds.grows {kind : PhaseKind} {file : ObjectId} (hp : p.WellFormed)
    (h : p.Holds t kind file) (hpq : p.Grows q) : q.Holds t kind file := by
  obtain ⟨x, f, hx, hf⟩ := h
  obtain ⟨y, hy, -, hbegins⟩ := hx.grows hp hpq
  obtain ⟨f', hf', -⟩ := first_of_grows (Content.stableView_buildFileOf? file) hpq
    (hp.isSome_of_files hx.content?.1) hbegins hf
  exact ⟨y, f', hy, hf'⟩

theorem holdsFile_of_phaseIn (hp : p.WellFormed) (h : p.PhaseIn t place x) (file : ObjectId) :
    holdsFile file x.content.files p =
      .ok (p.first (Content.buildFileOf? file) x.content.files).isSome p :=
  holdsFile_eq fun _ hr => hp.buildFile_of_mem h.content?.1 hr

/-- A file that the phase holds is not added again. -/
theorem addFileToPhase_of_holds {kind : PhaseKind} {file : Identified FileReference}
    (hp : p.WellFormed) (h : p.Holds t kind file.id) (settings : Option Settings) :
    addFileToPhase t kind file settings p = .ok () p := by
  obtain ⟨x, f, hx, hf⟩ := h
  rw [addFileToPhase, bind_of_ok (phaseOfKind_of_phaseIn hp hx),
    bind_of_ok (holdsFile_of_phaseIn hp hx file.id), hf]
  rfl

/-- The steps that put a file into a target's phase of a kind, with these settings. -/
def FileSteps (t : ObjectId) (owner : String) (kind : PhaseKind) (file : ObjectId)
    (settings : Option Settings) (_ : Project) (s : Step) : Prop :=
  s = .attach t (.phase owner (.files kind)) ∨
    ∃ i f, s = .attach i (.buildFile f) ∧ f.target = owner ∧ f.phase = kind ∧ f.file.id = file ∧
      f.settings = settings

/-- A phase that does not hold a file can be given it. -/
theorem due_buildFile (hp : p.WellFormed) {kind : PhaseKind} (hx : p.PhaseIn t (.inl kind) x)
    {a : NativeTarget} (ha : p.content? t = some (.target a)) {f : BuildFile}
    (htarget : f.target = a.name) (hkind : f.phase = kind)
    {g : FileReference} (hfile : p.content? f.file.id = some (.file g))
    (hcomment : f.file.comment = some g.name) (hname : f.name = g.name)
    (hnone : p.first (Content.buildFileOf? f.file.id) x.content.files = none) :
    (Step.attach x.id (.buildFile f)).Due p := by
  obtain ⟨hphase, hplace⟩ := hx.content?
  refine .buildFile hphase ((PhaseRole.place_eq_inl.1 hplace).trans (hkind ▸ rfl))
    (htarget.trans (hx.target hp ha).symm) ⟨g, hfile⟩ (fun r hr b hb hid => ?_) fun g' hg' => ?_
  · have hview := first_eq_none_iff.1 hnone r hr _ hb
    rw [Content.buildFileOf?_eq_some.2 ⟨rfl, hid⟩] at hview
    cases hview
  · rw [hfile] at hg'
    cases hg'
    exact ⟨hcomment, hname⟩

theorem performs_addFileToPhase (hp : p.WellFormed) {a : NativeTarget}
    (ha : p.content? t = some (.target a)) (kind : PhaseKind) {file : Identified FileReference}
    (hfile : p.content? file.id = some (.file file.content)) (settings : Option Settings) :
    Edit.Performs (FileSteps t a.name kind file.id settings) (addFileToPhase t kind file settings) p
      fun _ q => q.Holds t kind file.id := by
  refine ((performs_phaseOfKind hp ha kind).weaken fun _ s h => .inl h).bind ?_
  intro x q hpq hx
  have hq := hpq.wellFormed hp
  obtain ⟨b, hb, hname, -⟩ := hpq.grows.target ha
  obtain ⟨hphase, -⟩ := hx.content?
  refine .bind_read (holdsFile_of_phaseIn hq hx file.id) ?_
  cases hf : q.first (Content.buildFileOf? file.id) x.content.files with
  | some f => exact .of_ok (a := ()) rfl ⟨x, f, hx, hf⟩
  | none =>
    refine .bind_read (target_of_content? hb) ?_
    let f : BuildFile :=
      { file := ⟨file.id, some file.content.name⟩, name := file.content.name, target := b.name,
        phase := kind, settings := settings }
    have hdue : (Step.attach x.id (.buildFile f)).Due q :=
      due_buildFile hq hx hb rfl rfl (hpq.grows.file hfile) rfl rfl hf
    refine Edit.performs_register (b := ()) hdue (.inr ⟨x.id, f, rfl, hname, rfl, rfl, rfl⟩) rfl rfl
      fun hfresh => ?_
    have hnew := first_attached hq hdue hfresh (Content.stableView_buildFileOf? file.id)
      (hq.isSome_of_files hphase) hf (Content.buildFileOf?_eq_some.2 ⟨rfl, rfl⟩)
    obtain ⟨y, hy, hid, -⟩ := hx.grows hq (Step.grows_apply hdue)
    have hrevised : ((Step.attach x.id (.buildFile f)).apply q).content? x.id =
        some (.phase { x.content with files := x.content.files ++ [Part.reference (.buildFile f)] }) := by
      rw [Step.content?_apply_of_some hphase]
      simp [Step.reviseContent, Content.append, Part.home]
    obtain ⟨hcontent, -⟩ := hy.content?
    rw [hid, hrevised] at hcontent
    injection Option.some.inj hcontent with hcontent
    refine ⟨y, ⟨(Part.buildFile f).content.id, f⟩, hy, ?_⟩
    rw [← hcontent]
    exact hnew

end Project
end ProjectGraph
