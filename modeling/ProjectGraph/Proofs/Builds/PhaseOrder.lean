import ProjectGraph.Proofs.Builds.Filing
import ProjectGraph.Proofs.Operations.Roles

/-! # The phases that a build makes

A build makes the phases of its target in the order of its parts. A part whose phase is there takes it
as it is. -/

namespace ProjectGraph

/-- The roles of the phases that run the scripts of a stage, in slots from an index on. -/
def Stage.roles (stage : Stage) (index : Nat) (scripts : List Script) : List PhaseRole :=
  scripts.mapIdx fun i script => .script (scriptSlot stage (index + i)) script

theorem Stage.roles_cons (stage : Stage) (index : Nat) (script : Script) (scripts : List Script) :
    stage.roles index (script :: scripts) =
      .script (scriptSlot stage index) script :: stage.roles (index + 1) scripts := by
  simp only [roles, List.mapIdx_cons, Nat.add_zero, Nat.add_right_comm index 1, Nat.add_assoc]

theorem Stage.place_of_mem_roles {stage : Stage} {index : Nat} {scripts : List Script}
    {role : PhaseRole} (h : role ∈ stage.roles index scripts) :
    ∃ i, role.place = .inr (scriptSlot stage i) := by
  obtain ⟨i, -, rfl⟩ := List.mem_mapIdx.1 h
  exact ⟨index + i, rfl⟩

theorem Stage.files_not_mem_roles {stage : Stage} {index : Nat} {scripts : List Script}
    {kind : PhaseKind} : .files kind ∉ stage.roles index scripts := by
  intro h
  obtain ⟨i, hplace⟩ := place_of_mem_roles h
  cases hplace

namespace Target

variable (d : Target)

/-- What the phases do that a build makes while it enters its target. -/
def enteredRoles : List PhaseRole :=
  Stage.pre.roles 0 (d.preBuildScripts.getD []) ++ d.filedHeader.toList.map fun _ => .files .headers

/-- What the phases do that a build makes up to the filing of the sources. There is a phase of sources if
any of them are new. -/
def filedRoles (hasSources : Bool) : List PhaseRole :=
  d.enteredRoles ++ if hasSources then [.files .sources] else []

/-- What the phases do that a build makes before it links its target. -/
def preparedRoles (hasSources : Bool) : List PhaseRole :=
  d.filedRoles hasSources ++ [.files .resources, .files .frameworks] ++
    Stage.post.roles 0 (d.postBuildScripts.getD [])

/-- The script by which a test copies frameworks, if there are any. -/
def copyScript? (body : String) (names : List String) : Option Script :=
  if d.isTest && !names.isEmpty then some ⟨copyFrameworksName, body, names⟩ else none

/-- What the phases do that a build makes. -/
def roles (hasSources : Bool) (body : String) (names : List String) : List PhaseRole :=
  d.preparedRoles hasSources ++ (d.copyScript? body names).toList.map (.script copyFrameworksSlot)

variable {d} {role : PhaseRole} {hasSources : Bool}

theorem cases_of_mem_filedRoles (h : role ∈ d.filedRoles hasSources) :
    (∃ i, role.place = .inr (scriptSlot .pre i)) ∨ role = .files .headers ∨ role = .files .sources := by
  unfold filedRoles enteredRoles at h
  simp only [List.mem_append, List.mem_map] at h
  rcases h with (h | ⟨path, -, rfl⟩) | h
  · exact .inl (Stage.place_of_mem_roles h)
  · exact .inr (.inl rfl)
  · cases hasSources with
    | true => exact .inr (.inr (List.mem_singleton.1 h))
    | false => cases h

theorem cases_of_mem_preparedRoles (h : role ∈ d.preparedRoles hasSources) :
    (∃ i, role.place = .inr (scriptSlot .pre i)) ∨ (∃ i, role.place = .inr (scriptSlot .post i)) ∨
      ∃ kind, role = .files kind := by
  unfold preparedRoles at h
  simp only [List.mem_append, List.mem_cons, List.not_mem_nil, or_false] at h
  rcases h with (h | rfl | rfl) | h
  · rcases cases_of_mem_filedRoles h with hpre | rfl | rfl
    · exact .inl hpre
    · exact .inr (.inr ⟨_, rfl⟩)
    · exact .inr (.inr ⟨_, rfl⟩)
  · exact .inr (.inr ⟨_, rfl⟩)
  · exact .inr (.inr ⟨_, rfl⟩)
  · exact .inr (.inl (Stage.place_of_mem_roles h))

theorem mem_preparedRoles {kind : PhaseKind} (h : kind = .resources ∨ kind = .frameworks) :
    .files kind ∈ d.preparedRoles hasSources := by
  rcases h with rfl | rfl <;> simp [preparedRoles]

end Target

namespace Step

open Project

variable {t : ObjectId} {q : Project} {s : Step} {owner : String}

theorem keepsRoles_of_listSteps (h : ListSteps t owner q s) : s.keepsRoles := by
  rcases h with ⟨-, ⟨platform, language, kind, name, rfl⟩ | ⟨l, rfl, -⟩⟩ <;> rfl

theorem keepsRoles_of_filingSteps {path : String} (h : FilingSteps path q s) : s.keepsRoles := by
  rcases h with ⟨i, above, name, rfl, -⟩ | ⟨i, rfl, -⟩ <;> rfl

theorem keepsRoles_of_settingsSteps {d : Target} {p : Project} (h : SettingsSteps d t p q s) :
    s.keepsRoles := by
  obtain ⟨i, c, -, rfl, -⟩ := h
  rfl

theorem keepsRoles_of_productSteps {path : String} (h : ProductSteps t path q s) : s.keepsRoles := by
  rcases h with ⟨type, rfl⟩ | ⟨f, -, rfl⟩ <;> rfl

theorem phase_of_fileSteps {kind : PhaseKind} {file : ObjectId} {settings : Option Settings}
    (h : FileSteps t owner kind file settings q s) :
    s.keepsRoles ∨ ∃ name, s = .attach t (.phase name (.files kind)) := by
  rcases h with rfl | ⟨i, f, rfl, -⟩
  · exact .inr ⟨owner, rfl⟩
  · exact .inl rfl

theorem phase_of_headerSteps {path : String} (h : HeaderSteps t owner path q s) :
    s.keepsRoles ∨ ∃ name, s = .attach t (.phase name (.files .headers)) := by
  rcases h with h | ⟨file, h⟩
  · exact .inl (keepsRoles_of_filingSteps h)
  · exact phase_of_fileSteps h

theorem phase_of_addingSteps {kind : PhaseKind} (h : AddingSteps t owner kind q s) :
    s.keepsRoles ∨ ∃ name, s = .attach t (.phase name (.files kind)) := by
  obtain ⟨path, h | ⟨file, h, -⟩⟩ := h
  · exact .inl (keepsRoles_of_filingSteps h)
  · exact phase_of_fileSteps h

theorem phase_of_linkingSteps {names : List String} (h : LinkingSteps t owner names q s) :
    s.keepsRoles ∨ ∃ name, s = .attach t (.phase name (.files .frameworks)) := by
  obtain ⟨n, -, f, -, h⟩ := h
  exact phase_of_fileSteps h

end Step

namespace Project

variable [IdScheme] {p q : Project} {A : Project → Step → Prop} {t : ObjectId} {kind : PhaseKind}

/-! ## Operations -/

/-- A phase of files that comes to be comes last. -/
theorem roles_of_hasPhase (hpq : Path A p q) (hp : p.WellFormed)
    (hA : ∀ r s, A r s → s.keepsRoles ∨ ∃ name, s = .attach t (.phase name (.files kind)))
    (hfree : .files kind ∉ p.roles t) (hphase : q.HasPhase t kind) :
    q.roles t = p.roles t ++ [.files kind] := by
  rcases hpq.roles_cases hp hA with hsame | ⟨-, hlast⟩
  · exact absurd (hsame ▸ hphase.mem_roles (hpq.wellFormed hp)) hfree
  · exact hlast

/-- A phase of files that is there is not made again. -/
theorem roles_of_mem (hpq : Path A p q) (hp : p.WellFormed)
    (hA : ∀ r s, A r s → s.keepsRoles ∨ ∃ name, s = .attach t (.phase name (.files kind)))
    (hmem : .files kind ∈ p.roles t) : q.roles t = p.roles t := by
  rcases hpq.roles_cases hp hA with hsame | ⟨hfree, -⟩
  · exact hsame
  · exact absurd rfl (hfree _ hmem)

theorem roles_addScriptPhase (hp : p.WellFormed) {a : NativeTarget}
    (ha : p.content? t = some (.target a)) {slot : String} {script : Script}
    (hfree : ∀ r ∈ p.roles t, r.place ≠ .inr slot) (h : addScriptPhase t slot script p = .ok () q) :
    q.roles t = p.roles t ++ [.script slot script] := by
  obtain ⟨hpq, hscript⟩ := Leads.of_ok
    (performs_addScriptPhase_of_free hp ha ((first_phaseAt?_eq_none_iff hp ha).2 hfree) script) h
  rcases hpq.roles_cases hp fun _ _ h => .inr ⟨_, h⟩ with hsame | ⟨-, hlast⟩
  · exact absurd rfl (hfree _ (hsame ▸ hscript.mem_roles (hpq.wellFormed hp)))
  · exact hlast

theorem roles_addScriptsFrom {stage : Stage} {scripts : List Script} {index : Nat} (hp : p.WellFormed)
    {a : NativeTarget} (ha : p.content? t = some (.target a))
    (hfree : ∀ r ∈ p.roles t, ∀ k, r.place ≠ .inr (scriptSlot stage (index + k)))
    (h : addScriptsFrom t stage index scripts p = .ok () q) :
    q.roles t = p.roles t ++ stage.roles index scripts := by
  induction scripts generalizing p a index with
  | nil =>
    cases h
    exact (List.append_nil _).symm
  | cons script scripts ih =>
    obtain ⟨_, r, hfirst, hrest⟩ := exists_of_bind_eq_ok h
    have hlast := roles_addScriptPhase hp ha (fun role hrole => hfree role hrole 0) hfirst
    obtain ⟨hpr, -⟩ := Leads.of_ok (performs_addScriptPhase hp ha _ script) hfirst
    obtain ⟨b, hb, -⟩ := hpr.grows.target ha
    rw [ih (hpr.wellFormed hp) hb ?_ hrest, hlast, List.append_assoc, Stage.roles_cons]
    · rfl
    · intro role hrole k hplace
      rw [hlast, List.mem_append, List.mem_singleton] at hrole
      rcases hrole with hrole | rfl
      · exact hfree role hrole (1 + k) (by rw [hplace, Nat.add_assoc])
      · have hindex := scriptSlot_injective (Sum.inr.inj hplace)
        omega

theorem roles_addBuildScripts {stage : Stage} {scripts : Option (List Script)} (hp : p.WellFormed)
    {a : NativeTarget} (ha : p.content? t = some (.target a))
    (hfree : ∀ r ∈ p.roles t, ∀ k, r.place ≠ .inr (scriptSlot stage k))
    (h : addBuildScripts t stage scripts p = .ok () q) :
    q.roles t = p.roles t ++ stage.roles 0 (scripts.getD []) := by
  cases scripts with
  | none =>
    cases h
    exact (List.append_nil _).symm
  | some scripts => exact roles_addScriptsFrom hp ha (fun r hr k => hfree r hr (0 + k)) h

/-! ### Filing files -/

/-- From the first project to the second one the files have been put into the target's phase of a kind
that are new: if there are any the phase is there, and otherwise nothing has happened to the phases and
the sources. -/
def Fills (p q : Project) (t : ObjectId) (kind : PhaseKind) (paths : List String) : Prop :=
  (∀ path ∈ paths, ∃ i, p.Source path i) ∧ q.roles t = p.roles t ∧
      (∀ path i, q.Source path i → p.Source path i) ∨
    (∃ path ∈ paths, ∀ i, ¬ p.Source path i) ∧ q.HasPhase t kind

omit [IdScheme] in
theorem Fills.nil (p : Project) (t : ObjectId) (kind : PhaseKind) : p.Fills p t kind [] :=
  .inl ⟨by simp, rfl, fun _ _ h => h⟩

theorem Fills.append {r : Project} {paths paths' : List String} (h : p.Fills q t kind paths)
    (hq : q.WellFormed) (hpq : p.Grows q) (hqr : q.Grows r) (h' : q.Fills r t kind paths') :
    p.Fills r t kind (paths ++ paths') := by
  rcases h with ⟨hall, hroles, hsources⟩ | ⟨⟨path, hpath, hnew⟩, hphase⟩
  · rcases h' with ⟨hall', hroles', hsources'⟩ | ⟨⟨path, hpath, hnew⟩, hphase⟩
    · refine .inl ⟨fun path hpath => ?_, hroles'.trans hroles,
        fun path i hi => hsources path i (hsources' path i hi)⟩
      rcases List.mem_append.1 hpath with hpath | hpath
      · exact hall path hpath
      · obtain ⟨i, hi⟩ := hall' path hpath
        exact ⟨i, hsources path i hi⟩
    · exact .inr ⟨⟨path, List.mem_append_right _ hpath, fun i hi => hnew i (hpq.file hi)⟩, hphase⟩
  · exact .inr ⟨⟨path, List.mem_append_left _ hpath, hnew⟩, hphase.grows hq hqr⟩

theorem fills_addFile (hp : p.Tidy) {a : NativeTarget} (ha : p.content? t = some (.target a))
    {path : String} (h : addFile t kind path p = .ok () q) : p.Fills q t kind [path] := by
  obtain ⟨i, r, hgroup, h⟩ := exists_of_bind_eq_ok h
  obtain ⟨hpr, hi⟩ := Leads.of_ok (performs_groupForPath p (Text.directoryOf path)) hgroup
  have hr := hpr.wellFormed hp.wellFormed
  obtain ⟨g, hg⟩ := hr.fileGroup hi
  rw [bind_of_ok (findFileReference_eq hr hg path)] at h
  cases hfirst : r.first (Content.fileAt? path) g.children with
  | some f =>
    rw [hfirst] at h
    cases h
    -- The group of the file may be new, but the file has been there.
    have hsources : ∀ path' j, r.Source path' j → p.Source path' j := by
      refine fun path' j => hpr.source_of_source ?_
      rintro r k ⟨_, above, name, h, -⟩
      cases h
    refine .inl ⟨?_, hpr.roles_of_keepsRoles hp.wellFormed ?_ t, hsources⟩
    · intro path' hpath'
      obtain rfl := List.mem_singleton.1 hpath'
      exact ⟨f.id, hsources _ _ ((hpr.tidy hp).source ⟨i, g, hi, hg, hfirst⟩)⟩
    · intro q s h
      have hsteps : FilingSteps path q s := .inl h
      exact Step.keepsRoles_of_filingSteps hsteps
  | none =>
    rw [hfirst] at h
    obtain ⟨f, r', hfile, h⟩ := exists_of_bind_eq_ok h
    obtain ⟨hrr', hfiled, hsource, hfree⟩ :=
      Leads.of_ok (performs_newFileReference_of_fileGroup hr hi hg hfirst) hfile
    have hr' := hrr'.wellFormed hr
    obtain ⟨b, hb, -⟩ := (hpr.grows.trans hrr'.grows).target ha
    obtain ⟨-, x, f', hx, -⟩ := Leads.of_ok (performs_addFileToPhase hr' hb kind hfiled.content? none) h
    refine .inr ⟨⟨path, List.mem_singleton_self path, fun j hj => ?_⟩, x, hx⟩
    have hregistered := hfiled.content?
    rw [hsource] at hregistered
    rw [← hr'.source_unique (hrr'.grows.file (hpr.grows.file hj)) hregistered, hpr.grows.file hj] at hfree
    cases hfree

/-- A loop fills what its rounds fill. -/
theorem fills_forM {β : Type} {f : β → Edit PUnit} {files : β → List String} {ys : List β}
    (hround : ∀ y (p q : Project) a, p.Tidy → p.content? t = some (.target a) → f y p = .ok ⟨⟩ q →
      q.Tidy ∧ p.Grows q ∧ p.Fills q t kind (files y))
    (hp : p.Tidy) {a : NativeTarget} (ha : p.content? t = some (.target a))
    (h : ys.forM f p = .ok ⟨⟩ q) : q.Tidy ∧ p.Grows q ∧ p.Fills q t kind (ys.flatMap files) := by
  induction ys generalizing p a with
  | nil =>
    cases h
    exact ⟨hp, .refl _, .nil _ t kind⟩
  | cons y ys ih =>
    obtain ⟨_, r, hfirst, hrest⟩ := exists_of_bind_eq_ok h
    obtain ⟨hr, hpr, hfills⟩ := hround y p r a hp ha hfirst
    obtain ⟨b, hb, -⟩ := hpr.target ha
    obtain ⟨hq, hrq, hfills'⟩ := ih hr hb hrest
    exact ⟨hq, hpr.trans hrq, hfills.append hr.wellFormed hpr hrq hfills'⟩

theorem fills_addFiles (hp : p.Tidy) {a : NativeTarget} (ha : p.content? t = some (.target a))
    {paths : List (List String)} (h : addFiles t kind paths p = .ok ⟨⟩ q) :
    p.Fills q t kind paths.flatten := by
  have hfile : ∀ path (p q : Project) a, p.Tidy → p.content? t = some (.target a) →
      addFile t kind path p = .ok ⟨⟩ q → q.Tidy ∧ p.Grows q ∧ p.Fills q t kind [path] := by
    intro path p q a hp ha h
    obtain ⟨hpq, -⟩ := Leads.of_ok (performs_addFile hp.wellFormed ha kind path) h
    exact ⟨hpq.tidy hp, hpq.grows, fills_addFile hp ha h⟩
  have hfiles : ∀ paths (p q : Project) a, p.Tidy → p.content? t = some (.target a) →
      paths.forM (addFile t kind) p = .ok ⟨⟩ q → q.Tidy ∧ p.Grows q ∧ p.Fills q t kind paths := by
    intro paths p q a hp ha h
    have hfills := fills_forM hfile hp ha h
    rwa [List.flatMap_singleton'] at hfills
  have hfills := (fills_forM hfiles hp ha h).2.2
  rwa [List.flatMap_id'] at hfills

/-! ## Parts of a build -/

/-- There is a target of this name, whose phases have these roles. -/
structure Stands (p : Project) (name : String) (t : ObjectId) (roles : List PhaseRole) : Prop where
  tidy : p.Tidy
  named : p.IsNamed t name
  roles_eq : p.roles t = roles

namespace Stands

variable {name : String} {roles : List PhaseRole}

theorem keep (h : p.Stands name t roles) (hpq : Path A p q) (hA : ∀ r s, A r s → s.keepsRoles) :
    q.Stands name t roles where
  tidy := hpq.tidy h.tidy
  named := h.named.grows hpq.grows
  roles_eq := (hpq.roles_of_keepsRoles h.tidy.wellFormed hA t).trans h.roles_eq

/-- A phase of files is made. -/
theorem make (h : p.Stands name t roles) (hpq : Path A p q)
    (hA : ∀ r s, A r s → s.keepsRoles ∨ ∃ name, s = .attach t (.phase name (.files kind)))
    (hphase : q.HasPhase t kind) (hfree : .files kind ∉ roles) :
    q.Stands name t (roles ++ [.files kind]) where
  tidy := hpq.tidy h.tidy
  named := h.named.grows hpq.grows
  roles_eq := by
    have hroles := roles_of_hasPhase hpq h.tidy.wellFormed hA (h.roles_eq.symm ▸ hfree) hphase
    rw [hroles, h.roles_eq]

/-- A phase of files is taken as it is. -/
theorem reuse (h : p.Stands name t roles) (hpq : Path A p q)
    (hA : ∀ r s, A r s → s.keepsRoles ∨ ∃ name, s = .attach t (.phase name (.files kind)))
    (hmem : .files kind ∈ roles) : q.Stands name t roles where
  tidy := hpq.tidy h.tidy
  named := h.named.grows hpq.grows
  roles_eq := (roles_of_mem hpq h.tidy.wellFormed hA (h.roles_eq.symm ▸ hmem)).trans h.roles_eq

/-- The scripts of a stage get phases of their own. -/
theorem addBuildScripts {stage : Stage} {scripts : Option (List Script)}
    (h : p.Stands name t roles) (hfree : ∀ r ∈ roles, ∀ k, r.place ≠ .inr (scriptSlot stage k))
    (hadd : Project.addBuildScripts t stage scripts p = .ok () q) :
    q.Stands name t (roles ++ stage.roles 0 (scripts.getD [])) := by
  obtain ⟨a, ha, -⟩ := h.named
  have hp := h.tidy.wellFormed
  obtain ⟨hpq, -⟩ := Leads.of_ok (performs_addBuildScripts hp ha stage scripts) hadd
  refine ⟨hpq.tidy h.tidy, h.named.grows hpq.grows, ?_⟩
  rw [roles_addBuildScripts hp ha (h.roles_eq.symm ▸ hfree) hadd, h.roles_eq]

end Stands

/-- Where a new target is entered, it gets its first scripts and its headers, and no sources but its
property list and its header. -/
theorem stands_enter {d : Target} (hp : p.Tidy)
    (hnew : ∀ u a, p.content? u = some (.target a) → a.name ≠ d.name) (h : enter d p = .ok t q) :
    q.Stands d.name t d.enteredRoles ∧ ∀ path i, q.Source path i →
      p.Source path i ∨ path = d.infoPlist ∨ d.filedHeader = some path := by
  obtain ⟨t', p₁, htarget, h⟩ := exists_of_bind_eq_ok h
  obtain ⟨h₁, hnamed⟩ := Leads.of_ok (performs_newNativeTarget hp.wellFormed d.name d.kind) htarget
  have hstands₁ : p₁.Stands d.name t' [] := by
    refine ⟨h₁.tidy hp, hnamed.isNamed, ?_⟩
    rw [h₁.roles_of_keepsRoles hp.wellFormed (fun _ _ h => h ▸ rfl) t']
    refine roles_of_not_target fun a ha => hnew t' a ha ?_
    obtain ⟨b, hb, hname, -⟩ := h₁.grows.target ha
    obtain ⟨b', hb', hname'⟩ := hnamed.isNamed
    rw [hb] at hb'
    cases hb'
    exact hname.symm.trans hname'
  obtain ⟨a₁, ha₁, -⟩ := hstands₁.named
  obtain ⟨_, p₂, hlist, h⟩ := exists_of_bind_eq_ok h
  obtain ⟨h₂, -⟩ :=
    Leads.of_ok (performs_newConfigurationList hstands₁.tidy.wellFormed ha₁ _ _ _) hlist
  have hstands₂ := hstands₁.keep h₂ fun _ _ => Step.keepsRoles_of_listSteps
  obtain ⟨a₂, ha₂, -⟩ := hstands₂.named
  obtain ⟨_, p₃, hscripts, h⟩ := exists_of_bind_eq_ok h
  obtain ⟨h₃, -⟩ :=
    Leads.of_ok (performs_addBuildScripts hstands₂.tidy.wellFormed ha₂ .pre _) hscripts
  have hstands₃ := hstands₂.addBuildScripts (by simp) hscripts
  obtain ⟨_, p₄, hplist, h⟩ := exists_of_bind_eq_ok h
  obtain ⟨h₄, -⟩ := Leads.of_ok (performs_addInfoPlist hstands₃.tidy.wellFormed _) hplist
  have hstands₄ := hstands₃.keep h₄ fun _ _ => Step.keepsRoles_of_filingSteps
  obtain ⟨a₄, ha₄, -⟩ := hstands₄.named
  obtain ⟨_, p₅, hheader, h⟩ := exists_of_bind_eq_ok h
  obtain ⟨h₅, hfiled⟩ :=
    Leads.of_ok (performs_addFrameworkHeader hstands₄.tidy.wellFormed ha₄ d.filedHeader) hheader
  cases h
  constructor
  · unfold Target.enteredRoles
    cases hd : d.filedHeader with
    | none =>
      rw [Option.toList_none, List.map_nil, List.append_nil]
      refine hstands₄.keep h₅ fun r s h => ?_
      obtain ⟨path, hpath, -⟩ := h
      rw [hd] at hpath
      cases hpath
    | some path =>
      obtain ⟨f, -, x, g, hx, -⟩ := hfiled path hd
      refine hstands₄.make h₅ (fun r s h => ?_) ⟨x, hx⟩ Stage.files_not_mem_roles
      obtain ⟨path, -, h⟩ := h
      exact Step.phase_of_headerSteps h
  · intro path i hi
    by_contra hother
    push Not at hother
    obtain ⟨hsource, hplist, hheader⟩ := hother
    have hi₄ := h₅.source_of_source ?_ hi
    · have hi₃ := h₄.source_of_source (fun _ _ h => hplist (Path.eq_of_filingSteps h)) hi₄
      have hi₂ := (h₃.source_iff_of_quiet fun _ _ => Step.quiet_of_stageSteps (.inl rfl)).1 hi₃
      have hi₁ := (h₂.source_iff_of_quiet fun _ _ => Step.quiet_of_listSteps).1 hi₂
      refine hsource ((h₁.source_iff_of_quiet ?_).1 hi₁)
      rintro _ _ rfl
      exact Step.quiet_of_isQuiet rfl rfl
    · rintro r j ⟨path', hpath', h | ⟨file, h | ⟨k, f, h, -⟩⟩⟩
      · exact hheader (Path.eq_of_filingSteps h ▸ hpath')
      · cases h
      · cases h

/-- Where a target is equipped, it gets a phase of resources, one of frameworks and its last scripts. -/
theorem stands_equip {d : Target} {hasSources : Bool} (h : p.Stands d.name t (d.filedRoles hasSources))
    (he : p.Entered d t) (hequip : equip t d p = .ok () q) :
    q.Stands d.name t (d.preparedRoles hasSources) := by
  have hfree : ∀ {kind}, kind = .resources ∨ kind = .frameworks →
      .files kind ∉ d.filedRoles hasSources := by
    intro kind hkind hmem
    rcases Target.cases_of_mem_filedRoles hmem with ⟨i, hplace⟩ | hrole | hrole
    · cases hplace
    · cases hrole
      simp at hkind
    · cases hrole
      simp at hkind
  obtain ⟨_, p₁, hsettings, hequip⟩ := exists_of_bind_eq_ok hequip
  obtain ⟨h₁, -⟩ := Leads.of_ok (performs_composeSettings h.tidy.wellFormed he.list d) hsettings
  have hstands₁ := h.keep h₁ fun _ _ => Step.keepsRoles_of_settingsSteps
  obtain ⟨a₁, ha₁, -⟩ := hstands₁.named
  obtain ⟨_, p₂, hproduct, hequip⟩ := exists_of_bind_eq_ok hequip
  obtain ⟨h₂, -⟩ := Leads.of_ok
    (performs_newProductReference hstands₁.tidy.wellFormed ha₁ d.name d.kind).discard hproduct
  have hstands₂ := hstands₁.keep h₂ fun _ _ => Step.keepsRoles_of_productSteps
  obtain ⟨a₂, ha₂, -⟩ := hstands₂.named
  obtain ⟨_, p₃, hresources, hequip⟩ := exists_of_bind_eq_ok hequip
  obtain ⟨h₃, hphase₃⟩ :=
    Leads.of_ok (performs_addBuildPhase hstands₂.tidy.wellFormed ha₂ .resources) hresources
  have hstands₃ := hstands₂.make h₃ (fun _ _ h => .inr ⟨_, h⟩) hphase₃ (hfree (.inl rfl))
  obtain ⟨a₃, ha₃, -⟩ := hstands₃.named
  obtain ⟨_, p₄, hframeworks, hscripts⟩ := exists_of_bind_eq_ok hequip
  obtain ⟨h₄, hphase₄⟩ :=
    Leads.of_ok (performs_addBuildPhase hstands₃.tidy.wellFormed ha₃ .frameworks) hframeworks
  have hstands₄ := hstands₃.make h₄ (fun _ _ h => .inr ⟨_, h⟩) hphase₄
    (by simp [hfree (.inr rfl)])
  rw [List.append_assoc] at hstands₄
  refine hstands₄.addBuildScripts (fun r hr k hplace => ?_) hscripts
  simp only [List.mem_append, List.mem_singleton] at hr
  rcases hr with hr | rfl | rfl
  · rcases Target.cases_of_mem_filedRoles hr with ⟨i, hpre⟩ | rfl | rfl
    · exact scriptSlot_pre_ne_post i k (Sum.inr.inj (hpre.symm.trans hplace))
    · cases hplace
    · cases hplace
  · cases hplace
  · cases hplace

end Project

/-! ## Builds -/

namespace Build

open Project

variable [IdScheme] {d : Target} {t : ObjectId} {s s' : BuildState}

omit [IdScheme] in
theorem exists_of_edit_eq_ok {α : Type} {x : Edit α} {a : α} (h : edit x s = .ok a s') :
    x s.project = .ok a s'.project ∧ s.SameFiles s' := by
  rw [edit_eq] at h
  cases hx : x s.project with
  | ok b p =>
    rw [hx] at h
    cases h
    exact ⟨rfl, rfl, rfl⟩
  | error e p =>
    rw [hx] at h
    cases h

/-- What patterns select is resolved, and then filed. -/
theorem exists_of_fileAll_eq_ok {kind : PhaseKind} {patterns : List String}
    {exclude : Option (List (List String))} (h : fileAll t kind patterns exclude s = .ok () s') :
    ∃ files, addFiles t kind files s.project = .ok () s'.project ∧ s.SameFiles s' ∧
      s.workspace.tree.selected s.builder.root patterns exclude = files.flatten := by
  obtain ⟨files, s₁, hresolve, hadd⟩ := exists_of_bind_eq_ok h
  unfold resolveFiles at hresolve
  cases hfiles : s.workspace.tree.resolveFiles s.builder.root patterns exclude with
  | error e =>
    rw [hfiles] at hresolve
    cases hresolve
  | ok files' =>
    rw [hfiles] at hresolve
    cases hresolve
    obtain ⟨hadd, hsame⟩ := exists_of_edit_eq_ok hadd
    refine ⟨files, hadd, hsame, ?_⟩
    rw [FileTree.selected, hfiles]

/-- Sources make a phase if one of them is new. -/
theorem stands_fileAll {name : String} {roles : List PhaseRole} {kind : PhaseKind}
    {patterns : List String} {exclude : Option (List (List String))}
    (hs : s.project.Stands name t roles) (hfree : .files kind ∉ roles)
    (h : fileAll t kind patterns exclude s = .ok () s') :
    ∃ made : Bool, s'.project.Stands name t (roles ++ if made then [.files kind] else []) ∧
      (made ↔ ∃ path ∈ s.workspace.tree.selected s.builder.root patterns exclude,
        ∀ i, ¬ s.project.Source path i) := by
  obtain ⟨files, hadd, -, hselected⟩ := exists_of_fileAll_eq_ok h
  obtain ⟨a, ha, -⟩ := hs.named
  obtain ⟨hpath, -⟩ := Leads.of_ok (performs_addFiles hs.tidy.wellFormed ha kind files) hadd
  rw [hselected]
  rcases fills_addFiles hs.tidy ha hadd with ⟨hall, hroles, -⟩ | ⟨hnew, hphase⟩
  · refine ⟨false, ⟨hpath.tidy hs.tidy, hs.named.grows hpath.grows, ?_⟩, ?_⟩
    · rw [hroles, hs.roles_eq]
      exact (List.append_nil _).symm
    · refine iff_of_false Bool.false_ne_true ?_
      rintro ⟨path, hpath, hnone⟩
      obtain ⟨i, hi⟩ := hall path hpath
      exact hnone i hi
  · refine ⟨true, hs.make hpath (fun _ _ => Step.phase_of_addingSteps) hphase hfree, ?_⟩
    exact iff_of_true rfl hnew

/-- The build of a new target makes its phases in order. There is one of sources if the patterns select
a path that has no source and is not filed as the property list or the header. -/
theorem stands_prepare (hs : s.project.Tidy)
    (hnew : ∀ u a, s.project.content? u = some (.target a) → a.name ≠ d.name)
    (h : prepare d s = .ok t s') :
    ∃ hasSources : Bool, s'.project.Stands d.name t (d.preparedRoles hasSources) ∧
      (hasSources ↔ ∃ path ∈ s.workspace.tree.selected s.builder.root d.includeFiles d.excludeFiles,
        path ≠ d.infoPlist ∧ d.filedHeader ≠ some path ∧ ∀ i, ¬ s.project.Source path i) := by
  obtain ⟨_, s₀, hsay, h⟩ := exists_of_bind_eq_ok h
  cases hsay
  obtain ⟨t', s₁, henter, h⟩ := exists_of_bind_eq_ok h
  obtain ⟨henter, hfiles₁⟩ := exists_of_edit_eq_ok henter
  obtain ⟨h₁, hentered⟩ := Leads.of_ok (performs_enter hs.wellFormed d s.project) henter
  obtain ⟨hstands₁, hsources⟩ := stands_enter hs hnew henter
  obtain ⟨_, s₂, hfile, h⟩ := exists_of_bind_eq_ok h
  have hfree : .files .sources ∉ d.enteredRoles := by
    simp [Target.enteredRoles, Stage.files_not_mem_roles]
  obtain ⟨hasSources, hstands₂, hmade⟩ := stands_fileAll hstands₁ hfree hfile
  obtain ⟨h₂, -⟩ := Leads.of_ok (performs_fileAll hstands₁.tidy.wellFormed hstands₁.named .sources rfl
    d.includeFiles d.excludeFiles s.project) hfile
  obtain ⟨_, s₃, hequip, h⟩ := exists_of_bind_eq_ok h
  cases h
  have hentered₂ := hentered.path hstands₁.tidy.wellFormed (h₂.mono fun _ _ h => h.inBuild.respects)
  refine ⟨hasSources, stands_equip hstands₂ hentered₂ (exists_of_edit_eq_ok hequip).1, hmade.trans ?_⟩
  rw [hfiles₁.tree, hfiles₁.builder]
  refine exists_congr fun path => and_congr_right fun _ => ?_
  constructor
  · intro hnone
    refine ⟨?_, ?_, fun i hi => hnone i (h₁.grows.file hi)⟩
    · rintro rfl
      obtain ⟨f, hf⟩ := hentered.infoPlist
      exact hnone _ (hstands₁.tidy.source hf)
    · intro hheader
      obtain ⟨f, hf, -⟩ := hentered.header path hheader
      exact hnone _ (hstands₁.tidy.source hf)
  · rintro ⟨hplist, hheader, hnone⟩ i hi
    rcases hsources path i hi with hold | hsame | hsame
    · exact hnone i hold
    · exact hplist hsame
    · exact hheader hsame

/-- The script that copies frameworks runs as the builder has it. -/
theorem addScriptPhase_of_addCopyFrameworksPhase {names : List String}
    (h : addCopyFrameworksPhase t names s = .ok () s') :
    addScriptPhase t copyFrameworksSlot ⟨copyFrameworksName, s.builder.copyBody, names⟩ s.project =
      .ok () s'.project := by
  rw [addCopyFrameworksPhase, get_bind] at h
  unfold Builder.copyBody
  cases hdirectory : s.builder.scriptsDirectory with
  | none =>
    rw [hdirectory] at h
    exact (exists_of_edit_eq_ok h).1
  | some directory =>
    rw [hdirectory] at h
    obtain ⟨_, s₁, hinstall, h⟩ := exists_of_bind_eq_ok h
    rw [← (OnFiles.installTemplate s).of_ok hinstall]
    exact (exists_of_edit_eq_ok h).1

/-- Where a target is completed, its files go into the phases that are there, and a test gets a script
for the frameworks that it copies. -/
theorem stands_complete {hasSources : Bool} {names : List String}
    (hs : s.project.Stands d.name t (d.preparedRoles hasSources))
    (h : complete t d s = .ok names s') :
    s'.project.Stands d.name t (d.roles hasSources s.builder.copyBody names) := by
  obtain ⟨names', s₁, hlink, h⟩ := exists_of_bind_eq_ok h
  obtain ⟨hlink, hfiles₁⟩ := exists_of_edit_eq_ok hlink
  obtain ⟨a, ha, -⟩ := hs.named
  obtain ⟨h₁, -⟩ := Leads.of_ok (performs_linkDependencies hs.tidy.wellFormed ha d.dependencies) hlink
  have hstands₁ := hs.reuse h₁ (fun _ _ => Step.phase_of_linkingSteps)
    (Target.mem_preparedRoles (.inr rfl))
  obtain ⟨_, s₂, hresources, h⟩ := exists_of_bind_eq_ok h
  have hstands₂ : s₂.project.Stands d.name t (d.preparedRoles hasSources) ∧ s₁.SameFiles s₂ := by
    cases hpatterns : d.resourceFiles with
    | none =>
      rw [hpatterns] at hresources
      cases hresources
      exact ⟨hstands₁, .refl _⟩
    | some patterns =>
      rw [hpatterns] at hresources
      obtain ⟨files, hadd, hfiles, -⟩ := exists_of_fileAll_eq_ok hresources
      obtain ⟨a₁, ha₁, -⟩ := hstands₁.named
      obtain ⟨h₂, -⟩ :=
        Leads.of_ok (performs_addFiles hstands₁.tidy.wellFormed ha₁ .resources files) hadd
      exact ⟨hstands₁.reuse h₂ (fun _ _ => Step.phase_of_addingSteps)
        (Target.mem_preparedRoles (.inl rfl)), hfiles⟩
  obtain ⟨hstands₂, hfiles₂⟩ := hstands₂
  have hfiles := hfiles₁.trans hfiles₂
  unfold Target.roles Target.copyScript?
  split at h
  · next hcopy =>
    obtain ⟨_, s₃, hadd, h⟩ := exists_of_bind_eq_ok h
    cases h
    rw [if_pos hcopy, ← hfiles.builder]
    have hadd := addScriptPhase_of_addCopyFrameworksPhase hadd
    obtain ⟨a₂, ha₂, -⟩ := hstands₂.named
    have hp₂ := hstands₂.tidy.wellFormed
    obtain ⟨h₃, -⟩ := Leads.of_ok (performs_addScriptPhase hp₂ ha₂ _ _) hadd
    refine ⟨h₃.tidy hstands₂.tidy, hstands₂.named.grows h₃.grows, ?_⟩
    rw [roles_addScriptPhase hp₂ ha₂ ?_ hadd, hstands₂.roles_eq]
    · rfl
    · intro r hr hplace
      rw [hstands₂.roles_eq] at hr
      rcases Target.cases_of_mem_preparedRoles hr with ⟨i, hpre⟩ | ⟨i, hpost⟩ | ⟨kind, rfl⟩
      · exact scriptSlot_pre_ne_copyFrameworks i (Sum.inr.inj (hpre.symm.trans hplace))
      · exact scriptSlot_post_ne_copyFrameworks i (Sum.inr.inj (hpost.symm.trans hplace))
      · cases hplace
  · next hcopy =>
    cases h
    rw [if_neg hcopy, Option.toList_none, List.map_nil, List.append_nil]
    exact hstands₂

/-- A build that completes gives a new target its phases, in order, and no others. -/
theorem stands_reportedBuild {names : List String} (hs : s.project.Tidy)
    (hnew : ∀ u a, s.project.content? u = some (.target a) → a.name ≠ d.name)
    (h : reportedBuild d s = .ok (t, names) s') :
    ∃ hasSources : Bool,
      s'.project.Stands d.name t (d.roles hasSources s.builder.copyBody names) ∧
      (hasSources ↔ ∃ path ∈ s.workspace.tree.selected s.builder.root d.includeFiles d.excludeFiles,
        path ≠ d.infoPlist ∧ d.filedHeader ≠ some path ∧ ∀ i, ¬ s.project.Source path i) ∧
      names = s'.project.thirdParty (frameworkNames d.dependencies) := by
  obtain ⟨-, -, hbuilt, hopen, -⟩ := Leads.of_ok (performs_reportedBuild hs.wellFormed d) h
  obtain ⟨t', s₁, hprepare, h⟩ := exists_of_bind_eq_ok h
  obtain ⟨names', s₂, hcomplete, h⟩ := exists_of_bind_eq_ok h
  cases h
  obtain ⟨hasSources, hstands, hmade⟩ := stands_prepare hs hnew hprepare
  obtain ⟨-, hfiles, -⟩ := Leads.of_ok (performs_prepare hs.wellFormed d) hprepare
  have hcompleted := stands_complete hstands hcomplete
  rw [hfiles.builder] at hcompleted
  exact ⟨hasSources, hcompleted, hmade, (hbuilt.completed.thirdParty_eq (hopen hs.apart)).symm⟩

end Build
end ProjectGraph
