import ProjectGraph.Proofs.Builds.Installing
import ProjectGraph.Proofs.Builds.Owners
import ProjectGraph.Proofs.Builds.PhaseOrder
import ProjectGraph.Proofs.Operations.Inward

/-! # Obstacles outside of a project

What keeps a build from completing for reasons outside of its project is found in the files and in its
description. Where a target can be built into one project, the files are no obstacle to building it into
another one that knows at least as many products, though the first build may have installed its script
already. -/

namespace ProjectGraph

open Project

/-! ## Files with and without the script -/

namespace Build

variable {s s' u u' : BuildState}

/-- Installing the script changes the tree and marks the builder. -/
theorem exists_of_installTemplate_eq_ok (hnew : s.builder.templateInstalled = false)
    (h : installTemplate s = .ok () s') :
    ∃ path, s.builder.templatePath = some path ∧
      FileTree.installScript path s.workspace.tree = .ok () s'.workspace.tree ∧
        s'.builder = { s.builder with templateInstalled := true } := by
  cases hpath : s.builder.templatePath with
  | none =>
    rw [installTemplate, get_bind] at h
    simp only [hnew, Bool.false_eq_true, if_false, hpath] at h
    cases h
  | some path =>
    rw [installTemplate_eq hpath hnew] at h
    split at h
    · next hscript =>
      cases h
      exact ⟨path, rfl, hscript, rfl⟩
    · cases h

theorem exists_installTemplate (hnew : s.builder.templateInstalled = false) {path : PathName}
    (hpath : s.builder.templatePath = some path) {t : FileTree}
    (h : FileTree.installScript path s.workspace.tree = .ok () t) :
    ∃ s', installTemplate s = .ok () s' ∧ s'.workspace.tree = t ∧
      s'.builder = { s.builder with templateInstalled := true } := by
  have hinstall := installTemplate_eq hpath hnew
  rw [h] at hinstall
  exact ⟨_, hinstall, rfl, rfl⟩

end Build

/-! ## States that differ by the script -/

/-- The files and the builder of the second state are those of the first one, with the script or
without. -/
def BuildState.Follows (s u : BuildState) : Prop :=
  s.SameFiles u ∨ ∃ s', Build.installTemplate s = .ok () s' ∧ s'.SameFiles u

namespace BuildState

open Build

variable {s s' u u' : BuildState}

theorem SameFiles.symm (h : s.SameFiles s') : s'.SameFiles s := ⟨h.tree.symm, h.builder.symm⟩

/-- What is installed depends on the files only. -/
theorem SameFiles.installTemplate (h : s.SameFiles u) (hs : Build.installTemplate s = .ok () s') :
    ∃ u', Build.installTemplate u = .ok () u' ∧ s'.SameFiles u' := by
  cases hnew : s.builder.templateInstalled with
  | true =>
    rw [installTemplate_of_installed hnew] at hs
    cases hs
    exact ⟨u, installTemplate_of_installed (h.builder ▸ hnew), h⟩
  | false =>
    obtain ⟨path, hpath, hinstalled, hbuilder⟩ := exists_of_installTemplate_eq_ok hnew hs
    rw [← h.builder] at hnew hpath
    rw [← h.tree] at hinstalled
    obtain ⟨u', hu, htree, hbuilder'⟩ := exists_installTemplate hnew hpath hinstalled
    exact ⟨u', hu, htree, by rw [hbuilder', hbuilder, h.builder]⟩

/-- After the script has been installed there is nothing left to install. -/
theorem installTemplate_again (h : Build.installTemplate s = .ok () s') :
    Build.installTemplate s' = .ok () s' := by
  cases hnew : s.builder.templateInstalled with
  | true =>
    have hsame := installTemplate_of_installed hnew
    rw [hsame] at h
    cases h
    exact hsame
  | false =>
    obtain ⟨path, -, -, hbuilder⟩ := exists_of_installTemplate_eq_ok hnew h
    exact installTemplate_of_installed (by rw [hbuilder])

namespace Follows

theorem of_sameFiles (h : s.Follows u) (hs : s.SameFiles s') (hu : u.SameFiles u') : s'.Follows u' := by
  rcases h with h | ⟨r, hr, h⟩
  · exact .inl (hs.symm.trans (h.trans hu))
  · obtain ⟨r', hr', hsame⟩ := hs.installTemplate hr
    exact .inr ⟨r', hr', hsame.symm.trans (h.trans hu)⟩

/-- The second state may install the script at any time. -/
theorem installTemplate_right (h : s.Follows u) (hu : Build.installTemplate u = .ok () u') :
    s.Follows u' := by
  rcases h with h | ⟨r, hr, h⟩
  · obtain ⟨s', hs', hsame⟩ := h.symm.installTemplate hu
    exact .inr ⟨s', hs', hsame.symm⟩
  · obtain ⟨r', hr', hsame⟩ := h.symm.installTemplate hu
    rw [installTemplate_again hr] at hr'
    cases hr'
    exact .inr ⟨r, hr, hsame.symm⟩

/-- Where the second state installs the script, the first one can install it, too. -/
theorem installTemplate_both (h : s.Follows u) (hu : Build.installTemplate u = .ok () u') :
    ∃ s', Build.installTemplate s = .ok () s' ∧ s'.SameFiles u' := by
  rcases h with h | ⟨r, hr, h⟩
  · obtain ⟨s', hs', hsame⟩ := h.symm.installTemplate hu
    exact ⟨s', hs', hsame.symm⟩
  · obtain ⟨r', hr', hsame⟩ := h.symm.installTemplate hu
    rw [installTemplate_again hr] at hr'
    cases hr'
    exact ⟨r, hr, hsame.symm⟩

/-- Nothing but the tree and the mark of the installed script differs. -/
theorem builder (h : s.Follows u) : s.workspace.tree.Keeps u.workspace.tree ∧
    u.builder = { s.builder with templateInstalled := u.builder.templateInstalled } := by
  rcases h with h | ⟨r, hr, h⟩
  · rw [h.tree, h.builder]
    exact ⟨.refl _, rfl⟩
  · rw [h.tree, h.builder]
    cases hnew : s.builder.templateInstalled with
    | true =>
      rw [installTemplate_of_installed hnew] at hr
      cases hr
      exact ⟨.refl _, rfl⟩
    | false =>
      obtain ⟨path, -, hinstalled, hbuilder⟩ := exists_of_installTemplate_eq_ok hnew hr
      rw [hbuilder]
      exact ⟨FileTree.keeps_of_installScript hinstalled, rfl⟩

theorem root (h : s.Follows u) : u.builder.root = s.builder.root := by
  rw [h.builder.2]

theorem scriptsDirectory (h : s.Follows u) :
    u.builder.scriptsDirectory = s.builder.scriptsDirectory := by
  rw [h.builder.2]

end Follows

/-- From the first state to the second one the files and the builder have stayed, or the script has been
installed. -/
def Leaves (s s' : BuildState) (installs : Bool) : Prop :=
  if installs then ∃ r, Build.installTemplate s = .ok () r ∧ r.SameFiles s' else s.SameFiles s'

theorem SameFiles.leaves {installs : Bool} (h : s.SameFiles u) (hs : u.Leaves u' installs) :
    s.Leaves u' installs := by
  cases installs with
  | false => exact h.trans hs
  | true =>
    obtain ⟨r, hr, hsame⟩ := hs
    obtain ⟨r', hr', hsame'⟩ := h.symm.installTemplate hr
    exact ⟨r', hr', hsame'.symm.trans hsame⟩

/-- What follows a state goes on to follow it, if it installs the script only where the other one does. -/
theorem Follows.leaves {installs installs' : Bool} (h : s.Follows u) (hs : s.Leaves s' installs)
    (hu : u.Leaves u' installs') (himp : installs → installs') : s'.Follows u' := by
  cases installs' with
  | false =>
    cases installs with
    | false => exact h.of_sameFiles hs hu
    | true => cases himp rfl
  | true =>
    obtain ⟨v, hv, hsame⟩ := hu
    cases installs with
    | false => exact (h.installTemplate_right hv).of_sameFiles hs hsame
    | true =>
      obtain ⟨r, hr, hr'⟩ := hs
      obtain ⟨r₁, hr₁, hr₁'⟩ := h.installTemplate_both hv
      rw [hr] at hr₁
      cases hr₁
      exact .inl (hr'.symm.trans (hr₁'.trans hsame))

end BuildState

/-! ## Parts of a build without obstacles -/

/-- The patterns select files that can be filed. -/
def FileTree.Selects (tree : FileTree) (root : PathName) (patterns : List String)
    (exclude : Option (List (List String))) : Prop :=
  ∃ files, tree.resolveFiles root patterns exclude = .ok files ∧
    ∀ path ∈ files.flatten, Relative path

theorem Project.IsFiled.relative {p : Project} {path : String} (h : p.IsFiled path) : Relative path := by
  obtain ⟨f, i, g, hgroup, -⟩ := h
  exact relative_of_fileGroup hgroup

/-- What has been filed in the one state can be filed in the other one. -/
theorem BuildState.Follows.selects {s u : BuildState} {p : Project} {patterns : List String}
    {exclude : Option (List (List String))} (h : s.Follows u)
    (hu : p.Selects u.workspace.tree u.builder.root patterns exclude) :
    s.workspace.tree.Selects s.builder.root patterns exclude := by
  obtain ⟨files, hfiles, hfiled⟩ := hu
  rw [h.root] at hfiles
  obtain ⟨files', hfiles', hsub⟩ := FileTree.resolveFiles_of_keeps h.builder.1 hfiles
  refine ⟨files', hfiles', fun path hpath => ?_⟩
  obtain ⟨paths, hpaths, hmem⟩ := List.mem_flatten.1 (hsub hpath)
  exact (hfiled paths hpaths path hmem).relative

namespace Build

variable {α β : Type} {s s' u u' : BuildState}

/-- The part of a build succeeds as `R` tells, or it fails because of what is in the project. -/
def Unhindered (x : Build α) (s : BuildState) (R : α → BuildState → Prop) : Prop :=
  Leads x s R fun e _ => ¬ e.IsOuter

theorem unhindered_edit {x : Edit α} (hx : x.Inward) (s : BuildState) :
    Unhindered (edit x) s fun a s' => x s.project = .ok a s'.project ∧ s.SameFiles s' := by
  constructor
  · intro a s' h
    exact exists_of_edit_eq_ok h
  · intro e s' h
    cases hp : x s.project with
    | ok a q =>
      rw [edit_of_eq_ok hp] at h
      cases h
    | error e' q =>
      rw [edit_of_eq_error hp] at h
      cases h
      exact (hx s.project).of_error hp

variable [IdScheme] {d : Target} {t : ObjectId} {patterns : List String}
  {exclude : Option (List (List String))}

theorem unhindered_fileAll (h : s.workspace.tree.Selects s.builder.root patterns exclude)
    (t : ObjectId) (kind : PhaseKind) :
    Unhindered (fileAll t kind patterns exclude) s fun _ s' => s.SameFiles s' := by
  obtain ⟨files, hfiles, hrelative⟩ := h
  have hresolve : resolveFiles patterns exclude s = .ok files s := by rw [resolveFiles, hfiles]
  refine Leads.bind_read hresolve ?_
  exact (unhindered_edit (inward_addFiles t kind hrelative) s).mono (fun _ _ h => h.2) fun _ _ h => h

theorem unhindered_addResourceFiles {resources : Option (List String)}
    (h : ∀ patterns, resources = some patterns →
      s.workspace.tree.Selects s.builder.root patterns none) (t : ObjectId) :
    Unhindered (addResourceFiles t resources) s fun _ s' => s.SameFiles s' := by
  cases resources with
  | none => exact Leads.of_eq_ok (a := ()) rfl (.refl s)
  | some patterns => exact unhindered_fileAll (h patterns rfl) t .resources

theorem inward_enter (hinfo : Relative d.infoPlist)
    (hheader : ∀ path, d.filedHeader = some path → Relative path) : (enter d).Inward := by
  refine (inward_newNativeTarget _ _).bind fun t => ?_
  refine (inward_newConfigurationList t _ _ _).bind fun _ => ?_
  refine (inward_addBuildScripts t _ _).bind fun _ => ?_
  refine (inward_fileReferenceFor hinfo).discard.bind fun _ => ?_
  exact (inward_addFrameworkHeader t hheader).bind fun _ => .pure t

theorem inward_equip (t : ObjectId) (d : Target) : (equip t d).Inward := by
  refine (inward_composeSettings t d).bind fun _ => ?_
  refine (inward_newProductReference t _ _).discard.bind fun _ => ?_
  refine (inward_phaseOfKind t _).discard.bind fun _ => ?_
  refine (inward_phaseOfKind t _).discard.bind fun _ => ?_
  exact inward_addBuildScripts t _ _

/-- A target that has been prepared in one state is prepared without obstacles in the other one. -/
theorem unhindered_prepare {q : Project} (h : s.Follows u)
    (hu : q.Prepared u.workspace.tree u.builder d t) :
    Unhindered (prepare d) s fun _ s' => s.SameFiles s' := by
  have hheader : ∀ path, d.filedHeader = some path → Relative path := by
    intro path hpath
    obtain ⟨f, hf, -⟩ := hu.entered.header path hpath
    exact IsFiled.relative ⟨f, hf⟩
  let s₀ := s.saying ("generating " ++ d.name)
  have hs₀ : s.SameFiles s₀ := ⟨rfl, rfl⟩
  have hsay : Unhindered (say ("generating " ++ d.name)) s fun _ s' => s' = s₀ :=
    Leads.of_eq_ok (a := ()) rfl rfl
  refine Leads.bind hsay ?_
  rintro _ _ rfl
  refine Leads.bind (unhindered_edit (inward_enter hu.entered.infoPlist.relative hheader) s₀) ?_
  rintro t s₁ ⟨-, hs₁⟩
  have hsources := h.selects hu.sources
  have hfiles := hs₀.trans hs₁
  rw [← hfiles.tree, ← hfiles.builder] at hsources
  refine Leads.bind (unhindered_fileAll hsources t .sources) fun _ s₂ hs₂ => ?_
  refine Leads.bind (unhindered_edit (inward_equip t d) s₂) ?_
  rintro _ s₃ ⟨-, hs₃⟩
  exact Leads.of_eq_ok rfl (hfiles.trans (hs₂.trans hs₃))

/-! ### Copying frameworks -/

/-- A target copies frameworks by the installed script, if there is a directory for it. -/
theorem leaves_of_addCopyFrameworksPhase {names : List String}
    (h : addCopyFrameworksPhase t names s = .ok () s') :
    s.Leaves s' s.builder.scriptsDirectory.isSome := by
  cases hdirectory : s.builder.scriptsDirectory with
  | none =>
    rw [addCopyFrameworksPhase_of_none hdirectory] at h
    exact (exists_of_edit_eq_ok h).2
  | some directory =>
    rw [addCopyFrameworksPhase_of_some hdirectory] at h
    obtain ⟨_, r, hr, h⟩ := exists_of_bind_eq_ok h
    exact ⟨r, hr, (exists_of_edit_eq_ok h).2⟩

theorem unhindered_addCopyFrameworksPhase
    (h : s.builder.scriptsDirectory.isSome → ∃ r, installTemplate s = .ok () r) (t : ObjectId)
    (names : List String) :
    Unhindered (addCopyFrameworksPhase t names) s fun _ s' =>
      s.Leaves s' s.builder.scriptsDirectory.isSome := by
  refine ⟨leaves_of_addCopyFrameworksPhase, fun hfails => ?_⟩
  cases hdirectory : s.builder.scriptsDirectory with
  | none =>
    rw [addCopyFrameworksPhase_of_none hdirectory] at hfails
    exact (unhindered_edit (inward_addScriptPhase t _ _) s).of_error hfails
  | some directory =>
    rw [hdirectory] at h
    obtain ⟨r, hr⟩ := h rfl
    rw [addCopyFrameworksPhase_of_some hdirectory, bind_of_ok hr] at hfails
    exact (unhindered_edit (inward_addScriptPhase t _ _) r).of_error hfails

/-! ### Completing -/

/-- Whether a target with these third-party dependencies has the script installed. -/
def installs (d : Target) (b : Builder) (names : List String) : Bool :=
  d.isTest && !names.isEmpty && b.scriptsDirectory.isSome

theorem leaves_of_complete {names : List String} (h : complete t d s = .ok names s') :
    s.Leaves s' (installs d s.builder names) := by
  obtain ⟨thirdParty, s₁, hlink, h⟩ := exists_of_bind_eq_ok h
  obtain ⟨_, s₂, hresources, h⟩ := exists_of_bind_eq_ok h
  have hfiles₁ := (exists_of_edit_eq_ok hlink).2
  have hfiles₂ : s₁.SameFiles s₂ := by
    cases hpatterns : d.resourceFiles with
    | none =>
      rw [hpatterns] at hresources
      cases hresources
      exact .refl s₁
    | some patterns =>
      rw [hpatterns] at hresources
      obtain ⟨_, -, hfiles, -⟩ := exists_of_fileAll_eq_ok hresources
      exact hfiles
  have hfiles := hfiles₁.trans hfiles₂
  unfold installs
  cases hcopy : d.isTest && !thirdParty.isEmpty with
  | false =>
    simp only [hcopy, Bool.false_eq_true, if_false] at h
    cases h
    rw [hcopy]
    exact hfiles
  | true =>
    simp only [hcopy, if_true] at h
    obtain ⟨_, s₃, hphase, h⟩ := exists_of_bind_eq_ok h
    cases h
    rw [hcopy, Bool.true_and, ← hfiles.builder]
    exact hfiles.leaves (leaves_of_addCopyFrameworksPhase hphase)

/-- A target can be completed without obstacles if its resources can be filed, and its script can be
installed where this is needed. -/
theorem unhindered_complete {a : NativeTarget} (hs : s.project.WellFormed)
    (ha : s.project.content? t = some (.target a))
    (hresources : ∀ patterns, d.resourceFiles = some patterns →
      s.workspace.tree.Selects s.builder.root patterns none)
    (hinstalls : installs d s.builder (s.project.thirdParty (frameworkNames d.dependencies)) →
      ∃ r, installTemplate s = .ok () r) :
    Unhindered (complete t d) s fun names s' =>
      names = s.project.thirdParty (frameworkNames d.dependencies) ∧
        s.Leaves s' (installs d s.builder names) := by
  have hlink := (performs_linkDependencies hs ha d.dependencies).edit.and
    (unhindered_edit (inward_linkDependencies t d.dependencies) s)
  have hcomplete : Unhindered (complete t d) s fun names _ =>
      names = s.project.thirdParty (frameworkNames d.dependencies) := by
    refine Leads.bind (hlink.mono (fun _ _ h => h) fun _ _ h => h.2) ?_
    rintro names s₁ ⟨⟨-, ⟨hnames, -⟩, -⟩, -, hfiles₁⟩
    rw [← hnames] at hinstalls
    rw [← hfiles₁.tree, ← hfiles₁.builder] at hresources
    refine Leads.bind (unhindered_addResourceFiles hresources t) fun _ s₂ hfiles₂ => ?_
    have hfiles := hfiles₁.trans hfiles₂
    cases hcopy : d.isTest && !names.isEmpty with
    | false => exact Leads.of_eq_ok rfl hnames
    | true =>
      have hscript : s₂.builder.scriptsDirectory.isSome → ∃ r, installTemplate s₂ = .ok () r := by
        intro hdirectory
        rw [hfiles.builder] at hdirectory
        obtain ⟨r, hr⟩ := hinstalls (by rw [installs, hcopy, hdirectory]; rfl)
        obtain ⟨r', hr', -⟩ := hfiles.installTemplate hr
        exact ⟨r', hr'⟩
      refine Leads.bind (unhindered_addCopyFrameworksPhase hscript t names) fun _ s₃ _ => ?_
      exact Leads.of_eq_ok rfl hnames
  have hleaves : Leads (complete t d) s (fun names s' => s.Leaves s' (installs d s.builder names))
      fun _ _ => True := ⟨leaves_of_complete, fun _ => trivial⟩
  exact (hcomplete.and hleaves).mono (fun _ _ h => h) fun _ _ h => h.1

/-! ## Whole builds -/

/-- A target that can be built into one project is built into another one that knows all of its
products, unless there is an obstacle in that project. -/
theorem unhindered_reportedBuild {r : ObjectId × List String} (h : s.Follows u)
    (hs : s.project.WellFormed) (hu : u.project.WellFormed) (hapart : u.project.Apart)
    (hproducts : ∀ n, u.project.product? n ≠ none → s.project.product? n ≠ none)
    (hbuild : reportedBuild d u = .ok r u') :
    Unhindered (reportedBuild d) s fun _ s' =>
      s'.Follows u' ∧ ∀ n, u'.project.product? n ≠ none → s'.project.product? n ≠ none := by
  obtain ⟨hpath, -, hbuilt, -⟩ := Leads.of_ok (performs_reportedBuild hu d) hbuild
  have hknown : ∀ n, u'.project.product? n ≠ none → u.project.product? n ≠ none ∨ n = d.productPath :=
    fun n => (hpath.mono fun _ _ h => h.inBuild).product?_of_inBuild hu hapart
  -- The first build has left its files as they are, or it has installed the script.
  have hleaves : u.Leaves u' (installs d u.builder r.2) := by
    obtain ⟨t, u₁, hprepare, hcomplete⟩ := exists_of_bind_eq_ok hbuild
    obtain ⟨names, u₂, hcomplete, hlast⟩ := exists_of_bind_eq_ok hcomplete
    cases hlast
    have hfiles := (Leads.of_ok (performs_prepare hu d) hprepare).2.1
    rw [← hfiles.builder]
    exact hfiles.leaves (leaves_of_complete hcomplete)
  have hprepare := (performs_prepare hs d).and (unhindered_prepare h hbuilt.prepared)
  refine Leads.bind (hprepare.mono (fun _ _ h => h) fun _ _ h => h.2) ?_
  rintro t s₁ ⟨⟨h₁, -, hprepared⟩, hfiles₁⟩
  have hp₁ := h₁.wellFormed hs
  obtain ⟨a, ha, hname⟩ := hprepared.entered.isNamed
  -- The products that are known in the one state are known in the other one, when it comes to linking.
  have hknown₁ : ∀ n, u'.project.product? n ≠ none → s₁.project.product? n ≠ none := by
    intro n hn
    rcases hknown n hn with hold | rfl
    · obtain ⟨f, hf⟩ := Option.ne_none_iff_exists'.1 (hproducts n hold)
      rw [product?_of_grows hs hf h₁.grows]
      simp
    · obtain ⟨f, -, hf, -⟩ := hprepared.equipped.product
      rw [hf]
      simp
  have hinstalls : installs d s.builder (s₁.project.thirdParty (frameworkNames d.dependencies)) →
      installs d u.builder r.2 := by
    unfold installs
    rw [h.scriptsDirectory]
    simp only [Bool.and_eq_true, Bool.not_eq_true', List.isEmpty_eq_false_iff]
    rintro ⟨⟨htest, hne⟩, hdirectory⟩
    refine ⟨⟨htest, ?_⟩, hdirectory⟩
    obtain ⟨n, hn⟩ := List.exists_mem_of_ne_nil _ hne
    obtain ⟨hn, hopen⟩ := mem_thirdParty.1 hn
    refine List.ne_nil_of_mem (a := n) ?_
    by_contra hnot
    obtain ⟨f, hf, -⟩ := hbuilt.completed.links n hn hnot
    exact hknown₁ n (by simp [hf]) hopen
  have hresources : ∀ patterns, d.resourceFiles = some patterns →
      s₁.workspace.tree.Selects s₁.builder.root patterns none := by
    intro patterns hpatterns
    rw [hfiles₁.tree, hfiles₁.builder]
    exact h.selects (hbuilt.completed.resources patterns hpatterns)
  have hcomplete := (performs_complete hp₁ ⟨a, ha, hname⟩ s.project).and
    (unhindered_complete hp₁ ha hresources fun hi => ?_)
  · refine Leads.bind (hcomplete.mono (fun _ _ h => h) fun _ _ h => h.2) ?_
    rintro names s₂ ⟨⟨h₂, -⟩, rfl, hleaves₂⟩
    refine Leads.of_eq_ok rfl ⟨?_, fun n hn => ?_⟩
    · rw [hfiles₁.builder] at hleaves₂
      exact h.leaves (hfiles₁.leaves hleaves₂) hleaves hinstalls
    · obtain ⟨f, hf⟩ := Option.ne_none_iff_exists'.1 (hknown₁ n hn)
      rw [product?_of_grows hp₁ hf h₂.grows]
      simp
  · rw [hfiles₁.builder] at hi
    rw [hinstalls hi] at hleaves
    obtain ⟨v, hv, -⟩ := hleaves
    obtain ⟨r₁, hr₁, -⟩ := h.installTemplate_both hv
    obtain ⟨r₂, hr₂, -⟩ := hfiles₁.installTemplate hr₁
    exact ⟨r₂, hr₂⟩

end Build
end ProjectGraph
