import ProjectGraph.ObjectId.Digest
import ProjectGraph.Proofs.Digest
import ProjectGraph.Proofs.Runs.Acceptance

/-! # A run in two parts

A run that succeeds can be cut anywhere between its declarations. As long as no scripts are installed,
nothing but the project passes from one target to the next. The project that the first part leaves
holds complete targets only, so it passes its check, and the second part goes on where it ended. -/

namespace ProjectGraph

section

variable [IdScheme]

/-! ## Declarations in two parts -/

omit [IdScheme] in
theorem targetNames_append (ds es : List Declaration) :
    targetNames (ds ++ es) = targetNames ds ++ targetNames es := by
  simp [targetNames]

omit [IdScheme] in
/-- If the targets of a description have different names, those of both of its parts have. -/
theorem checkNames_of_append {ds es : List Declaration} (h : checkNames (ds ++ es) = .ok ()) :
    checkNames ds = .ok () ∧ checkNames es = .ok () := by
  rw [checkNames_eq_ok, targetNames_append, List.nodup_append] at h
  exact ⟨checkNames_eq_ok.2 h.1, checkNames_eq_ok.2 h.2.1⟩

/-- Builds that succeed keep the files and the builder, if there is no directory for scripts. -/
theorem Build.sameFiles_of_forM {s s' : BuildState} {ds : List Declaration} {u : PUnit}
    (hs : s.project.WellFormed) (ho : s.project.Owned) (hb : s.builder.scriptsDirectory = none)
    (hnames : checkNames ds = .ok ()) (h : ds.forM Generator.buildDeclaration s = .ok u s') :
    s.SameFiles s' := by
  rw [forM_buildDeclaration_eq] at h
  obtain ⟨names, hreported⟩ := exists_of_discard_eq_ok h
  have hall := performs_reportedDeclarations hs ho (checkNames_eq_ok.1 hnames)
  exact ((Leads.of_ok hall hreported).2.2 hb).1

namespace Generator

variable {g : Generator} {ds es : List Declaration} {w w' : Workspace}

/-- A run whose builds succeed and whose project passes its check succeeds. -/
theorem run_of_ok {s : BuildState} (hnames : checkNames ds = .ok ())
    (hbuilds : ds.forM buildDeclaration (g.startState w) = .ok ⟨⟩ s)
    (hcheck : checkProject s.project = .ok () s.project) : g.run ds w = .ok () s.workspace := by
  have hall : buildAll ds (g.startState w) = .ok () s := by
    rw [buildAll_of_checkNames hnames, bind_of_ok hbuilds]
    exact Build.edit_of_ok hcheck
  unfold startState at hall
  rw [run, hall]

/-- The builds of a run that succeeds have led to its project, which has passed the check. -/
theorem exists_of_run_eq_ok (hw : w.project.WellFormed) (h : g.run ds w = .ok () w') :
    checkNames ds = .ok () ∧ ∃ s, ds.forM buildDeclaration (g.startState w) = .ok ⟨⟩ s ∧
      checkProject s.project = .ok () s.project ∧ s.workspace = w' := by
  have hnone : failureOf (g.run ds) w = none := failureOf_of_ok h
  rw [failureOf_run] at hnone
  obtain ⟨_, hall⟩ := exists_of_failureOf_eq_none hnone
  have hstate := stateAfter_run g ds w
  rw [stateAfter_of_ok h] at hstate
  cases hnames : checkNames ds with
  | error e =>
    unfold buildAll at hall
    rw [hnames] at hall
    cases hall
  | ok =>
    rw [stateAfter_buildAll (s := g.startState w) hw hnames] at hstate
    rw [buildAll_of_checkNames hnames] at hall
    obtain ⟨_, s, hbuilds, hedit⟩ := exists_of_bind_eq_ok hall
    have hs := (attempts_forM (s := g.startState w) hw ds).wellFormed hbuilds hw
    refine ⟨rfl, s, hbuilds, ?_, ?_⟩
    · refine (checkProject_cases hs).resolve_right ?_
      rintro ⟨e, hcheck, -⟩
      rw [Build.edit_of_eq_error hcheck] at hedit
      cases hedit
    · rw [hstate, stateAfter_of_ok hbuilds]

/-- A description can be cut in two: its parts, run one after the other, succeed and lead to the very
same workspace. -/
theorem Runs.run_append {outcomes : List (Option Error)} (h : g.Runs outcomes w.project)
    (hall : ∀ e ∈ outcomes, e = none) (hscripts : g.scriptsDirectory = none)
    (hrun : g.run (ds ++ es) w = .ok () w') :
    ∃ w₁, g.run ds w = .ok () w₁ ∧ g.run es w₁ = .ok () w' := by
  have hw := h.regular
  have hb : (g.startState w).builder.scriptsDirectory = none := by
    show g.scriptsDirectory.map PathName.parse = none
    rw [hscripts]
    rfl
  obtain ⟨hnames, s', hbuilds, hcheck, rfl⟩ := exists_of_run_eq_ok hw.wellFormed hrun
  obtain ⟨hdsNames, hesNames⟩ := checkNames_of_append hnames
  have hcut : (ds ++ es).forM buildDeclaration =
      (ds.forM buildDeclaration >>= fun _ => es.forM buildDeclaration) := List.forM_append
  rw [hcut] at hbuilds
  obtain ⟨_, s, hds, hes⟩ := exists_of_bind_eq_ok hbuilds
  -- The builds of the first part have completed, so the check of its project finds nothing.
  have hattempts := attempts_forM (s := g.startState w) hw.wellFormed ds
  have hcompletes := hattempts.completes_iff.1 (failureOf_of_ok hds)
  have htrace := hattempts.trace
  rw [stateAfter_of_ok hds] at htrace
  have hcomplete := htrace.complete hw.wellFormed hcompletes (h.complete hall)
  have hfaultless := (htrace.regular hw).faultless hcomplete
  refine ⟨s.workspace, run_of_ok hdsNames hds hfaultless.checkProject, ?_⟩
  -- The second run starts in the state in which the builds of the first part have ended.
  have hfiles := Build.sameFiles_of_forM (s := g.startState w) hw.wellFormed hw.owned hb hdsNames hds
  have hstart : g.startState s.workspace = s := by
    obtain ⟨w₁, b⟩ := s
    exact congrArg (BuildState.mk w₁) hfiles.builder.symm
  rw [← hstart] at hes
  exact run_of_ok hesNames hes hcheck

end Generator

end

/-! ## Two frameworks -/

/-- The run of a framework and of another one that depends on it can be cut between the two. -/
theorem run_append_of_dependentOnApp :
    ∃ p w₁ w', Generator.start oneSource { projectName := "App", buildConfig := .text "Debug" } =
        .ok (plainGenerator, p) ∧
      plainGenerator.run ([dependentFramework] ++ [{ target := dependentOnApp }]) ⟨p, oneSource, []⟩ =
        .ok () w' ∧
      plainGenerator.run [dependentFramework] ⟨p, oneSource, []⟩ = .ok () w₁ ∧
      plainGenerator.run [{ target := dependentOnApp }] w₁ = .ok () w' := by
  have hsucceeds : (Project.ofValue "App" (.text "Debug")).toOption.any fun p =>
      failureOf (plainGenerator.run ([dependentFramework] ++ [{ target := dependentOnApp }]))
        ⟨p, oneSource, []⟩ = none := by
    rw [ObjectId.digestScheme_eq]
    decide +kernel
  obtain ⟨p, hnew, hp⟩ := Project.exists_of_ofValue hsucceeds
  obtain ⟨_, hrun⟩ := exists_of_failureOf_eq_none (of_decide_eq_true hp)
  have hstart := start_of_ofValue oneSource rfl hnew
  obtain ⟨w₁, hfirst, hsecond⟩ :=
    (Generator.Runs.start hstart).run_append (w := ⟨p, oneSource, []⟩) (by simp) rfl hrun
  exact ⟨p, w₁, _, hstart, hrun, hfirst, hsecond⟩

end ProjectGraph
