import ProjectGraph.Proofs.Builds.Installing
import ProjectGraph.Proofs.Digest
import ProjectGraph.Proofs.Runs.Copying

/-! # The script that a run installs

A run installs the script that copies frameworks at most once, and only for a test that depends on what
no product stands for. The phases that it writes run the script where it has been installed. -/

namespace ProjectGraph

section

variable [IdScheme] {p q : Project} {s s' s'' : BuildState} {as bs : List Attempt} {a : Attempt}
  {e : Option Error}

/-! ## One build -/

/-- A build makes no product but that of its target. Once this is there, the products that names stand for
stay the same. -/
theorem Path.thirdParty_of_inBuild {d : Target} (hpq : Path (InBuild d) p q) (hp : p.WellFormed)
    (hapart : p.Apart) (hproduct : p.product? d.productPath ≠ none) (names : List String) :
    q.thirdParty names = p.thirdParty names := by
  refine List.filter_congr fun n _ => ?_
  rw [Bool.eq_iff_iff, Option.isNone_iff_eq_none, Option.isNone_iff_eq_none]
  constructor
  · intro hnone
    cases hf : p.product? n with
    | none => rfl
    | some f =>
      rw [Project.product?_of_grows hp hf hpq.grows] at hnone
      cases hnone
  · intro hnone
    by_contra hafter
    rcases hpq.product?_of_inBuild hp hapart hafter with hbefore | rfl
    · exact hbefore hnone
    · exact hproduct hnone

namespace Attempt

/-- The line that reports the build. -/
def line (a : Attempt) : String := "generating " ++ a.target.name

/-- The target is a test that depends on what no product stands for. -/
def NeedsScript (a : Attempt) : Prop := a.target.isTest ∧ a.thirdParty ≠ []

instance (a : Attempt) : Decidable a.NeedsScript :=
  inferInstanceAs (Decidable (a.target.isTest ∧ a.thirdParty ≠ []))

theorem after_eq (a : Attempt) :
    a.after = stateAfter (Build.reportedBuild a.target) a.before ∧
      a.failure = failureOf (Build.reportedBuild a.target) a.before := by
  rw [after, failure, Build.build_eq, stateAfter_map, failureOf_map]
  exact ⟨rfl, rfl⟩

theorem copyingPath (a : Attempt) (h : a.before.project.WellFormed) :
    Path (CopyingStep a.target a.before.builder.copyBody a.before.project) a.before.project
      a.after.project := by
  rw [a.after_eq.1]
  exact (Build.performs_copyingBuild h a.target).outcome.1

/-- A build leaves the files as they are, unless it needs the script, which its builder has yet to
install. -/
theorem account (a : Attempt) (hp : a.before.project.WellFormed) (hapart : a.before.project.Apart) :
    (a.before.Reports a.after [a.line] ∧
      (a.Completes → a.NeedsScript → a.before.builder.Provided)) ∨
      a.NeedsScript ∧ ∃ path, a.before.Installs path a.failure a.after [a.line] [] := by
  obtain ⟨hafter, hfailure⟩ := a.after_eq
  have hreports := Build.reports_prepare a.target a.before
  have hprepare := Build.performs_prepare hp a.target
  show _ ∧ (a.failure = none → _) ∨ _
  cases hfirst : Build.prepare a.target a.before with
  | error e s₁ =>
    rw [stateAfter_of_error hfirst] at hreports
    rw [Build.reportedBuild, stateAfter_bind_of_error hfirst] at hafter
    rw [Build.reportedBuild, failureOf_bind_of_error hfirst] at hfailure
    rw [hafter, hfailure]
    refine .inl ⟨hreports, ?_⟩
    rintro ⟨⟩
  | ok t s₁ =>
    obtain ⟨hpath₁, hfiles₁, hprepared⟩ := Leads.of_ok hprepare hfirst
    have hp₁ := hpath₁.wellFormed hp
    have hapart₁ := hpath₁.apart hp hapart
    obtain ⟨b, hb, hname⟩ := hprepared.entered.isNamed
    rw [stateAfter_of_ok hfirst] at hreports
    rw [Build.reportedBuild, stateAfter_bind_of_ok hfirst, bind_pure_comp, stateAfter_map] at hafter
    rw [Build.reportedBuild, failureOf_bind_of_ok hfirst, bind_pure_comp, failureOf_map] at hfailure
    have hpath₂ : Path (InBuild a.target) s₁.project a.after.project := by
      rw [hafter]
      exact (Build.performs_complete hp₁ ⟨b, hb, hname⟩ s₁.project).outcome.1.mono fun _ _ h => h.inBuild
    have hthirdParty : a.thirdParty =
        s₁.project.thirdParty (Project.frameworkNames a.target.dependencies) := by
      obtain ⟨f, -, hf, -⟩ := hprepared.equipped.product
      exact hpath₂.thirdParty_of_inBuild hp₁ hapart₁ (by simp [hf]) _
    rw [NeedsScript, hthirdParty, hafter, hfailure]
    rcases Build.account_complete hp₁ hb a.target with ⟨h, hprovided⟩ | ⟨htest, hne, path, h⟩
    · rw [hreports.builder] at hprovided
      exact .inl ⟨hreports.trans h, fun hok hneeds => hprovided hok hneeds.1 hneeds.2⟩
    · exact .inr ⟨⟨htest, hne⟩, path, hreports.installs h⟩

end Attempt

/-! ## Builds in a row -/

/-- The attempts build with scripts in this directory, or without a directory for scripts. -/
def UseDirectory (as : List Attempt) (directory : Option PathName) : Prop :=
  ∀ a ∈ as, a.before.builder.scriptsDirectory = directory

/-- What attempts in a row, one of which may have failed, do to the files. Each of them reports its line.
The script is installed at most once, by an attempt that needs it. No attempt completes that needs a
script which is not there. -/
inductive BuildState.Accounts (s : BuildState) : List Attempt → Option Error → BuildState → Prop
  | idle {as : List Attempt} {e : Option Error} {s' : BuildState}
      (directory : UseDirectory as s.builder.scriptsDirectory)
      (reports : s.Reports s' (as.map Attempt.line))
      (provided : ∀ a ∈ as, a.Completes → a.NeedsScript → s.builder.Provided) : s.Accounts as e s'
  | installing {path : PathName} {earlier : List Attempt} {a : Attempt} {later : List Attempt}
      {e : Option Error} {s' : BuildState}
      (directory : UseDirectory (earlier ++ a :: later) s.builder.scriptsDirectory)
      (needs : a.NeedsScript)
      (installs : s.Installs path e s' ((earlier ++ [a]).map Attempt.line) (later.map Attempt.line))
      (installed : ∀ b ∈ earlier ++ a :: later, b.Completes → b.NeedsScript →
        failureOf (FileTree.installScript path) s.workspace.tree = none) :
      s.Accounts (earlier ++ a :: later) e s'

omit [IdScheme] in
theorem UseDirectory.append {directory : Option PathName} (h : UseDirectory as directory)
    (h' : UseDirectory bs directory) : UseDirectory (as ++ bs) directory :=
  List.forall_mem_append.2 ⟨h, h'⟩

namespace BuildState.Accounts

theorem directory (h : s.Accounts as e s') : UseDirectory as s.builder.scriptsDirectory := by
  cases h with
  | idle directory => exact directory
  | installing directory => exact directory

/-- An operation that does not touch the files accounts for no attempts. -/
theorem of_reports (h : s.Reports s' []) : s.Accounts [] e s' :=
  .idle (by simp [UseDirectory]) h (by simp)

theorem trans (h : s.Accounts as none s') (h' : s'.Accounts bs e s'') :
    s.Accounts (as ++ bs) e s'' := by
  cases h with
  | idle directory reports provided =>
    cases h' with
    | idle directory' reports' provided' =>
      rw [reports.builder] at directory' provided'
      refine .idle (directory.append directory') ?_ (List.forall_mem_append.2 ⟨provided, provided'⟩)
      rw [List.map_append]
      exact reports.trans reports'
    | @installing path earlier a later _ _ directory' needs installs installed =>
      rw [reports.builder] at directory'
      rw [reports.tree] at installed
      have hinstalls := reports.installs installs
      rw [← List.map_append, ← List.append_assoc] at hinstalls
      rw [← List.append_assoc]
      refine .installing ?_ needs hinstalls ?_
      · rw [List.append_assoc]
        exact directory.append directory'
      · -- The builder has yet to install the script, so none of the first attempts could find it.
        rw [List.append_assoc]
        refine List.forall_mem_append.2 ⟨fun b hb hcompletes hneeds => ?_, installed⟩
        exact absurd (provided b hb hcompletes hneeds) hinstalls.not_provided
  | @installing path earlier a later _ _ directory needs installs installed =>
    cases h' with
    | idle directory' reports provided =>
      rw [installs.scriptsDirectory] at directory'
      rw [List.append_assoc, List.cons_append]
      have hinstalls := installs.reports reports e
      rw [← List.map_append] at hinstalls
      refine .installing ?_ needs hinstalls fun _ _ _ _ => installs.succeeds rfl
      rw [← List.cons_append, ← List.append_assoc]
      exact directory.append directory'
    | installing _ _ installs' => exact absurd installs' installs.not_installs

/-- A builder that has nothing to install leaves the files as they are. -/
theorem tree_of_provided (h : s.Accounts as e s') (hprovided : s.builder.Provided) :
    s'.workspace.tree = s.workspace.tree := by
  cases h with
  | idle _ reports => exact reports.tree
  | installing _ _ installs => exact absurd hprovided installs.not_provided

/-- Attempts of a builder that has yet to install the script install it where they need it, and once. -/
theorem once (h : s.Accounts as e s') {path : PathName} (hplace : s.builder.templatePath = some path)
    (hnew : s.builder.templateInstalled = false) :
    (∀ a ∈ as, a.Completes → a.NeedsScript →
      FileTree.installScript path s.workspace.tree = .ok () s'.workspace.tree) ∧
    ((s'.workspace.tree = s.workspace.tree ∧
        s'.workspace.printed = s.workspace.printed ++ as.map Attempt.line) ∨
      ∃ earlier a later, as = earlier ++ a :: later ∧ a.NeedsScript ∧
        s'.workspace.tree = stateAfter (FileTree.installScript path) s.workspace.tree ∧
        s'.workspace.printed = s.workspace.printed ++
          ((earlier ++ [a]).map Attempt.line ++ Builder.installLine path :: later.map Attempt.line)) := by
  cases h with
  | idle directory reports provided =>
    refine ⟨fun a ha hcompletes hneeds => ?_, .inl ⟨reports.tree, reports.printed⟩⟩
    exact absurd (provided a ha hcompletes hneeds) (Builder.not_provided hplace hnew)
  | @installing path' earlier a later _ _ directory needs installs installed =>
    obtain rfl : path' = path := by
      have hplace' := installs.place
      rw [hplace] at hplace'
      exact (Option.some.inj hplace').symm
    refine ⟨fun b hb hcompletes hneeds => ?_, .inr ⟨earlier, a, later, rfl, needs, installs.tree,
      installs.printed⟩⟩
    obtain ⟨⟨⟩, hinstall⟩ := exists_of_failureOf_eq_none (installed b hb hcompletes hneeds)
    rw [hinstall, installs.tree]

end BuildState.Accounts

/-- The project is one in which the products stand apart. -/
def Attempt.Starts (a : Attempt) : Prop := a.before.project.WellFormed ∧ a.before.project.Apart

/-- The attempts account for what the part of a build does to the files. -/
def Build.Accounted {α : Type} (x : Build α) (s : BuildState) (as : List Attempt) : Prop :=
  (∀ a ∈ as, a.Starts) → s.Accounts as (failureOf x s) (stateAfter x s)

namespace Build.Accounted

variable {α β : Type} {x : Build α}

theorem of_silent (h : Silent x) (s : BuildState) : x.Accounted s [] := fun _ => .of_reports (h s)

theorem build (d : Target) (s : BuildState) : (Build.build d).Accounted s [⟨d, s⟩] := by
  intro hstarts
  obtain ⟨hp, hapart⟩ := hstarts ⟨d, s⟩ (by simp)
  have hdirectory : UseDirectory [⟨d, s⟩] s.builder.scriptsDirectory := by simp [UseDirectory]
  rcases Attempt.account ⟨d, s⟩ hp hapart with ⟨hreports, hprovided⟩ | ⟨hneeds, path, hinstalls⟩
  · exact .idle hdirectory hreports (by simpa using hprovided)
  · show s.Accounts ([] ++ ⟨d, s⟩ :: []) _ _
    refine .installing hdirectory hneeds hinstalls ?_
    rintro b hb hcompletes -
    rw [List.nil_append, List.mem_singleton] at hb
    rw [hb] at hcompletes
    exact hinstalls.succeeds hcompletes

theorem map (hx : x.Accounted s as) (f : α → β) : (f <$> x).Accounted s as := by
  intro hstarts
  rw [failureOf_map, stateAfter_map]
  exact hx hstarts

theorem bind {f : α → Build β} (hx : x.Accounted s as) (next : α → BuildState → List Attempt)
    (hf : ∀ a s', x s = .ok a s' → (f a).Accounted s' (next a s')) :
    (x >>= f).Accounted s (as ++ x.onSuccess s next) := by
  intro hstarts
  have hfirst := hx fun a ha => hstarts a (List.mem_append_left _ ha)
  unfold onSuccess at hstarts ⊢
  cases h : x s with
  | ok a s' =>
    rw [h] at hstarts
    rw [failureOf_of_ok h, stateAfter_of_ok h] at hfirst
    rw [failureOf_bind_of_ok h, stateAfter_bind_of_ok h]
    exact hfirst.trans (hf a s' h fun b hb => hstarts b (List.mem_append_right _ hb))
  | error e s' =>
    rw [failureOf_of_error h, stateAfter_of_error h] at hfirst
    rw [failureOf_bind_of_error h, stateAfter_bind_of_error h, List.append_nil]
    exact hfirst

end Build.Accounted

/-! ## Runs -/

namespace Generator

variable {d : Declaration} {ds : List Declaration} {g : Generator} {w : Workspace}

theorem accounted_buildDeclaration (d : Declaration) (s : BuildState) :
    (buildDeclaration d).Accounted s (d.attempts s) := by
  have hscheme : ∀ (t : ObjectId) (test : Option ObjectId) (s : BuildState), Build.Accounted
      (discard <| Build.edit (Project.configureScheme d t test)) s [] := by
    intro t test s
    rw [← Build.edit_discard]
    exact .of_silent (Build.Silent.edit _) s
  refine (Build.Accounted.build d.target s).bind _ fun t s₁ _ => ?_
  cases d.test with
  | none => exact hscheme t none s₁
  | some e =>
    have htest := ((Build.Accounted.build e s₁).map some).bind (fun _ _ => [])
      (f := fun test => discard <| Build.edit (Project.configureScheme d t test))
      fun test s₂ _ => hscheme t test s₂
    rw [Build.onSuccess_nil] at htest
    exact htest

theorem accounted_forM (ds : List Declaration) (s : BuildState) :
    (ds.forM buildDeclaration).Accounted s (attemptsOf ds s) := by
  induction ds generalizing s with
  | nil => exact .of_silent (.pure PUnit.unit) s
  | cons d ds ih =>
    exact (accounted_buildDeclaration d s).bind (fun _ => attemptsOf ds) fun _ s' _ => ih s'

theorem accounted_buildAll (g : Generator) (ds : List Declaration) (w : Workspace) :
    (buildAll ds).Accounted (g.startState w) (g.attempts ds w) := by
  cases h : checkNames ds with
  | ok =>
    have hall := (accounted_forM ds (g.startState w)).bind (fun _ _ => [])
      fun _ s' _ => .of_silent (Build.Silent.edit checkProject) s'
    rw [Build.onSuccess_nil, List.append_nil] at hall
    rw [buildAll_of_checkNames h, attempts_of_checkNames h]
    exact hall
  | error e =>
    intro _
    rw [attempts, h, stateAfter_of_error (buildAll_of_error h _)]
    exact .of_reports (.refl _)

theorem accounts_run (g : Generator) (ds : List Declaration) (w : Workspace)
    (h : ∀ a ∈ g.attempts ds w, a.Starts) :
    ∃ s', (g.startState w).Accounts (g.attempts ds w) (failureOf (g.run ds) w) s' ∧
      s'.workspace = stateAfter (g.run ds) w := by
  rw [failureOf_run, stateAfter_run]
  exact ⟨_, accounted_buildAll g ds w h, rfl⟩

end Generator

/-! ## Scripts that a run leaves -/

theorem Trace.apart (h : Trace p as q) (hp : p.WellFormed) (hapart : p.Apart) : q.Apart := by
  induction h with
  | refl => exact hapart
  | build a trace ih => exact (a.path (trace.wellFormed hp)).apart (trace.wellFormed hp) ih
  | schemes trace path ih => exact path.apart (trace.wellFormed hp) ih

theorem Trace.starts (h : Trace p as q) (hp : p.WellFormed) (hapart : p.Apart) : ∀ a ∈ as, a.Starts := by
  intro a ha
  obtain ⟨earlier, later, has⟩ := List.append_of_mem ha
  obtain ⟨hearlier, -⟩ := h.split has
  exact ⟨hearlier.wellFormed hp, hearlier.apart hp hapart⟩

/-- Builds with one directory for scripts write one script for copying frameworks. -/
theorem Trace.body_of_scripted {name body : String} {script : Script} (h : Trace p as q)
    (hp : p.WellFormed) (hbody : ∀ a ∈ as, a.before.builder.copyBody = body)
    (hscript : q.Scripted name copyFrameworksSlot script) :
    p.Scripted name copyFrameworksSlot script ∨ script.body = body := by
  induction h with
  | refl => exact .inl hscript
  | build a trace ih =>
    have ha := trace.wellFormed hp
    rcases (a.copyingPath ha).scripted_cases ha (fun _ _ script hs h => hs.body script h) hscript with
      hold | hnew
    · exact ih (fun b hb => hbody b (List.mem_append_left _ hb)) hold
    · exact .inr (hnew.trans (hbody a (by simp)))
  | schemes trace path ih =>
    exact ih hbody ((path.scripted_iff (trace.wellFormed hp) fun _ _ _ =>
      Step.not_sets_of_aimedSteps).1 hscript)

/-- What a test that completes copies is not changed by the rest of a run. -/
theorem Generator.scripted_of_completes {g : Generator} {ds : List Declaration} {w : Workspace}
    (hp : w.project.WellFormed) (hapart : w.project.Apart) (ha : a ∈ g.attempts ds w)
    (hcompletes : a.Completes) (hneeds : a.NeedsScript) :
    (stateAfter (g.run ds) w).project.Scripted a.target.name copyFrameworksSlot
      ⟨copyFrameworksName, a.before.builder.copyBody, a.thirdParty⟩ := by
  obtain ⟨earlier, later, has⟩ := List.append_of_mem ha
  obtain ⟨hearlier, hlater⟩ := (trace_run hp g ds).split has
  have hbefore := hearlier.wellFormed hp
  have hnodup := g.nodup_attempts ds w
  rw [has, List.map_append, List.map_cons, List.nodup_append, List.nodup_cons] at hnodup
  obtain ⟨-, ⟨hnames, -⟩, -⟩ := hnodup
  refine (hlater.scripted_iff ((a.path hbefore).wellFormed hbefore) fun b hb heq => ?_).2
    (hcompletes.scripted hbefore (hearlier.apart hp hapart) hneeds.1 hneeds.2)
  exact hnames (heq ▸ List.mem_map_of_mem hb)

theorem Reachable.apart (h : Reachable p) : p.Apart := by
  induction h with
  | new new => exact (Project.regular_of_ofValue new).apart
  | move reachable move ih =>
    obtain ⟨hp, ho⟩ := reachable.invariant
    exact (move.outcome hp ho).1.apart hp ih

/-! ## The installed script -/

/-- The run writes phases that run this body, and installs the script at this path. -/
structure Generator.InstallsScript (g : Generator) (ds : List Declaration) (w : Workspace)
    (path : PathName) (body : String) : Prop where
  /-- What copies frameworks after the run has done so before, or has this body. -/
  written : ∀ name script, (stateAfter (g.run ds) w).project.Scripted name copyFrameworksSlot script →
    w.project.Scripted name copyFrameworksSlot script ∨ script.body = body
  /-- Each test that needs the script runs this body, and finds the script installed. -/
  needed : ∀ a ∈ g.attempts ds w, a.Completes → a.NeedsScript →
    (stateAfter (g.run ds) w).project.Scripted a.target.name copyFrameworksSlot
        ⟨copyFrameworksName, body, a.thirdParty⟩ ∧
      FileTree.installScript path w.tree = .ok () (stateAfter (g.run ds) w).tree
  /-- The script is installed once, for a test that needs it, or not at all. -/
  once : ((stateAfter (g.run ds) w).tree = w.tree ∧
      (stateAfter (g.run ds) w).printed = w.printed ++ (g.attempts ds w).map Attempt.line) ∨
    ∃ earlier a later, g.attempts ds w = earlier ++ a :: later ∧ a.NeedsScript ∧
      (stateAfter (g.run ds) w).tree = stateAfter (FileTree.installScript path) w.tree ∧
      (stateAfter (g.run ds) w).printed = w.printed ++
        ((earlier ++ [a]).map Attempt.line ++ Builder.installLine path :: later.map Attempt.line)

theorem Generator.installsScript {g : Generator} {ds : List Declaration} {w : Workspace}
    (hp : w.project.WellFormed) (hapart : w.project.Apart) {directory : String}
    (hg : g.scriptsDirectory = some directory) :
    g.InstallsScript ds w (.parse g.root ++ Builder.scriptPath (.parse directory))
      (Builder.runInstalled (.parse directory)) := by
  have htrace := trace_run hp g ds
  obtain ⟨s', haccounts, hs'⟩ := accounts_run g ds w (htrace.starts hp hapart)
  have hdirectory : (g.startState w).builder.scriptsDirectory = some (.parse directory) := by
    rw [startState, Builder.ofPaths, hg]
    rfl
  have hbody : ∀ a ∈ g.attempts ds w,
      a.before.builder.copyBody = Builder.runInstalled (.parse directory) := by
    intro a ha
    rw [Builder.copyBody, haccounts.directory a ha, hdirectory]
  have hplace : (g.startState w).builder.templatePath =
      some (.parse g.root ++ Builder.scriptPath (.parse directory)) :=
    Builder.templatePath_eq hdirectory
  obtain ⟨hneeded, honce⟩ := haccounts.once hplace rfl
  rw [hs'] at hneeded honce
  refine ⟨fun name script => htrace.body_of_scripted hp hbody, fun a ha hcompletes hneeds => ?_, honce⟩
  refine ⟨?_, hneeded a ha hcompletes hneeds⟩
  rw [← hbody a ha]
  exact scripted_of_completes hp hapart ha hcompletes hneeds

/-- Without a directory for scripts a run does not touch the files. -/
theorem Generator.tree_of_run {g : Generator} (hg : g.scriptsDirectory = none) (ds : List Declaration)
    {w : Workspace} (hp : w.project.WellFormed) (hapart : w.project.Apart) :
    (stateAfter (g.run ds) w).tree = w.tree := by
  obtain ⟨s', haccounts, hs'⟩ := accounts_run g ds w ((trace_run hp g ds).starts hp hapart)
  have hprovided : (g.startState w).builder.Provided := by
    refine .inl ?_
    rw [startState, Builder.ofPaths, hg]
    rfl
  rw [← hs', haccounts.tree_of_provided hprovided]
  rfl

omit [IdScheme] in
theorem Generator.eq_of_ofPaths {tree : FileTree} {root : String} {scripts : Option String}
    {g : Generator} (h : Generator.ofPaths tree root scripts = .ok g) :
    g = ⟨root, scripts⟩ ∧
      ∀ directory, scripts = some directory → ¬ (PathName.parse directory).IsAbsolute := by
  unfold Generator.ofPaths at h
  cases hroot : tree.isDirectory (.parse root) with
  | error e =>
    rw [hroot] at h
    cases h
  | ok isDirectory =>
    rw [hroot] at h
    cases isDirectory with
    | false => cases h
    | true =>
      cases scripts with
      | none =>
        cases h
        exact ⟨rfl, nofun⟩
      | some directory =>
        by_cases habsolute : (PathName.parse directory).IsAbsolute
        · simp only [if_pos habsolute] at h
          cases h
        · simp only [if_neg habsolute] at h
          cases h
          refine ⟨rfl, ?_⟩
          rintro _ ⟨⟩
          exact habsolute

/-- Whatever the root and the directory for scripts, and however a run ends, there is one relative path
such that the phases for copying frameworks that the run writes run the script at this path, below the
root, and such that the script is installed there: at most once, and only for a test that depends on what
no product stands for. While installing fails, the builder leaves the project as it is and tries again.
Without a directory for scripts a run does not touch the files. -/
theorem Reachable.installed_script_runs {w : Workspace} (h : Reachable w.project) {tree : FileTree}
    {root : String} {scripts : Option String} {g : Generator}
    (hg : Generator.ofPaths tree root scripts = .ok g) (ds : List Declaration) :
    (scripts = none → (stateAfter (g.run ds) w).tree = w.tree) ∧
    ∀ directory, scripts = some directory → ∃ relative path : PathName,
      relative = .parse directory ++ .single CopyScript.fileName ∧ ¬ relative.IsAbsolute ∧
      path = .parse root ++ relative ∧
      g.InstallsScript ds w path ("exec \"${SRCROOT}/" ++ relative.text ++ "\"") ∧
      (Builder.ofPaths root scripts).TriesToInstall path ∧
      ∀ t u : FileTree, FileTree.installScript path t = .ok () u →
        u.HasScript path.parent ∨ u.isDirectory path = .ok true ∧ u.HasScript path := by
  obtain ⟨rfl, hrelative⟩ := Generator.eq_of_ofPaths hg
  refine ⟨fun hnone => Generator.tree_of_run hnone ds h.wellFormed h.apart, ?_⟩
  rintro directory rfl
  have hscripts : ¬ (PathName.parse directory).IsAbsolute := hrelative directory rfl
  refine ⟨_, _, rfl, Builder.scriptPath_relative hscripts, rfl, ?_, ?_, fun t u hinstall => ?_⟩
  · rw [← Builder.scriptPath, ← Builder.runInstalled_eq hscripts]
    exact Generator.installsScript h.wellFormed h.apart rfl
  · exact Builder.triesToInstall (b := .ofPaths root (some directory)) rfl rfl
  · rw [← PathName.append_assoc] at hinstall ⊢
    rw [PathName.parent_append_single]
    exact FileTree.hasScript_of_installScript hinstall

end

/-! ## A directory that leads back -/

/-- Two test bundles that depend on a framework which the project does not make. -/
def quickTests : List Declaration :=
  [{ target := bareTest "First" ["Quick"] }, { target := bareTest "Second" ["Quick"] }]

/-- A generator for an absolute root. It puts the script into a directory which is spelled by way of
another one. -/
def roundaboutGenerator : Generator := ⟨"/work", some "Tools/..//Scripts"⟩

/-- The script is installed for the first test bundle, and both of them run it. -/
theorem Reachable.installed_script_runs_of_quickTests :
    ∃ (p : Project) (w : Workspace), Reachable p ∧
      Generator.ofPaths (.withHome ["work"]) "/work" (some "Tools/..//Scripts") =
        .ok roundaboutGenerator ∧
      roundaboutGenerator.run quickTests ⟨p, .withHome ["work"], []⟩ = .ok () w ∧
      w.printed = ["generating First", "copying copy-carthage-frameworks.sh to /work/Tools/../Scripts",
        "generating Second"] ∧
      w.project.Scripted "First" copyFrameworksSlot
        ⟨copyFrameworksName, "exec \"${SRCROOT}/Tools/../Scripts/copy-carthage-frameworks.sh\"",
          ["Quick.framework"]⟩ ∧
      w.tree.HasScript (.parse "/work/Tools/../Scripts") := by
  have hpaths : Generator.ofPaths (.withHome ["work"]) "/work" (some "Tools/..//Scripts") =
      .ok roundaboutGenerator := by
    decide +kernel
  have hrun : (Project.ofValue "App" (.text "Debug")).toOption.any fun p =>
      let w : Workspace := ⟨p, .withHome ["work"], []⟩
      let a : Attempt := ⟨bareTest "First" ["Quick"], roundaboutGenerator.startState w⟩
      failureOf (roundaboutGenerator.run quickTests) w = none ∧ a.Completes ∧ a.target.isTest ∧
        a.thirdParty = ["Quick.framework"] ∧
        (stateAfter (roundaboutGenerator.run quickTests) w).printed =
          ["generating First", "copying copy-carthage-frameworks.sh to /work/Tools/../Scripts",
            "generating Second"] ∧
        (stateAfter (roundaboutGenerator.run quickTests) w).tree.isDirectory
          (.parse "/work/Tools/../Scripts/copy-carthage-frameworks.sh") = .ok false := by
    rw [ObjectId.digestScheme_eq]
    decide +kernel
  obtain ⟨p, hnew, hp⟩ := Project.exists_of_ofValue hrun
  obtain ⟨hsucceeds, hcompletes, htest, hthirdParty, hprinted, hnot⟩ := of_decide_eq_true hp
  let w : Workspace := ⟨p, .withHome ["work"], []⟩
  let a : Attempt := ⟨bareTest "First" ["Quick"], roundaboutGenerator.startState w⟩
  obtain ⟨⟨⟩, hsucceeds⟩ := exists_of_failureOf_eq_none hsucceeds
  have ha : a ∈ roundaboutGenerator.attempts quickTests w := by
    rw [Generator.attempts_of_checkNames rfl]
    exact List.mem_append_left _ (List.mem_cons_self ..)
  have hreachable : Reachable w.project := .new hnew
  obtain ⟨-, hinstalls⟩ := hreachable.installed_script_runs hpaths quickTests
  obtain ⟨_, _, rfl, -, rfl, hscript, -, htree⟩ := hinstalls _ rfl
  have hneeds : a.NeedsScript := ⟨htest, by rw [hthirdParty]; simp⟩
  obtain ⟨hscripted, hinstalled⟩ := hscript.needed a ha hcompletes hneeds
  rw [hthirdParty] at hscripted
  refine ⟨p, _, hreachable, hpaths, hsucceeds, hprinted, hscripted, ?_⟩
  rcases htree _ _ hinstalled with h | ⟨hdirectory, -⟩
  · exact h
  · have hpath : PathName.parse "/work" ++
        (PathName.parse "Tools/..//Scripts" ++ .single CopyScript.fileName) =
          .parse "/work/Tools/../Scripts/copy-carthage-frameworks.sh" := by decide
    rw [hpath, hnot] at hdirectory
    cases hdirectory

end ProjectGraph
