import ProjectGraph.Proofs.Runs.Linking

/-! # Names of declared targets

A run looks at the names of all targets before it does anything else. If one is repeated, it leaves
everything as it is. If none is, the run goes through the targets in order, so no two of its builds are
of one name. -/

namespace ProjectGraph

/-- The first repetition in the order of the builds is reported. -/
theorem checkNames_eq_error_iff {ds : List Declaration} {e : Error} :
    checkNames ds = .error e ↔ ∃ earlier name later, targetNames ds = earlier ++ name :: later ∧
      earlier.Nodup ∧ name ∈ earlier ∧ e = .repeatedTarget name := by
  have hfirst : checkNames ds = .error e ↔
      ∃ name, firstRepeat? (targetNames ds) = some name ∧ e = .repeatedTarget name := by
    rw [checkNames, targetNames]
    cases firstRepeat? ((ds.flatMap Declaration.targets).map fun t => t.name) <;> simp [eq_comm]
  simp only [hfirst, firstRepeat?_eq_some_iff]
  constructor
  · rintro ⟨name, ⟨earlier, later, hnames, hn, hmem⟩, he⟩
    exact ⟨earlier, name, later, hnames, hn, hmem, he⟩
  · rintro ⟨earlier, name, later, hnames, hn, hmem, he⟩
    exact ⟨name, ⟨earlier, later, hnames, hn, hmem⟩, he⟩

theorem exists_error_checkNames_iff {ds : List Declaration} :
    (∃ e, checkNames ds = .error e) ↔ ¬ (targetNames ds).Nodup := by
  rw [← checkNames_eq_ok]
  cases checkNames ds <;> simp

section

variable [IdScheme]

theorem Declaration.prefix_attempts (d : Declaration) (s : BuildState) :
    (d.attempts s).map Attempt.target <+: d.targets := by
  rw [attempts, targets, List.map_cons, List.prefix_cons_inj, Build.onSuccess]
  split
  · simp [Function.comp_def]
  · exact List.nil_prefix

/-- Targets are built in the order in which they are declared, up to the first build that fails. -/
theorem prefix_attemptsOf (ds : List Declaration) (s : BuildState) :
    (attemptsOf ds s).map Attempt.target <+: ds.flatMap Declaration.targets := by
  induction ds generalizing s with
  | nil => exact List.nil_prefix
  | cons d ds ih =>
    rw [attemptsOf, List.map_append, List.flatMap_cons, Build.onSuccess]
    cases hfirst : Generator.buildDeclaration d s with
    | ok v s' =>
      rw [Declaration.attempts_of_ok hfirst]
      exact (List.prefix_append_right_inj _).2 (ih s')
    | error e s' =>
      rw [List.map_nil, List.append_nil]
      exact (d.prefix_attempts s).trans (List.prefix_append _ _)

namespace Generator

theorem prefix_attempts (g : Generator) (ds : List Declaration) (w : Workspace) :
    (g.attempts ds w).map Attempt.target <+: ds.flatMap Declaration.targets := by
  rw [attempts]
  split
  · exact prefix_attemptsOf ds _
  · exact List.nil_prefix

/-- A run with a repeated name leaves everything as it is, also the lines that have been reported. -/
theorem run_of_checkNames_eq_error {g : Generator} {ds : List Declaration} {e : Error}
    (h : checkNames ds = .error e) (w : Workspace) : g.run ds w = .error e w := by
  rw [run, buildAll_of_error h]

/-- Names are checked before anything is done: the first repeated name is reported, and the run changes
nothing then. What is built is what has been checked, so no name is built twice. -/
theorem names_first (g : Generator) (ds : List Declaration) (w : Workspace) :
    ((∃ e, checkNames ds = .error e) ↔ ¬ (targetNames ds).Nodup) ∧
      (∀ e, checkNames ds = .error e ↔ ∃ earlier name later,
        targetNames ds = earlier ++ name :: later ∧ earlier.Nodup ∧ name ∈ earlier ∧
          e = .repeatedTarget name) ∧
      (∀ e, checkNames ds = .error e → g.run ds w = .error e w) ∧
      ((g.attempts ds w).map Attempt.target <+: ds.flatMap Declaration.targets) ∧
      ((g.attempts ds w).map fun a => a.target.name).Nodup :=
  ⟨exists_error_checkNames_iff, fun _ => checkNames_eq_error_iff,
    fun _ h => run_of_checkNames_eq_error h w, g.prefix_attempts ds w, g.nodup_attempts ds w⟩

end Generator

end

/-- A framework that is declared together with a test of its own name. -/
def ownTest : Declaration := { target := bareFramework "App" [], test := some (bareFramework "App" []) }

/-- A run that refuses a target and its test, which have one name. -/
theorem names_first_of_ownTest :
    ∃ p, Project.ofValue "App" (.text "Debug") = .ok p ∧
      checkNames [ownTest] = .error (.repeatedTarget "App") ∧
        Generator.run ⟨".", none⟩ [ownTest] ⟨p, .withHome [], ["before"]⟩ =
          .error (.repeatedTarget "App") ⟨p, .withHome [], ["before"]⟩ := by
  have hmade : (Project.ofValue "App" (.text "Debug")).toOption.any fun _ => true := by
    decide +kernel
  obtain ⟨p, hnew, -⟩ := Project.exists_of_ofValue hmade
  have hnames : checkNames [ownTest] = .error (.repeatedTarget "App") := rfl
  exact ⟨p, hnew, hnames, (Generator.names_first _ _ _).2.2.1 _ hnames⟩

end ProjectGraph
