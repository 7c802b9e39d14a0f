import ProjectGraph.ObjectId.Digest
import ProjectGraph.Proofs.Registry.Comments
import ProjectGraph.Proofs.Runs.PhaseOrder

/-! # Comments of reachable projects

Whatever has been done to a project, its references say the current names of the objects that they lead
to, but for the entries of a target for its scripts. Such an entry goes on saying the name that the
phase had after the move that made it. -/

namespace ProjectGraph

/-! ## New projects -/

section

variable [IdScheme] {p : Project}

theorem Project.commented_of_create {name : String} {names : List String}
    (h : create name names = .ok p) : p.Commented := by
  obtain ⟨hne, hp, hn⟩ := eq_of_create h
  have hcontent : ∀ {i c}, p.content? i = some c ↔ c ∈ initialContents name names hne ∧ i = c.id :=
    content?_initial hp hn
  have hproducts : p.content? productsReference.id = some (.group newProductsGroup) :=
    hcontent.2 ⟨mem_initialContents.2 (by simp), rfl⟩
  constructor
  · intro i c hc l hl
    rcases mem_initialContents.1 (hcontent.1 hc).1 with rfl | rfl | ⟨n, -, rfl⟩ | rfl | rfl
    · rw [List.mem_singleton.1 hl]
      exact ⟨_, hproducts, rfl, rfl⟩
    · cases hl
    · cases hl
    · obtain ⟨r, hr, rfl⟩ := List.mem_map.1 hl
      obtain ⟨n, hmem, rfl⟩ := List.mem_map.1 hr
      refine ⟨.configuration (newConfiguration n), hcontent.2 ⟨?_, rfl⟩, rfl, rfl⟩
      exact mem_initialContents.2 (.inr (.inr (.inl ⟨n, hmem, rfl⟩)))
    · rcases mem_links_newRecord.1 hl with rfl | rfl | rfl
      · exact ⟨_, hcontent.2 ⟨mem_initialContents.2 (by simp), rfl⟩, rfl⟩
      · exact ⟨_, hcontent.2 ⟨mem_initialContents.2 (.inl rfl), rfl⟩, rfl⟩
      · exact ⟨_, hproducts, rfl, rfl⟩
  · exact fun i f hf => (isInitial_of_create h hf).elim

theorem Reachable.commented (h : Reachable p) : p.Commented := by
  induction h with
  | new new =>
    obtain ⟨names, hcreate⟩ := Project.exists_create_of_ofValue new
    exact Project.commented_of_create hcreate
  | move reachable move ih =>
    exact (move.outcome reachable.wellFormed reachable.owned).1.commented reachable.wellFormed ih

end

/-! ## Moves set scripts of one name in a slot -/

section

variable [IdScheme] {p q : Project} {e : Option Error} {s : Step} {name slot : String} {script : Script}

theorem Operation.givesOneName (op : Operation) : GivesOneName op.Allows := by
  intro p s q s' name slot script script' hs hs' hgives hgives'
  obtain ⟨t, rfl⟩ := hs.gives name slot script hgives
  obtain ⟨t', heq⟩ := hs'.gives name slot script' hgives'
  cases heq
  rfl

/-- A build sets the scripts of its target only, and the ones that its target runs. -/
theorem InBuild.runs_of_gives {d : Target} (h : InBuild d q s) (hgives : s.Gives q name slot script) :
    d.name = name ∧ d.Runs slot script := by
  rcases hgives with ⟨i, rfl⟩ | ⟨t, a, i, rfl, ha, rfl⟩
  · cases h with
    | newScript runs => exact ⟨rfl, runs⟩
  · cases h with
    | script target runs => exact ⟨target.unique ⟨a, ha, rfl⟩, runs⟩

theorem givesOneName_inBuild (d : Target) : GivesOneName (InBuild d) := by
  intro p s q s' name slot script script' hs hs' hgives hgives'
  obtain ⟨-, hruns⟩ := hs.runs_of_gives hgives
  obtain ⟨-, hruns'⟩ := hs'.runs_of_gives hgives'
  exact hruns.name_unique hruns'

theorem InRun.runs_of_gives {ds : List Declaration} (h : InRun ds q s)
    (hgives : s.Gives q name slot script) :
    ∃ d ∈ ds.flatMap Declaration.targets, d.name = name ∧ d.Runs slot script := by
  obtain ⟨d, hd, ⟨t, ht, h⟩ | h⟩ := h
  · exact ⟨t, List.mem_flatMap.2 ⟨d, hd, ht⟩, h.runs_of_gives hgives⟩
  · have hslot := hgives.slot?_eq
    rcases h with ⟨new, -, rfl⟩ | ⟨n, -, change, rfl⟩ <;> cases hslot

theorem givesOneName_inRun {ds : List Declaration} (hnames : (targetNames ds).Nodup) :
    GivesOneName (InRun ds) := by
  intro p s q s' name slot script script' hs hs' hgives hgives'
  obtain ⟨d, hd, hname, hruns⟩ := hs.runs_of_gives hgives
  obtain ⟨d', hd', hname', hruns'⟩ := hs'.runs_of_gives hgives'
  obtain rfl : d = d' := List.inj_on_of_nodup_map hnames hd hd' (hname.trans hname'.symm)
  exact hruns.name_unique hruns'

/-- A run over targets of which two have one name does nothing. -/
theorem Generator.stateAfter_run_of_repeated {ds : List Declaration}
    (hnames : ¬ (targetNames ds).Nodup) (g : Generator) (w : Workspace) :
    stateAfter (g.run ds) w = w := by
  rw [stateAfter_run]
  cases hcheck : checkNames ds with
  | ok => exact absurd (checkNames_eq_ok.1 hcheck) hnames
  | error e =>
    rw [stateAfter_of_error (buildAll_of_error hcheck _)]
    rfl

/-- The steps of a move set scripts of one name in a slot. -/
theorem Move.exists_path (h : Move p e q) (hp : p.WellFormed) (ho : p.Owned) :
    ∃ A, GivesOneName A ∧ Path A p q := by
  cases h with
  | operation op valid => exact ⟨_, op.givesOneName, (op.performs hp valid).outcome.1⟩
  | build s d =>
    exact ⟨_, givesOneName_inBuild d, (Attempt.path ⟨d, s⟩ hp).mono fun _ _ h => h.inBuild⟩
  | run w g ds =>
    by_cases hnames : (targetNames ds).Nodup
    · exact ⟨_, givesOneName_inRun hnames, (Generator.performs_run hp ho g ds).outcome.1⟩
    · rw [Generator.stateAfter_run_of_repeated hnames]
      exact ⟨fun _ _ => False, fun _ _ _ _ _ _ _ _ h => h.elim, .refl⟩

end

/-! ## Comments of reachable projects -/

namespace Project

/-- The references of a project that have a comment say the current name of what they lead to. A
product has its path as its name. Entries for phases of files, which have no names, say their title,
and entries for scripts say some name. -/
structure CommentsCurrent (p : Project) : Prop where
  child : ∀ i g, p.content? i = some (.group g) → ∀ r ∈ g.children, ∃ c,
    p.content? r.id = some c ∧ (c.group?.isSome ∨ c.file?.isSome) ∧ r.comment = c.name?
  target : ∀ i x, p.content? i = some (.project x) → ∀ r ∈ x.targets, ∃ a,
    p.content? r.id = some (.target a) ∧ r.comment = some a.name
  phase : ∀ t a, p.content? t = some (.target a) → ∀ r ∈ a.buildPhases, ∃ x,
    p.content? r.id = some (.phase x) ∧ (∀ kind, x.role = .files kind → r.comment = some kind.title) ∧
      ∀ slot script, x.role = .script slot script → r.comment.isSome
  /-- The reference to a build file, the build file and its own reference say the name of the file. -/
  file : ∀ i x, p.content? i = some (.phase x) → ∀ r ∈ x.files, ∃ f g,
    p.content? r.id = some (.buildFile f) ∧ p.content? f.file.id = some (.file g) ∧
      r.comment = some g.name ∧ f.name = g.name ∧ f.file.comment = some g.name
  configuration : ∀ i l, p.content? i = some (.configurationList l) → ∀ r ∈ l.configurations, ∃ c,
    p.content? r.id = some (.configuration c) ∧ r.comment = some c.name
  product : ∀ t a r, p.content? t = some (.target a) → a.productReference = some r → ∃ f,
    p.content? r.id = some (.file f) ∧ r.comment = some f.path
  productsGroup : ∀ i x, p.content? i = some (.project x) → ∃ g,
    p.content? x.productsGroup.id = some (.group g) ∧ x.productsGroup.comment = some g.name
  /-- The references to lists of configurations and to the main group have no comment. -/
  list : ∀ i c, p.content? i = some c → ∀ r, ⟨.configurationList, r⟩ ∈ c.links → r.comment = none
  mainGroup : ∀ i x, p.content? i = some (.project x) → x.mainGroup.comment = none

/-- From the first project to the second one, entries for scripts keep what they say. What a new entry
says is current. -/
structure KeepsEntries (p q : Project) : Prop where
  kept : ∀ t r slot old, p.ScriptEntry t r slot old → ∃ script, q.ScriptEntry t r slot script
  current : ∀ t r slot script, q.ScriptEntry t r slot script →
    r.comment = some script.name ∨ ∃ old, p.ScriptEntry t r slot old

theorem Commented.commentsCurrent [IdScheme] {p : Project} (hp : p.WellFormed) (h : p.Commented) :
    p.CommentsCurrent where
  child i g hg r hr := by
    obtain ⟨c, hc, hfits⟩ := hp.resolves i _ hg ⟨.child, r⟩ (List.mem_map_of_mem hr)
    obtain ⟨-, hsays⟩ := h.says (l := ⟨.child, r⟩) hg (List.mem_map_of_mem hr) hc
    exact ⟨c, hc, by simpa [LinkKind.fits] using hfits, hsays⟩
  target i x hx r hr := by
    obtain ⟨a, ha⟩ := hp.target_of_mem hx hr
    obtain ⟨-, hsays⟩ := h.says (l := ⟨.target, r⟩) hx (by simp [Content.links, hr]) ha
    exact ⟨a, ha, hsays⟩
  phase t a ha r hr := by
    obtain ⟨⟨owner, role, files⟩, hx⟩ := hp.phase_of_mem ha hr
    have hsays := h.says (l := ⟨.buildPhase, r⟩) ha (by simp [Content.links, hr]) hx
    refine ⟨_, hx, ?_, ?_⟩
    · rintro kind rfl
      exact hsays
    · rintro slot script rfl
      exact hsays
  file i x hx r hr := by
    obtain ⟨f, hf⟩ := hp.buildFile_of_mem hx hr
    obtain ⟨g, hg⟩ := hp.file_of_buildFile hf
    obtain ⟨-, hsays⟩ := h.says (l := ⟨.phaseFile, r⟩) hx (List.mem_map_of_mem hr) hf
    obtain ⟨-, hsays'⟩ := h.says (l := ⟨.file, f.file⟩) hf (List.mem_singleton_self _) hg
    have hname := h.buildFiles r.id f hf g hg
    exact ⟨f, g, hf, hg, hsays.trans (congrArg some hname), hname, hsays'⟩
  configuration i l hl r hr := by
    obtain ⟨c, hc⟩ := hp.configuration_of_mem hl hr
    obtain ⟨-, hsays⟩ := h.says (l := ⟨.configuration, r⟩) hl (List.mem_map_of_mem hr) hc
    exact ⟨c, hc, hsays⟩
  product t a r ha hr := by
    obtain ⟨f, hf⟩ := hp.product_of_target ha hr
    exact ⟨f, hf, h.says (l := ⟨.product, r⟩) ha (by simp [Content.links, hr]) hf⟩
  productsGroup i x hx := by
    have hlink : ⟨.productsGroup, x.productsGroup⟩ ∈ (Content.project x).links := by
      simp [Content.links]
    obtain ⟨c, hc, hfits⟩ := hp.resolves i _ hx _ hlink
    obtain ⟨-, hsays⟩ := h.says hx hlink hc
    cases c <;> cases hfits
    exact ⟨_, hc, hsays⟩
  list i c hc r hr := by
    obtain ⟨d, -, hsays⟩ := h.links i c hc _ hr
    exact hsays
  mainGroup i x hx := by
    obtain ⟨d, -, hsays⟩ := h.links i _ hx ⟨.mainGroup, x.mainGroup⟩ (by simp [Content.links])
    exact hsays

end Project

/-- In a reachable project all comments are current but for those of entries for scripts. Such an entry
never says anything else. It has been current after the move that made it, and ceases to be so in a
later move that gives its phase a script of another name. -/
theorem Reachable.comments_current [IdScheme] {p : Project} (h : Reachable p) :
    p.CommentsCurrent ∧ ∀ e q, Move p e q → p.KeepsEntries q := by
  have hp := h.wellFormed
  refine ⟨h.commented.commentsCurrent hp, fun e q hmove => ?_⟩
  obtain ⟨A, hA, hpath⟩ := hmove.exists_path hp h.owned
  constructor
  · exact fun t r slot old hold => hold.grows hpath.grows
  · exact fun t r slot script hentry => hpath.scriptEntry_cases hp hA hentry

/-! ## A script with another name -/

def formatScript : Script := ⟨"Format", "format", []⟩

/-- A target is given a script, and then another one in the same slot. The entry for the phase says the
name of the first script. -/
theorem exists_renamedScript :
    ∃ (q q' : Project) (t : ObjectId) (r : Reference), Reachable q ∧ Move q none q' ∧
      q'.ScriptEntry t r "pre:0" formatScript ∧ r.comment = some lintScript.name := by
  let t := (Content.target { name := "App", kind := .framework }).id
  let x := (Content.phase { target := "App", role := .script "pre:0" lintScript }).id
  let r : Reference := ⟨x, some "Lint"⟩
  let shell : NativeTarget := { name := "App", kind := .framework }
  let linted : NativeTarget := { shell with buildPhases := [r] }
  let add := Operation.newNativeTarget "App" .framework
  let lint := Operation.addScriptPhase t "pre:0" lintScript
  let format := Operation.addScriptPhase t "pre:0" formatScript
  have hlast : (Project.ofValue "App" (.text "Debug")).toOption.any fun p =>
      let p₁ := stateAfter add.run p
      let p₂ := stateAfter lint.run p₁
      let p₃ := stateAfter format.run p₂
      p₁.content? t = some (.target shell) ∧ p₂.content? t = some (.target linted) ∧
        failureOf format.run p₂ = none ∧ p₃.content? t = some (.target linted) ∧
          p₃.content? x = some (.phase { target := "App", role := .script "pre:0" formatScript }) := by
    decide +kernel
  obtain ⟨p, hnew, hp⟩ := Project.exists_of_ofValue hlast
  obtain ⟨hshell, hlinted, hsucceeds, htarget, hphase⟩ := of_decide_eq_true hp
  have hadd : Move p _ _ := .operation add trivial
  have hlint : Move (stateAfter add.run p) _ _ := .operation lint ⟨shell, hshell⟩
  have hformat : Move (stateAfter lint.run (stateAfter add.run p)) (failureOf format.run _) _ :=
    .operation format ⟨linted, hlinted⟩
  rw [hsucceeds] at hformat
  refine ⟨_, _, t, r, (Reachable.new hnew |>.move hadd |>.move hlint), hformat, ?_, rfl⟩
  exact ⟨linted, _, htarget, List.mem_singleton_self _, hphase, rfl⟩

/-- There is a reachable project with an entry for a script that does not say its name. -/
theorem stale_of_renamedScript :
    ∃ (q : Project) (t : ObjectId) (r : Reference) (script : Script), Reachable q ∧
      q.ScriptEntry t r "pre:0" script ∧ r.comment = some "Lint" ∧ script.name = "Format" := by
  obtain ⟨q, q', t, r, hreachable, hmove, hentry, hcomment⟩ := exists_renamedScript
  exact ⟨q', t, r, formatScript, hreachable.move hmove, hentry, hcomment, rfl⟩

/-- All other comments of that project are current, and the entry is an old one. -/
theorem comments_current_of_renamedScript :
    ∃ (q q' : Project) (t : ObjectId) (r : Reference), Move q none q' ∧ q'.CommentsCurrent ∧
      q'.ScriptEntry t r "pre:0" formatScript ∧ r.comment = some "Lint" ∧
        ∃ old, q.ScriptEntry t r "pre:0" old := by
  obtain ⟨q, q', t, r, hreachable, hmove, hentry, hcomment⟩ := exists_renamedScript
  obtain ⟨hcurrent, -⟩ := Reachable.comments_current (hreachable.move hmove)
  obtain ⟨-, hkeeps⟩ := Reachable.comments_current hreachable
  have hold := (hkeeps none q' hmove).current t r "pre:0" formatScript hentry
  rw [hcomment] at hold
  exact ⟨q, q', t, r, hmove, hcurrent, hentry, hcomment, hold.resolve_left (by decide)⟩

end ProjectGraph
