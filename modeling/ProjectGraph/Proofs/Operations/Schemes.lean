import ProjectGraph.Build.Launch
import ProjectGraph.Proofs.Operations.Performs
import ProjectGraph.Proofs.Registry.Reading
import ProjectGraph.Proofs.Schemes.Entries

/-! # Schemes of a project -/

namespace ProjectGraph.Project

variable {p q : Project} {t : ObjectId} {name : String} {cs : List SchemeChange}

/-! ## Changing schemes -/

/-- The project with these changes made to the schemes of a name. -/
def changeScheme (p : Project) (name : String) (cs : List SchemeChange) : Project :=
  { p with schemes := p.schemes.map fun s => if s.name = name then SchemeChange.applyAll s cs else s }

theorem changeScheme_nil (p : Project) (name : String) : p.changeScheme name [] = p := by
  have hschemes : p.schemes.map (fun s => if s.name = name then SchemeChange.applyAll s [] else s) =
      p.schemes := by
    refine (List.map_congr_left (g := id) fun s _ => ?_).trans (List.map_id _)
    split <;> rfl
  rw [changeScheme, hschemes]

theorem changeScheme_changeScheme (p : Project) (name : String) (cs cs' : List SchemeChange) :
    (p.changeScheme name cs).changeScheme name cs' = p.changeScheme name (cs ++ cs') := by
  have hschemes : (p.schemes.map fun s =>
        if s.name = name then SchemeChange.applyAll s cs else s).map
        (fun s => if s.name = name then SchemeChange.applyAll s cs' else s) =
      p.schemes.map fun s => if s.name = name then SchemeChange.applyAll s (cs ++ cs') else s := by
    rw [List.map_map]
    apply List.map_congr_left
    intro s _
    by_cases hs : s.name = name
    · have happend : SchemeChange.applyAll s (cs ++ cs') =
          SchemeChange.applyAll (SchemeChange.applyAll s cs) cs' := List.foldl_append
      simp only [Function.comp_apply, if_pos hs, SchemeChange.name_applyAll, happend]
    · simp only [Function.comp_apply, if_neg hs]
  rw [changeScheme, changeScheme, changeScheme]
  simp only [hschemes]

/-- The schemes of the name are there, and these changes leave them as they are. -/
def SchemeSettled (p : Project) (name : String) (cs : List SchemeChange) : Prop :=
  (∃ s ∈ p.schemes, s.name = name) ∧
    ∀ s ∈ p.schemes, s.name = name → SchemeChange.applyAll s cs = s

theorem changeScheme_of_settled (h : p.SchemeSettled name cs) : p.changeScheme name cs = p := by
  have hschemes : p.schemes.map (fun s => if s.name = name then SchemeChange.applyAll s cs else s) =
      p.schemes := by
    refine (List.map_congr_left (g := id) fun s hs => ?_).trans (List.map_id _)
    split
    · next hname => exact h.2 s hs hname
    · rfl
  rw [changeScheme, hschemes]

theorem schemeSettled_changeScheme (h : ∃ s ∈ p.schemes, s.name = name) :
    (p.changeScheme name cs).SchemeSettled name cs := by
  obtain ⟨s, hs, hname⟩ := h
  constructor
  · refine ⟨SchemeChange.applyAll s cs, List.mem_map.2 ⟨s, hs, if_pos hname⟩, ?_⟩
    rw [SchemeChange.name_applyAll, hname]
  · intro s' hs' hname'
    obtain ⟨s₀, hs₀, rfl⟩ := List.mem_map.1 hs'
    by_cases hname₀ : s₀.name = name
    · simp only [if_pos hname₀, SchemeChange.applyAll_applyAll]
    · simp only [if_neg hname₀] at hname'
      exact absurd hname' hname₀

variable [IdScheme]

/-- The steps that make and change schemes of these names. -/
def SchemeSteps (names : List String) (_ : Project) (s : Step) : Prop :=
  (∃ new : Scheme, new.name ∈ names ∧ s = .scheme new) ∨
    ∃ name ∈ names, ∃ change, s = .schemeChange name change

theorem schemeChange_apply (name : String) (c : SchemeChange) (p : Project) :
    (Step.schemeChange name c).apply p = p.changeScheme name [c] := by
  simp [Step.apply, Step.new?, Step.revise, changeScheme, SchemeChange.applyAll]

theorem scheme_apply (new : Scheme) (p : Project) :
    (Step.scheme new).apply p = { p with schemes := p.schemes ++ [new] } := by
  simp [Step.apply, Step.new?, Step.revise]

/-- Making changes one after the other is a path, on which no other steps are taken. -/
theorem path_changeScheme {A : Project → Step → Prop} (p : Project) (cs : List SchemeChange)
    (hA : ∀ q, ∀ c ∈ cs, A q (.schemeChange name c)) : Path A p (p.changeScheme name cs) := by
  induction cs generalizing p with
  | nil =>
    rw [changeScheme_nil]
    exact .refl
  | cons c cs ih =>
    have hfresh : (Step.schemeChange name c).Fresh p := by
      intro _ h
      cases h
    have hfirst : Path A p ((Step.schemeChange name c).apply p) :=
      .single (.schemeChange name c) hfresh (hA p c (by simp))
    have hrest := ih ((Step.schemeChange name c).apply p) fun q c' hc' =>
      hA q c' (List.mem_cons_of_mem c hc')
    rw [schemeChange_apply, changeScheme_changeScheme] at hrest
    rw [schemeChange_apply] at hfirst
    exact hfirst.trans hrest

/-- Schemes stay settled if none of their name is made or changed. -/
theorem SchemeSettled.path {A : Project → Step → Prop} (h : p.SchemeSettled name cs)
    (hpq : Path A p q) (hnew : ∀ q' new, A q' (.scheme new) → new.name ≠ name)
    (hchange : ∀ q' n c, A q' (.schemeChange n c) → n ≠ name) : q.SchemeSettled name cs := by
  obtain ⟨⟨s, hs, hname⟩, hall⟩ := h
  have hsame : ∀ s : Scheme, s.name = name → (s ∈ q.schemes ↔ s ∈ p.schemes) :=
    fun s => hpq.mem_schemes_iff hnew hchange
  exact ⟨⟨s, (hsame s hname).2 hs, hname⟩, fun s' hs' hname' => hall s' ((hsame s' hname').1 hs') hname'⟩

/-- Steps on schemes leave the registry as it is. -/
theorem content?_of_path_schemeSteps {names : List String} (h : Path (SchemeSteps names) p q)
    (i : ObjectId) : q.content? i = p.content? i := by
  induction h with
  | refl => rfl
  | @step q s _ _ _ allowed ih =>
    rw [← ih, Step.content?_apply]
    rcases allowed with ⟨new, -, rfl⟩ | ⟨name, -, change, rfl⟩
    · cases q.content? i <;> rfl
    · cases q.content? i <;> rfl

/-! ## Buildable references -/

omit [IdScheme] in
/-- The name of the product of a target, by which schemes know it. -/
def productNameOf (p : Project) (a : NativeTarget) : Option String :=
  match a.productReference with
  | none => some a.name
  | some r => (p.content? r.id).bind fun c => c.file?.map FileReference.path

omit [IdScheme] in
/-- How a scheme refers to a target of this content. -/
def buildableOf (p : Project) (t : ObjectId) (a : NativeTarget) : BuildableReference :=
  ⟨t, a.name, p.productNameOf a⟩

omit [IdScheme] in
/-- A target with a product is registered under the id. -/
def Produces (p : Project) (t : ObjectId) : Prop :=
  ∃ a, p.content? t = some (.target a) ∧ a.productReference.isSome

omit [IdScheme] in
theorem Produces.grows (h : p.Produces t) (hpq : p.Grows q) : q.Produces t := by
  obtain ⟨a, ha, hproduct⟩ := h
  obtain ⟨b, hb, -, -, -, -, hkeeps⟩ := hpq.target ha
  exact ⟨b, hb, hkeeps hproduct⟩

omit [IdScheme] in
/-- The entry shows a target of the project, and its product, as they are. -/
def Shows (p : Project) (e : BuildableReference) : Prop :=
  ∃ a, p.content? e.target = some (.target a) ∧ a.productReference.isSome ∧
    e = p.buildableOf e.target a

omit [IdScheme] in
theorem buildableOf_congr (h : ∀ i, q.content? i = p.content? i) (t : ObjectId) (a : NativeTarget) :
    q.buildableOf t a = p.buildableOf t a := by
  unfold buildableOf productNameOf
  simp only [h]

omit [IdScheme] in
theorem Shows.congr {e : BuildableReference} (h : p.Shows e)
    (hsame : ∀ i, q.content? i = p.content? i) : q.Shows e := by
  obtain ⟨a, ha, hproduct, heq⟩ := h
  exact ⟨a, (hsame _).trans ha, hproduct, by rw [buildableOf_congr hsame]; exact heq⟩

omit [IdScheme] in
theorem Shows.exists_target {e : BuildableReference} (h : p.Shows e) :
    ∃ a, p.content? e.target = some (.target a) := by
  obtain ⟨a, ha, -⟩ := h
  exact ⟨a, ha⟩

omit [IdScheme] in
theorem refers_buildableOf {a : NativeTarget} (ha : p.content? t = some (.target a)) :
    p.Refers (p.buildableOf t a) :=
  ⟨a, ha, rfl⟩

omit [IdScheme] in
theorem Shows.refers {e : BuildableReference} (h : p.Shows e) : p.Refers e := by
  obtain ⟨a, ha, -, heq⟩ := h
  rw [heq]
  exact refers_buildableOf ha

omit [IdScheme] in
theorem Refers.congr {e : BuildableReference} (h : p.Refers e)
    (hsame : ∀ i, q.content? i = p.content? i) : q.Refers e := by
  obtain ⟨a, ha, hname⟩ := h
  exact ⟨a, (hsame _).trans ha, hname⟩

/-! ## Steps on the schemes of a name -/

/-- The steps that make and change schemes of the name, so that these mention nothing but this. -/
structure MentioningSteps (name : String) (entries : List BuildableReference) (q : Project) (s : Step) :
    Prop where
  schemeSteps : SchemeSteps [name] q s
  mentions : ∀ n e, s.Mentions n e → e ∈ entries
  founding : s.Founding

omit [IdScheme] in
theorem MentioningSteps.mono {s : Step} {entries entries' : List BuildableReference}
    (h : MentioningSteps name entries q s) (hsub : entries ⊆ entries') :
    MentioningSteps name entries' q s :=
  ⟨h.schemeSteps, fun n e he => hsub (h.mentions n e he), h.founding⟩

/-- The steps that make and change schemes of the name, so that these show targets as they are. -/
structure AimedSteps (name : String) (q : Project) (s : Step) : Prop where
  schemeSteps : SchemeSteps [name] q s
  shows : ∀ n e, s.Mentions n e → q.Shows e
  founding : s.Founding

/-- The steps that make and change schemes of the name, so that these mention registered targets only. -/
structure ArrangingSteps (name : String) (q : Project) (s : Step) : Prop where
  schemeSteps : SchemeSteps [name] q s
  arranging : s.Arranging q

omit [IdScheme] in
theorem AimedSteps.toArrangingSteps {s : Step} (h : AimedSteps name q s) : ArrangingSteps name q s :=
  ⟨h.schemeSteps, h.founding, fun n e he => (h.shows n e he).refers⟩

/-- Steps on schemes leave targets as they are, so what they mention stays registered. -/
theorem path_arrangingSteps {entries : List BuildableReference}
    (hpq : Path (MentioningSteps name entries) p q) (h : ∀ e ∈ entries, p.Refers e) :
    Path (ArrangingSteps name) p q := by
  refine hpq.restrict fun r s hr _ hs => ⟨hs.schemeSteps, hs.founding, fun n e he => ?_⟩
  exact (h e (hs.mentions n e he)).congr (content?_of_path_schemeSteps (hr.mono fun _ _ h => h.schemeSteps))

theorem path_changeScheme_of_mentions {entries : List BuildableReference} (p : Project)
    (h : ∀ refs codeCoverage, .testables refs codeCoverage ∈ cs → refs ⊆ entries) :
    Path (MentioningSteps name entries) p (p.changeScheme name cs) := by
  refine path_changeScheme p cs fun r c hc => ⟨.inr ⟨name, by simp, c, rfl⟩, ?_, by rintro _ ⟨⟩⟩
  rintro n e (⟨_, hs, -⟩ | ⟨refs, codeCoverage, hs, he⟩)
  · cases hs
  · cases hs
    exact h refs codeCoverage hc he

theorem buildableReference_eq (hp : p.WellFormed) {a : NativeTarget}
    (ha : p.content? t = some (.target a)) :
    buildableReference t p = .ok (p.buildableOf t a) p := by
  obtain ⟨o, ho, hoa⟩ := exists_find?_of_content? ha
  have hname : viewAs Content.name? o p = .ok a.name p := by
    apply viewAs_of_eq_some
    rw [hoa]
    rfl
  have hproduct : partOf Object.productReference? o p = .ok a.productReference p := by
    apply partOf_of_eq_some
    rw [Object.productReference?, hoa]
  rw [buildableReference, bind_of_ok (resolve_of_find? ho), bind_of_ok hname, bind_of_ok hproduct,
    buildableOf, productNameOf]
  cases hr : a.productReference with
  | none => rfl
  | some r =>
    obtain ⟨f, hf⟩ := hp.product_of_target ha hr
    have hpath : resolveAs Content.path? r.id p = .ok (some f.path) p := resolveAs_of_content? hf rfl
    simp only
    rw [bind_of_ok hpath, hf]
    rfl

theorem exists_mapM_buildableReference (hp : p.WellFormed) {tests : List ObjectId}
    (h : ∀ t ∈ tests, ∃ a, p.content? t = some (.target a)) :
    ∃ entries, tests.mapM buildableReference p = .ok entries p ∧ ∀ e ∈ entries, p.Refers e := by
  induction tests with
  | nil => exact ⟨[], rfl, by simp⟩
  | cons t tests ih =>
    obtain ⟨a, ha⟩ := h t (by simp)
    obtain ⟨entries, hentries, hrefers⟩ := ih fun t' ht => h t' (List.mem_cons_of_mem t ht)
    refine ⟨p.buildableOf t a :: entries, ?_, List.forall_mem_cons.2 ⟨refers_buildableOf ha, hrefers⟩⟩
    rw [List.mapM_cons, bind_of_ok (buildableReference_eq hp ha), bind_of_ok hentries]
    rfl

/-! ## Setting launch and test settings -/

omit [IdScheme] in
theorem setLaunchArguments_eq (name : String) (arguments : List LaunchArgument) (p : Project) :
    setLaunchArguments name arguments p =
      .ok () (p.changeScheme name [.launchArguments arguments]) :=
  rfl

omit [IdScheme] in
theorem setEnvironmentVariables_eq (name : String) (environment : List EnvironmentVariable)
    (p : Project) :
    setEnvironmentVariables name environment p =
      .ok () (p.changeScheme name [.environmentVariables environment]) :=
  rfl

omit [IdScheme] in
theorem setTestTargets_eq {tests : List ObjectId} {entries : List BuildableReference}
    (h : tests.mapM buildableReference p = .ok entries p) (name : String) (codeCoverage : Bool) :
    setTestTargets name tests codeCoverage p =
      .ok () (p.changeScheme name [.testables entries codeCoverage]) := by
  rw [setTestTargets, bind_of_ok h]
  rfl

/-- An operation that changes the schemes of a name takes steps on schemes. -/
theorem performs_of_changeScheme {x : Edit Unit} {entries : List BuildableReference}
    (hx : x p = .ok () (p.changeScheme name cs)) (hentries : ∀ e ∈ entries, p.Refers e)
    (h : ∀ refs codeCoverage, .testables refs codeCoverage ∈ cs → refs ⊆ entries) :
    Edit.Performs (ArrangingSteps name) x p fun _ q => q = p.changeScheme name cs :=
  Leads.of_eq_ok hx ⟨path_arrangingSteps (path_changeScheme_of_mentions p h) hentries, rfl⟩

/-! ## The scheme of a target -/

omit [IdScheme] in
theorem scheme?_isSome_iff : (p.scheme? name).isSome ↔ ∃ s ∈ p.schemes, s.name = name := by
  simp [scheme?, List.find?_isSome]

omit [IdScheme] in
/-- A scheme that is there is left as it is. -/
theorem schemeFor_of_mem {a : NativeTarget} (ha : p.content? t = some (.target a))
    (h : ∃ s ∈ p.schemes, s.name = a.name) : schemeFor t p = .ok a.name p := by
  have hname : resolveAs Content.name? t p = .ok a.name p := resolveAs_of_content? ha rfl
  obtain ⟨s, hs⟩ := Option.isSome_iff_exists.1 (scheme?_isSome_iff.2 h)
  rw [schemeFor, bind_of_ok hname, get_bind, hs]
  rfl

omit [IdScheme] in
/-- The scheme that a target is given if it has none. -/
def newScheme (p : Project) (t : ObjectId) (a : NativeTarget) : Scheme where
  name := a.name
  configuration := p.configurationNames.head p.configurationNames_ne_nil
  buildEntries := [p.buildableOf t a]

theorem schemeFor_of_none (hp : p.WellFormed) {a : NativeTarget}
    (ha : p.content? t = some (.target a)) (hnone : p.scheme? a.name = none) :
    schemeFor t p = .ok a.name { p with schemes := p.schemes ++ [p.newScheme t a] } := by
  have hname : resolveAs Content.name? t p = .ok a.name p := resolveAs_of_content? ha rfl
  rw [schemeFor, bind_of_ok hname, get_bind, hnone]
  simp only
  rw [bind_of_ok (buildableReference_eq hp ha)]
  rfl

/-- A registered target has a scheme, or is given one that builds it. -/
theorem exists_schemeFor (hp : p.WellFormed) {a : NativeTarget}
    (ha : p.content? t = some (.target a)) :
    ∃ q, schemeFor t p = .ok a.name q ∧ Path (MentioningSteps a.name [p.buildableOf t a]) p q ∧
      ∃ s ∈ q.schemes, s.name = a.name := by
  cases hs : p.scheme? a.name with
  | some s =>
    have hmem : ∃ s ∈ p.schemes, s.name = a.name := by
      apply scheme?_isSome_iff.1
      rw [hs]
      rfl
    exact ⟨p, schemeFor_of_mem ha hmem, .refl, hmem⟩
  | none =>
    have habsent : ∀ s ∈ p.schemes, s.name ≠ (p.newScheme t a).name := by
      intro s hs' hname
      have hsome := scheme?_isSome_iff.2 ⟨s, hs', hname⟩
      rw [show (p.newScheme t a).name = a.name from rfl, hs] at hsome
      cases hsome
    have hfresh : (Step.scheme (p.newScheme t a)).Fresh p := by
      intro _ h
      cases h
    have hstep : MentioningSteps a.name [p.buildableOf t a] p (.scheme (p.newScheme t a)) := by
      refine ⟨.inl ⟨p.newScheme t a, by simp [newScheme], rfl⟩, ?_, ?_⟩
      · rintro n e (⟨_, ⟨⟩, -, he⟩ | ⟨_, _, hs, -⟩)
        · simpa [newScheme, Scheme.entries] using he
        · cases hs
      · rintro _ ⟨⟩
        exact ⟨p.buildableOf t a, rfl, rfl, rfl⟩
    have hpath := Path.single (.scheme ha rfl habsent) hfresh hstep
    rw [scheme_apply] at hpath
    exact ⟨_, schemeFor_of_none hp ha hs, hpath, p.newScheme t a, by simp, rfl⟩

theorem performs_schemeFor (hp : p.WellFormed) {a : NativeTarget}
    (ha : p.content? t = some (.target a)) :
    Edit.Performs (ArrangingSteps a.name) (schemeFor t) p
      fun name q => name = a.name ∧ ∃ s ∈ q.schemes, s.name = a.name := by
  obtain ⟨q, hq, hpath, hmem⟩ := exists_schemeFor hp ha
  exact Leads.of_eq_ok hq ⟨path_arrangingSteps hpath (by simpa using refers_buildableOf ha), rfl, hmem⟩

/-! ## The scheme of a declaration -/

omit [IdScheme] in
/-- The launch settings that a target declares. -/
def launchChanges (d : Target) : List SchemeChange :=
  (d.launchArguments.toList.map fun arguments =>
    .launchArguments (arguments.map fun a => { text := a })) ++
  (d.environmentVariables.toList.map fun environment =>
    .environmentVariables (environment.entries.map fun e => { key := e.1, value := e.2 }))

omit [IdScheme] in
theorem addLaunchSettings_eq (name : String) (d : Target) (p : Project) :
    addLaunchSettings name d p = .ok () (p.changeScheme name (launchChanges d)) := by
  have harguments : addLaunchArguments name d.launchArguments p =
      .ok () (p.changeScheme name (d.launchArguments.toList.map fun arguments =>
        .launchArguments (arguments.map fun a => { text := a }))) := by
    cases d.launchArguments with
    | none =>
      show EStateM.Result.ok () p = .ok () (p.changeScheme name [])
      rw [changeScheme_nil]
    | some arguments => rfl
  have hvariables : ∀ p : Project, addEnvironmentVariables name d.environmentVariables p =
      .ok () (p.changeScheme name (d.environmentVariables.toList.map fun environment =>
        .environmentVariables (environment.entries.map fun e => { key := e.1, value := e.2 }))) := by
    intro p
    cases d.environmentVariables with
    | none =>
      show EStateM.Result.ok () p = .ok () (p.changeScheme name [])
      rw [changeScheme_nil]
    | some environment => rfl
  rw [addLaunchSettings, bind_of_ok harguments, hvariables, changeScheme_changeScheme]
  rfl

omit [IdScheme] in
/-- All that a declaration changes in its scheme. -/
def declaredChanges (d : Declaration) (test : Option BuildableReference) : List SchemeChange :=
  (test.toList.map fun entry => .testables [entry] d.target.enableCodeCoverage) ++
    (launchChanges d.target ++ d.test.toList.flatMap launchChanges)

omit [IdScheme] in
/-- The scheme of a declaration tests its test target, and nothing else. -/
theorem SchemeSettled.testables {d : Declaration} {entry : BuildableReference}
    (h : p.SchemeSettled name (declaredChanges d (some entry))) {s : Scheme} (hs : s ∈ p.schemes)
    (hname : s.name = name) : s.testables = [entry] := by
  obtain ⟨entries, heq⟩ := SchemeChange.applyAll_eq s (declaredChanges d (some entry))
  have hlaunch : ∀ c ∈ launchChanges d.target ++ d.test.toList.flatMap launchChanges,
      SchemeChange.tests? c = none := by
    intro c hc
    simp only [launchChanges, List.mem_append, List.mem_map, List.mem_flatMap] at hc
    rcases hc with (⟨_, -, rfl⟩ | ⟨_, -, rfl⟩) | ⟨_, -, ⟨_, -, rfl⟩ | ⟨_, -, rfl⟩⟩ <;> rfl
  have hlast : SchemeChange.last SchemeChange.tests? (s.testables, s.codeCoverage)
      (declaredChanges d (some entry)) = ([entry], d.target.enableCodeCoverage) :=
    SchemeChange.last_eq_of_none hlaunch _
  rw [← h.2 s hs hname, heq, hlast]

omit [IdScheme] in
/-- The launch settings of both targets of a declaration are changes of one scheme. -/
theorem addLaunchSettings_declared (name : String) (d : Declaration) (p : Project) :
    (do
      addLaunchSettings name d.target
      match d.test with
      | some test => addLaunchSettings name test
      | none => pure ()
      return name : Edit String) p =
      .ok name
        (p.changeScheme name (launchChanges d.target ++ d.test.toList.flatMap launchChanges)) := by
  rw [bind_of_ok (addLaunchSettings_eq name d.target p)]
  cases hd : d.test with
  | none =>
    show EStateM.Result.ok name (p.changeScheme name (launchChanges d.target)) = _
    simp
  | some test =>
    simp only
    rw [bind_of_ok (addLaunchSettings_eq name test _), changeScheme_changeScheme]
    simp
    rfl

theorem configureScheme_eq (hq : q.WellFormed) (d : Declaration) {a : NativeTarget}
    {test : Option ObjectId} {entry : Option BuildableReference}
    (hfor : schemeFor t p = .ok a.name q)
    (htest : ∀ u, test = some u → ∃ b, q.content? u = some (.target b) ∧
      entry = some (q.buildableOf u b)) (hnone : test = none → entry = none) :
    configureScheme d t test p = .ok a.name (q.changeScheme a.name (declaredChanges d entry)) := by
  rw [configureScheme, bind_of_ok hfor]
  cases test with
  | none =>
    rw [hnone rfl]
    exact addLaunchSettings_declared a.name d q
  | some u =>
    obtain ⟨b, hb, rfl⟩ := htest u rfl
    have hentries : [u].mapM buildableReference q = .ok [q.buildableOf u b] q := by
      rw [List.mapM_cons, bind_of_ok (buildableReference_eq hq hb)]
      rfl
    simp only
    rw [bind_of_ok (setTestTargets_eq hentries a.name d.target.enableCodeCoverage)]
    refine (addLaunchSettings_declared a.name d _).trans ?_
    rw [changeScheme_changeScheme]
    rfl

/-- A scheme that is set up already is left as it is. -/
theorem configureScheme_of_settled (hp : p.WellFormed) (d : Declaration) {a : NativeTarget}
    (ha : p.content? t = some (.target a)) {test : Option ObjectId} {entry : Option BuildableReference}
    (htest : ∀ u, test = some u → ∃ b, p.content? u = some (.target b) ∧
      entry = some (p.buildableOf u b)) (hnone : test = none → entry = none)
    (h : p.SchemeSettled a.name (declaredChanges d entry)) :
    configureScheme d t test p = .ok a.name p := by
  rw [configureScheme_eq hp d (schemeFor_of_mem ha h.1) htest hnone, changeScheme_of_settled h]

omit [IdScheme] in
/-- Only the test target becomes a testable. -/
theorem mem_of_mem_declaredChanges {d : Declaration} {entry : Option BuildableReference}
    {refs : List BuildableReference} {codeCoverage : Bool}
    (h : .testables refs codeCoverage ∈ declaredChanges d entry) : ∀ e ∈ refs, entry = some e := by
  simp only [declaredChanges, launchChanges, List.mem_append, List.mem_map, List.mem_flatMap,
    Option.mem_toList] at h
  rcases h with ⟨x, hx, heq⟩ | (⟨x, -, heq⟩ | ⟨x, -, heq⟩) | ⟨x, -, ⟨y, -, heq⟩ | ⟨y, -, heq⟩⟩
  · cases heq
    intro e he
    rw [List.mem_singleton.1 he]
    exact hx
  all_goals cases heq

/-- The scheme of a registered target can be set up to test a registered target. It mentions nothing
else then. -/
theorem exists_configureScheme (hp : p.WellFormed) (d : Declaration) {a : NativeTarget}
    (ha : p.content? t = some (.target a)) (test : Option ObjectId) (entry : Option BuildableReference)
    (htest : ∀ u, test = some u → ∃ b, p.content? u = some (.target b) ∧
      entry = some (p.buildableOf u b)) (hnone : test = none → entry = none) :
    ∃ q, configureScheme d t test p = .ok a.name q ∧
      Path (MentioningSteps a.name (p.buildableOf t a :: entry.toList)) p q ∧
        q.SchemeSettled a.name (declaredChanges d entry) := by
  obtain ⟨q, hfor, hpath, hmem⟩ := exists_schemeFor hp ha
  have hcontent := content?_of_path_schemeSteps (hpath.mono fun _ _ h => h.schemeSteps)
  have htest' : ∀ u, test = some u → ∃ b, q.content? u = some (.target b) ∧
      entry = some (q.buildableOf u b) := by
    intro u hu
    obtain ⟨b, hb, hentry⟩ := htest u hu
    exact ⟨b, (hcontent u).trans hb, by rw [hentry, buildableOf_congr hcontent]⟩
  refine ⟨_, configureScheme_eq (hpath.wellFormed hp) d hfor htest' hnone,
    (hpath.mono fun _ _ h => h.mono (by simp)).trans (path_changeScheme_of_mentions q ?_),
    schemeSettled_changeScheme hmem⟩
  intro refs codeCoverage hc e he
  simp [mem_of_mem_declaredChanges hc e he]

omit [IdScheme] in
/-- A test target that is registered has an entry. -/
theorem exists_testEntry {test : Option ObjectId}
    (h : ∀ u ∈ test, ∃ b, p.content? u = some (.target b)) :
    ∃ entry, (∀ u, test = some u → ∃ b, p.content? u = some (.target b) ∧
      entry = some (p.buildableOf u b)) ∧ (test = none → entry = none) ∧
        ∀ e ∈ entry.toList, ∃ u b, test = some u ∧ p.content? u = some (.target b) ∧
          e = p.buildableOf u b := by
  cases test with
  | none => exact ⟨none, by simp, by simp, by simp⟩
  | some u =>
    obtain ⟨b, hb⟩ := h u rfl
    refine ⟨some (p.buildableOf u b), ?_, by simp, fun e he => ⟨u, b, rfl, hb, by simpa using he⟩⟩
    rintro _ ⟨⟩
    exact ⟨b, hb, rfl⟩

/-- If both targets are registered, the scheme mentions nothing else, and is there afterwards. -/
theorem exists_arranging_configureScheme (hp : p.WellFormed) (d : Declaration) {a : NativeTarget}
    (ha : p.content? t = some (.target a)) (test : Option ObjectId)
    (htest : ∀ u ∈ test, ∃ b, p.content? u = some (.target b)) :
    ∃ q, configureScheme d t test p = .ok a.name q ∧ Path (ArrangingSteps a.name) p q ∧
      ∃ s ∈ q.schemes, s.name = a.name := by
  obtain ⟨entry, hsome, hnone, hentry⟩ := exists_testEntry htest
  obtain ⟨q, hq, hpath, hsettled⟩ := exists_configureScheme hp d ha test entry hsome hnone
  refine ⟨q, hq, path_arrangingSteps hpath ?_, hsettled.1⟩
  refine List.forall_mem_cons.2 ⟨refers_buildableOf ha, fun e he => ?_⟩
  obtain ⟨u, b, -, hb, rfl⟩ := hentry e he
  exact refers_buildableOf hb

/-- If both targets have products, the scheme shows them as they are. -/
theorem exists_aimed_configureScheme (hp : p.WellFormed) (d : Declaration) (ht : p.Produces t)
    (test : Option ObjectId) (htest : ∀ u ∈ test, p.Produces u) :
    ∃ name q, configureScheme d t test p = .ok name q ∧ Path (AimedSteps name) p q := by
  obtain ⟨a, ha, hproduct⟩ := ht
  obtain ⟨entry, hsome, hnone, hentry⟩ := exists_testEntry fun u hu => (htest u hu).imp fun _ h => h.1
  obtain ⟨q, hq, hpath, -⟩ := exists_configureScheme hp d ha test entry hsome hnone
  refine ⟨a.name, q, hq, hpath.restrict fun r s hr _ hs => ⟨hs.schemeSteps, fun n e he => ?_, hs.founding⟩⟩
  have hshown : p.Shows e := by
    rcases List.mem_cons.1 (hs.mentions n e he) with rfl | he
    · exact ⟨a, ha, hproduct, rfl⟩
    · obtain ⟨u, b, hu, hb, rfl⟩ := hentry e he
      obtain ⟨c, hc, hproduct'⟩ := htest u hu
      rw [hb] at hc
      cases hc
      exact ⟨b, hb, hproduct', rfl⟩
  exact hshown.congr (content?_of_path_schemeSteps (hr.mono fun _ _ h => h.schemeSteps))

end ProjectGraph.Project
