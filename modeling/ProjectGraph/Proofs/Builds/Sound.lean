import ProjectGraph.Proofs.Operations.Files
import ProjectGraph.Proofs.Operations.Products
import ProjectGraph.Proofs.Schemes.Entries
import ProjectGraph.Proofs.Settings.Clean

/-! # Sound projects

Well-formed projects can be made by hand in ways in which builds never make them. What builds keep up
is soundness: a file is in one phase of sources or resources only, what is linked is a product,
settings have proper values, and schemes refer to registered targets. -/

namespace ProjectGraph

/-- The phases of this kind claim their files: no other such phase has a file of theirs. -/
def PhaseKind.claims : PhaseKind → Bool
  | sources | resources => true
  | headers | frameworks => false

namespace Project

/-- A project as builds leave it. -/
structure Sound (p : Project) : Prop where
  claimed : ∀ file name k name' k', k.claims → k'.claims → p.Joins name k file →
    p.Joins name' k' file → name = name' ∧ k = k'
  source : ∀ file name k, k.claims → p.Joins name k file →
    ∃ path, p.content? file = some (.file (.source path))
  linked : ∀ file name, p.Joins name .frameworks file → ∃ n f, p.product? n = some f ∧ f.id = file
  settings : ∀ i c, p.content? i = some (.configuration c) → c.settings.Clean
  fileSettings : ∀ i f, p.content? i = some (.buildFile f) → ∀ x ∈ f.settings, x.Clean
  scheme : ∀ s ∈ p.schemes, ∀ e ∈ s.entries, ∃ a, p.content? e.target = some (.target a)

end Project

namespace Step

/-- The step adds nothing that builds do not add. -/
structure Sound (p : Project) (s : Step) : Prop where
  claims : ∀ name k file, k.claims → s.Files name k file →
    (∃ path, p.content? file = some (.file (.source path))) ∧ p.Alone name k file
  links : ∀ name file, s.Files name .frameworks file → ∃ n f, p.product? n = some f ∧ f.id = file
  buildFile : ∀ i f, s = .attach i (.buildFile f) → ∀ x ∈ f.settings, x.Clean
  configuration : ∀ c, s = .configuration c → c.settings.Clean
  settings : ∀ i new, s = .settings i new → new.Clean
  scheme : ∀ new, s = .scheme new → ∀ e ∈ new.entries, ∃ a, p.content? e.target = some (.target a)
  testables : ∀ name refs codeCoverage, s = .schemeChange name (.testables refs codeCoverage) →
    ∀ e ∈ refs, ∃ a, p.content? e.target = some (.target a)

variable [IdScheme] {p : Project} {s : Step}

/-- A step leaves the settings of a configuration, or replaces them. -/
theorem settings_reviseContent {i : ObjectId} {a b : Configuration}
    (h : s.reviseContent i (.configuration a) = .configuration b) :
    b.settings = a.settings ∨ s = .settings i b.settings := by
  cases s with
  | attach owner x =>
    simp only [reviseContent] at h
    split at h
    · cases x <;> cases h <;> exact .inl rfl
    · cases h
      exact .inl rfl
  | settings j new =>
    simp only [reviseContent] at h
    split at h
    · next hij =>
      cases h
      exact .inr (hij ▸ rfl)
    · cases h
      exact .inl rfl
  | configurationList | product | script =>
    simp only [reviseContent] at h
    split at h <;> cases h <;> exact .inl rfl
  | configuration | scheme | schemeChange =>
    cases h
    exact .inl rfl

theorem Sound.settings_apply (hp : p.WellFormed) (hd : s.Due p) (hf : s.Fresh p) (hs : s.Sound p)
    (h : p.Sound) {i : ObjectId} {c : Configuration}
    (hc : (s.apply p).content? i = some (.configuration c)) : c.settings.Clean := by
  rcases content?_apply_cases hc with ⟨a, ha, hrevised⟩ | ⟨a, hnew, rfl, hrevised⟩
  · have hgrow := grows_reviseContent hd ha
    rw [← hrevised] at hgrow
    cases hgrow
    rcases settings_reviseContent hrevised.symm with hsame | hset
    · rw [hsame]
      exact h.settings i _ ha
    · exact hs.settings i _ hset
  · rw [reviseContent_new hp hd hf hnew] at hrevised
    cases hd with
    | configuration =>
      cases hnew
      cases hrevised
      exact hs.configuration _ rfl
    | target | phase | buildFile | group | source | product | configurationList =>
      cases hnew
      cases hrevised
    | _ => cases hnew

theorem Sound.fileSettings_apply (hp : p.WellFormed) (hd : s.Due p) (hf : s.Fresh p) (hs : s.Sound p)
    (h : p.Sound) {i : ObjectId} {f : BuildFile}
    (hi : (s.apply p).content? i = some (.buildFile f)) : ∀ x ∈ f.settings, x.Clean := by
  rcases content?_apply_grows hp hd hf hi with ⟨c, hc, hgrow⟩ | ⟨hnew, -⟩
  · cases hgrow
    exact h.fileSettings i f hc
  · cases hd with
    | buildFile =>
      cases hnew
      exact hs.buildFile _ f rfl
    | _ => cases hnew

theorem Sound.scheme_apply (hs : s.Sound p) (h : p.Sound) {t : Scheme} (ht : t ∈ (s.apply p).schemes)
    {e : BuildableReference} (he : e ∈ t.entries) : ∃ a, p.content? e.target = some (.target a) := by
  rcases mentions_apply ⟨t, ht, rfl, he⟩ with ⟨t₀, ht₀, -, hold⟩ | ⟨new, rfl, -, hnew⟩ |
    ⟨refs, codeCoverage, rfl, hnew⟩
  · exact h.scheme t₀ ht₀ e hold
  · exact hs.scheme new rfl e hnew
  · exact hs.testables t.name refs codeCoverage rfl e hnew

/-- Sound steps lead to sound projects. -/
theorem sound_apply (hp : p.WellFormed) (hd : s.Due p) (hf : s.Fresh p) (hs : s.Sound p)
    (h : p.Sound) : (s.apply p).Sound where
  claimed file name k name' k' hk hk' hjoins hjoins' := by
    rcases joins_apply hp hd hf hjoins with hold | hnew
    · rcases joins_apply hp hd hf hjoins' with hold' | hnew'
      · exact h.claimed file name k name' k' hk hk' hold hold'
      · exact (hs.claims name' k' file hk' hnew').2 name k hold
    · rcases joins_apply hp hd hf hjoins' with hold' | hnew'
      · obtain ⟨hname, hkind⟩ := (hs.claims name k file hk hnew).2 name' k' hold'
        exact ⟨hname.symm, hkind.symm⟩
      · obtain ⟨i, f, rfl, rfl, rfl, -⟩ := hnew
        obtain ⟨i', f', heq, rfl, rfl, -⟩ := hnew'
        cases heq
        exact ⟨rfl, rfl⟩
  source file name k hk hjoins := by
    have hsource : ∃ path, p.content? file = some (.file (.source path)) := by
      rcases joins_apply hp hd hf hjoins with hold | hnew
      · exact h.source file name k hk hold
      · exact (hs.claims name k file hk hnew).1
    obtain ⟨path, hpath⟩ := hsource
    exact ⟨path, (grows_apply hd).file hpath⟩
  linked file name hjoins := by
    have hproduct : ∃ n f, p.product? n = some f ∧ f.id = file := by
      rcases joins_apply hp hd hf hjoins with hold | hnew
      · exact h.linked file name hold
      · exact hs.links name file hnew
    obtain ⟨n, f, hn, hid⟩ := hproduct
    exact ⟨n, f, Project.product?_of_grows hp hn (grows_apply hd), hid⟩
  settings i c hc := hs.settings_apply hp hd hf h hc
  fileSettings i f hi := hs.fileSettings_apply hp hd hf h hi
  scheme t ht e he := by
    obtain ⟨a, ha⟩ := hs.scheme_apply h ht he
    obtain ⟨b, hb, -⟩ := (grows_apply hd).target ha
    exact ⟨b, hb⟩

/-- The step neither puts a file into a phase nor makes configurations nor sets settings or schemes. -/
def isPlain : Step → Bool
  | attach _ (.buildFile _) | configuration _ | configurationList .. | settings .. => false
  | scheme _ | schemeChange .. => false
  | _ => true

omit [IdScheme] in
theorem not_files_of_isPlain (h : s.isPlain) (name : String) (k : PhaseKind) (file : ObjectId) :
    ¬ s.Files name k file := by
  rintro ⟨i, f, rfl, -⟩
  cases h

omit [IdScheme] in
theorem sound_of_isPlain (h : s.isPlain) : s.Sound p where
  claims name k file _ hfiles := absurd hfiles (not_files_of_isPlain h name k file)
  links name file hfiles := absurd hfiles (not_files_of_isPlain h name _ file)
  buildFile i f hs := by rw [hs] at h; cases h
  configuration c hs := by rw [hs] at h; cases h
  settings i new hs := by rw [hs] at h; cases h
  scheme new hs := by rw [hs] at h; cases h
  testables name refs codeCoverage hs := by rw [hs] at h; cases h

omit [IdScheme] in
/-- A step that puts a file into a phase is sound if it puts it there soundly. -/
theorem sound_of_buildFile {i : ObjectId} {f : BuildFile}
    (hclaims : f.phase.claims → (∃ path, p.content? f.file.id = some (.file (.source path))) ∧
      p.Alone f.target f.phase f.file.id)
    (hlinks : f.phase = .frameworks → ∃ n g, p.product? n = some g ∧ g.id = f.file.id)
    (hsettings : ∀ x ∈ f.settings, x.Clean) : (Step.attach i (.buildFile f)).Sound p := by
  constructor
  · rintro name k file hk ⟨j, g, heq, rfl, rfl, rfl⟩
    cases heq
    exact hclaims hk
  · rintro name file ⟨j, g, heq, rfl, hkind, rfl⟩
    cases heq
    exact hlinks hkind
  · rintro j g ⟨⟩
    exact hsettings
  all_goals
    intros
    contradiction

end Step

theorem Path.sound [IdScheme] {p q : Project} (hpq : Path (fun q s => s.Sound q) p q)
    (hp : p.WellFormed) (h : p.Sound) : q.Sound := by
  induction hpq with
  | refl => exact h
  | step path due fresh allowed ih =>
    exact Step.sound_apply (path.wellFormed hp) due fresh allowed ih

end ProjectGraph
