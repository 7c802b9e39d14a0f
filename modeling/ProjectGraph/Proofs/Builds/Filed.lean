import ProjectGraph.Proofs.Builds.Steps
import ProjectGraph.Proofs.Keys.Fresh

/-! # What has been filed

Paths are filed one after the other. The first filing of a path makes its source, and decides into which
phase of sources or resources the source goes. The later ones leave it where it is. So what is in these
phases can be told from the list of all filings. -/

namespace ProjectGraph

/-! ## Filings -/

/-- A path that is filed, and the target and the kind of the phase that it goes into. Property lists
and headers go into no phase of sources or resources. -/
abbrev Filing := String × Option (String × PhaseKind)

namespace Filing

variable {fs : List Filing} {path path' : String} {phase : Option (String × PhaseKind)}

/-! One more filing at the end of a list. -/

theorem lookup_append_of_ne (h : path' ≠ path) :
    (fs ++ [(path, phase)]).lookup path' = fs.lookup path' := by
  have hother : (path' == path) = false := beq_false_of_ne h
  rw [List.lookup_append, List.lookup_cons, hother, List.lookup_nil]
  exact Option.or_none

theorem lookup_append_of_isSome (h : (fs.lookup path).isSome) :
    (fs ++ [(path, phase)]).lookup path = fs.lookup path := by
  rw [List.lookup_append, Option.or_of_isSome h]

theorem lookup_append_of_eq_none (h : fs.lookup path = none) :
    (fs ++ [(path, phase)]).lookup path = some phase := by
  rw [List.lookup_append, h, List.lookup_cons_self]
  rfl

end Filing

/-! ## What has been filed -/

/-- The step makes no source, and puts no file into a phase of sources or resources. -/
def Step.isQuiet : Step → Bool
  | attach _ (.source _) => false
  | attach _ (.buildFile f) => !f.phase.claims
  | _ => true

/-- A step that files nothing. The slots that it makes are slots of builds. -/
structure Step.Quiet (s : Step) : Prop where
  quiet : s.isQuiet
  slot : ∀ slot, s.slot? = some slot → IsBuildSlot slot

namespace Project

variable {p q r : Project} {path : String} {fs es : List Filing}

/-- The path has a file of the project under this id. -/
def Source (p : Project) (path : String) (i : ObjectId) : Prop :=
  p.content? i = some (.file (.source path))

/-- A project in which files are found where they are looked for, and nowhere else. -/
structure Searchable [IdScheme] (p : Project) : Prop where
  wellFormed : p.WellFormed
  owned : p.Owned
  findable : p.Findable
  apart : p.Apart

/-- The filings have led to the sources of the project: each path has a source if it has been filed,
and the source is in the phase that the first filing of the path has put it into. -/
structure FiledBy [IdScheme] (p : Project) (fs : List Filing) : Prop extends Searchable p where
  exists_iff : ∀ path, (∃ i, p.Source path i) ↔ (fs.lookup path).isSome
  joins_iff : ∀ i path name kind, p.Source path i → kind.claims →
    (p.Joins name kind i ↔ fs.lookup path = some (some (name, kind)))

/-- From one project to the other these are filed, and only their paths get sources. -/
structure Gains [IdScheme] (p q : Project) (fs : List Filing) : Prop where
  filedBy : ∀ es, p.FiledBy es → q.FiledBy (es ++ fs)
  sources : ∀ path i, q.Source path i → p.Source path i ∨ path ∈ fs.map Prod.fst

variable [IdScheme]

theorem Gains.refl (p : Project) : p.Gains p [] where
  filedBy es h := by simpa using h
  sources _ _ h := .inl h

theorem Gains.trans (h : p.Gains q fs) (h' : q.Gains r es) : p.Gains r (fs ++ es) where
  filedBy es' hp := by
    rw [← List.append_assoc]
    exact h'.filedBy _ (h.filedBy _ hp)
  sources path i hi := by
    rw [List.map_append, List.mem_append]
    rcases h'.sources path i hi with hi | hpath
    · exact (h.sources path i hi).imp id .inl
    · exact .inr (.inr hpath)

theorem WellFormed.source_unique (hp : p.WellFormed) {i j : ObjectId} (hi : p.Source path i)
    (hj : p.Source path j) : i = j :=
  hp.eq_of_key_eq hi hj rfl

/-! ### Looking for sources -/

/-- What is found in the group of a directory is a source, since products are not in such a group. -/
theorem Tidy.source (h : p.Tidy) {f : Identified FileReference} (hf : p.Filed path f) :
    p.Source path f.id := by
  obtain ⟨i, g, hi, hg, hfirst⟩ := hf
  obtain ⟨hfile, hpath⟩ := content?_of_first_file hfirst
  obtain ⟨r, hr, hid, -⟩ := exists_of_first hfirst
  have hchild : p.Parent f.id i := ⟨g, hg, List.mem_map.2 ⟨r, hr, hid⟩⟩
  obtain ⟨id, c⟩ := f
  cases c with
  | source path' =>
    obtain rfl : path' = path := hpath
    exact hfile
  | product path' type =>
    rw [h.owned.parent_unique h.wellFormed hchild (h.stocked id path' type hfile)] at hi
    exact absurd hi (h.apart.fileGroup_ne path)

theorem Searchable.tidy (h : p.Searchable) : p.Tidy :=
  ⟨h.wellFormed, h.owned, h.apart, h.findable.product⟩

theorem Searchable.source (h : p.Searchable) {f : Identified FileReference} (hf : p.Filed path f) :
    p.Source path f.id :=
  h.tidy.source hf

theorem Searchable.isFiled_iff (h : p.Searchable) : p.IsFiled path ↔ ∃ i, p.Source path i := by
  constructor
  · rintro ⟨f, hf⟩
    exact ⟨f.id, h.source hf⟩
  · rintro ⟨i, hi⟩
    obtain ⟨j, hj, hparent⟩ := h.findable.source i path hi
    obtain ⟨g, hg⟩ := h.wellFormed.fileGroup hj
    obtain ⟨f, hf⟩ := exists_first_of_parent hg hparent hi
    exact ⟨f, j, g, hj, hg, hf⟩

theorem FiledBy.of_lookup (h : p.FiledBy fs) (hes : ∀ path, es.lookup path = fs.lookup path) :
    p.FiledBy es where
  toSearchable := h.toSearchable
  exists_iff path := by rw [hes, h.exists_iff]
  joins_iff i path name kind hi hkind := by rw [hes, h.joins_iff i path name kind hi hkind]

/-- Filing a path again changes nothing. -/
theorem gains_of_isFiled (h : p.IsFiled path) (phase : Option (String × PhaseKind)) :
    p.Gains p [(path, phase)] := by
  refine ⟨fun fs hp => ?_, fun _ _ hi => .inl hi⟩
  have hold := (hp.exists_iff path).1 (hp.isFiled_iff.1 h)
  refine hp.of_lookup fun path' => ?_
  by_cases hsame : path' = path
  · rw [hsame, Filing.lookup_append_of_isSome hold]
  · rw [Filing.lookup_append_of_ne hsame]

/-- What is known of other paths stays known if nothing happens to them. -/
theorem FiledBy.update (h : p.FiledBy fs) (hq : q.Searchable) (path : String)
    (hsource : ∀ path' i, path' ≠ path → (q.Source path' i ↔ p.Source path' i))
    (hjoins : ∀ path' i name kind, path' ≠ path → p.Source path' i → kind.claims →
      (q.Joins name kind i ↔ p.Joins name kind i))
    (hlookup : ∀ path', path' ≠ path → es.lookup path' = fs.lookup path')
    (hfiled : (∃ i, q.Source path i) ∧ (es.lookup path).isSome)
    (hphase : ∀ i name kind, q.Source path i → kind.claims →
      (q.Joins name kind i ↔ es.lookup path = some (some (name, kind)))) : q.FiledBy es where
  toSearchable := hq
  exists_iff path' := by
    by_cases hsame : path' = path
    · subst hsame
      exact iff_of_true hfiled.1 hfiled.2
    · simp only [hsource path' _ hsame, hlookup path' hsame, h.exists_iff]
  joins_iff i path' name kind hi hkind := by
    by_cases hsame : path' = path
    · subst hsame
      exact hphase i name kind hi hkind
    · have hi' := (hsource path' i hsame).1 hi
      rw [hjoins path' i name kind hsame hi' hkind, hlookup path' hsame]
      exact h.joins_iff i path' name kind hi' hkind

end Project

/-! ## What steps file -/

/-- A step that makes no source is orderly if it makes scripts in slots of builds only. -/
theorem Step.orderly_of_slot {q : Project} {s : Step} (hs : ∀ i path, s ≠ .attach i (.source path))
    (hslot : ∀ slot, s.slot? = some slot → IsBuildSlot slot) : s.Orderly q where
  source i path h := absurd h (hs i path)
  script _ _ slot _ h := hslot slot (h ▸ rfl)

theorem Step.Quiet.orderly {q : Project} {s : Step} (h : s.Quiet) : s.Orderly q := by
  refine Step.orderly_of_slot ?_ h.slot
  rintro i path rfl
  exact absurd h.quiet (by simp [isQuiet])

theorem Step.Quiet.not_files {s : Step} {name : String} {kind : PhaseKind} {file : ObjectId}
    (h : s.Quiet) (hkind : kind.claims) : ¬ s.Files name kind file := by
  rintro ⟨i, f, rfl, -, rfl, -⟩
  have hquiet := h.quiet
  simp [Step.isQuiet, hkind] at hquiet

/-! The steps of operations that file nothing. -/

section

open Project

variable {t : ObjectId} {q : Project} {s : Step} {owner : String}

theorem Step.quiet_of_isQuiet (h : s.isQuiet) (hslot : s.slot? = none) : s.Quiet := by
  refine ⟨h, fun slot hs => ?_⟩
  rw [hslot] at hs
  cases hs

theorem Step.quiet_of_listSteps (h : ListSteps t owner q s) : s.Quiet := by
  rcases h with ⟨-, ⟨platform, language, kind, name, rfl⟩ | ⟨l, rfl, -⟩⟩ <;>
    exact quiet_of_isQuiet rfl rfl

theorem Step.quiet_of_scriptSteps {slot : String} {script : Script} (hslot : IsBuildSlot slot)
    (h : ScriptSteps t owner slot script q s) : s.Quiet := by
  rcases h with rfl | ⟨j, rfl⟩ <;> refine ⟨rfl, ?_⟩ <;> rintro _ ⟨⟩ <;> exact hslot

theorem Step.quiet_of_stageSteps {stage : Stage} {scripts : List Script}
    (hstage : stage = .pre ∨ stage = .post) (h : StageSteps t owner stage 0 scripts q s) :
    s.Quiet := by
  obtain ⟨slot, script, ⟨k, -, rfl⟩, h⟩ := h
  exact quiet_of_scriptSteps (.inr ⟨stage, _, hstage, rfl⟩) h

theorem Step.quiet_of_settingsSteps {d : Target} {p : Project} (h : SettingsSteps d t p q s) :
    s.Quiet := by
  obtain ⟨i, c, -, rfl, -⟩ := h
  exact quiet_of_isQuiet rfl rfl

theorem Step.quiet_of_productSteps {path : String} (h : ProductSteps t path q s) : s.Quiet := by
  rcases h with ⟨type, rfl⟩ | ⟨f, -, rfl⟩ <;> exact quiet_of_isQuiet rfl rfl

theorem Step.quiet_of_fileSteps {kind : PhaseKind} {file : ObjectId} {settings : Option Settings}
    (hkind : ¬ kind.claims) (h : FileSteps t owner kind file settings q s) : s.Quiet := by
  rcases h with rfl | ⟨i, f, rfl, -, rfl, -⟩
  · exact quiet_of_isQuiet rfl rfl
  · exact quiet_of_isQuiet (by simp [isQuiet, hkind]) rfl

theorem Step.quiet_of_linkingSteps {names : List String} (h : LinkingSteps t owner names q s) :
    s.Quiet := by
  obtain ⟨n, -, f, -, h⟩ := h
  exact quiet_of_fileSteps (by decide) h

theorem Step.quiet_of_schemeSteps {names : List String} (h : SchemeSteps names q s) : s.Quiet := by
  rcases h with ⟨new, -, rfl⟩ | ⟨name, -, change, rfl⟩ <;> exact quiet_of_isQuiet rfl rfl

end

/-- A step leaves files as they are, and makes nothing else a file. -/
theorem Step.eq_file_of_reviseContent {s : Step} [IdScheme] {i : ObjectId} {c : Content}
    {f : FileReference} (h : s.reviseContent i c = .file f) : c = .file f := by
  cases s with
  | attach owner x =>
    simp only [reviseContent] at h
    split at h
    · cases x <;> cases c <;> first | exact h | cases h
    · exact h
  | configurationList | settings | product | script =>
    simp only [reviseContent] at h
    split at h
    · cases c <;> first | exact h | cases h
    · exact h
  | configuration | scheme | schemeChange => exact h

namespace Path

open Project

variable [IdScheme] {A : Project → Step → Prop} {p q : Project} {path : String} {fs : List Filing}

theorem searchable (hpq : Path A p q) (hA : ∀ r s, A r s → s.Orderly r) (h : p.Searchable) :
    q.Searchable where
  wellFormed := hpq.wellFormed h.wellFormed
  owned := hpq.owned h.wellFormed h.owned
  findable := (hpq.mono hA).findable h.wellFormed h.findable
  apart := hpq.apart h.wellFormed h.apart

/-- A source after steps that make no source of its path was one before. -/
theorem source_of_source {i : ObjectId} (hpq : Path A p q)
    (hA : ∀ r j, ¬ A r (.attach j (.source path))) (h : q.Source path i) : p.Source path i := by
  induction hpq with
  | refl => exact h
  | step _ due _ allowed ih =>
    rcases Step.content?_apply_cases h with ⟨c, hc, hrevised⟩ | ⟨c, hnew, -, hrevised⟩
    · exact ih (hc.trans (congrArg some (Step.eq_file_of_reviseContent hrevised.symm)))
    · obtain rfl := Step.eq_file_of_reviseContent hrevised.symm
      cases due with
      | source =>
        cases hnew
        exact absurd allowed (hA _ _)
      | _ => cases hnew

theorem source_iff {i : ObjectId} (hpq : Path A p q)
    (hA : ∀ r j, ¬ A r (.attach j (.source path))) : q.Source path i ↔ p.Source path i :=
  ⟨hpq.source_of_source hA, hpq.grows.file⟩

theorem source_iff_of_quiet {i : ObjectId} (hpq : Path A p q) (hA : ∀ r s, A r s → s.Quiet) :
    q.Source path i ↔ p.Source path i :=
  hpq.source_iff fun _ _ h => absurd (hA _ _ h).quiet (by simp [Step.isQuiet])

/-- Quiet steps file nothing. -/
theorem gains_of_quiet (hpq : Path A p q) (hA : ∀ r s, A r s → s.Quiet) : p.Gains q [] := by
  have hsource : ∀ path i, q.Source path i ↔ p.Source path i := fun path i =>
    hpq.source_iff_of_quiet hA
  refine ⟨fun fs hp => ?_, fun path i hi => .inl ((hsource path i).1 hi)⟩
  rw [List.append_nil]
  refine ⟨hpq.searchable (fun r s h => (hA r s h).orderly) hp.toSearchable, ?_, ?_⟩
  · intro path
    simp only [hsource, hp.exists_iff]
  · intro i path name kind hi hkind
    rw [hpq.joins_iff hp.wellFormed fun r s _ h => (hA r s h).not_files hkind]
    exact hp.joins_iff i path name kind ((hsource path i).1 hi) hkind

omit [IdScheme] in
theorem orderly_of_filingSteps {r : Project} {s : Step} (h : FilingSteps path r s) : s.Orderly r := by
  rcases h with ⟨i, above, name, rfl, -⟩ | ⟨i, rfl, hplace, habsent⟩
  · exact Step.Quiet.orderly ⟨rfl, by simp [Step.slot?]⟩
  · constructor
    · rintro j path' ⟨⟩
      exact ⟨hplace, habsent⟩
    · rintro j owner slot script ⟨⟩

omit [IdScheme] in
/-- The steps that file a path make no source but the one of the path. -/
theorem eq_of_filingSteps {r : Project} {path' : String} {i : ObjectId}
    (h : FilingSteps path r (.attach i (.source path'))) : path' = path := by
  rcases h with ⟨j, above, name, h, -⟩ | ⟨j, h, -⟩
  · cases h
  · cases h
    rfl

/-- Steps that file a path put it into no phase. -/
theorem gains_of_filingSteps (hpq : Path (FilingSteps path) p q) (hfiled : q.IsFiled path) :
    p.Gains q [(path, none)] := by
  have hsource : ∀ path' i, path' ≠ path → (q.Source path' i ↔ p.Source path' i) :=
    fun path' i hne => hpq.source_iff fun r j h => hne (eq_of_filingSteps h)
  refine ⟨fun fs hp => ?_, fun path' i hi => ?_⟩
  case refine_2 =>
    by_cases hsame : path' = path
    · exact .inr (by simp [hsame])
    · exact .inl ((hsource path' i hsame).1 hi)
  have hq := hpq.searchable (fun _ _ => orderly_of_filingSteps) hp.toSearchable
  have hjoins : ∀ name kind i, q.Joins name kind i ↔ p.Joins name kind i := by
    refine fun name kind i => hpq.joins_iff hp.wellFormed ?_
    rintro r s - (⟨k, above, name', rfl, -⟩ | ⟨k, rfl, -⟩) ⟨j, f, h, -⟩ <;> cases h
  refine hp.update hq path hsource (fun _ _ name kind _ _ _ => hjoins name kind _)
    (fun _ => Filing.lookup_append_of_ne) ⟨hq.isFiled_iff.1 hfiled, by simp [List.lookup_append]⟩ ?_
  · intro i name kind hi hkind
    rw [hjoins]
    by_cases hold : ∃ j, p.Source path j
    · rw [Filing.lookup_append_of_isSome ((hp.exists_iff path).1 hold)]
      obtain ⟨j, hj⟩ := hold
      rw [hq.wellFormed.source_unique hi (hpq.grows.file hj)]
      exact hp.joins_iff j path name kind hj hkind
    · -- What is new is in no phase.
      have hnone : fs.lookup path = none := by
        rwa [hp.exists_iff, Option.not_isSome_iff_eq_none] at hold
      rw [Filing.lookup_append_of_eq_none hnone]
      refine iff_of_false (fun h => hold ⟨i, ?_⟩) (by simp)
      obtain ⟨g, hg⟩ := h.exists_file hp.wellFormed
      have hsame := hpq.grows.file hg
      rw [hi] at hsame
      cases hsame
      exact hg

/-- Steps that put a new file into a phase of sources or resources complete its filing. -/
theorem filedBy_of_fileSteps {t f : ObjectId} {owner : String} {kind : PhaseKind}
    (hpq : Path (FileSteps t owner kind f none) p q) (hp : p.FiledBy (fs ++ [(path, none)]))
    (hnew : fs.lookup path = none) (hf : p.Source path f) (hjoins : q.Joins owner kind f) :
    q.FiledBy (fs ++ [(path, some (owner, kind))]) := by
  have hq := hpq.searchable (fun r s h => by
    rcases h with rfl | ⟨k, b, rfl, -⟩ <;>
      exact Step.orderly_of_slot (by simp) (by simp [Step.slot?])) hp.toSearchable
  have hsource : ∀ path' i, q.Source path' i ↔ p.Source path' i := by
    refine fun path' i => hpq.source_iff ?_
    rintro r j (h | ⟨k, b, h, -⟩) <;> cases h
  -- Only the file and the phase of the steps are concerned.
  have hleft : ∀ i name k, ¬ (i = f ∧ name = owner ∧ k = kind) →
      (q.Joins name k i ↔ p.Joins name k i) := by
    refine fun i name k hne => hpq.joins_iff hp.wellFormed ?_
    rintro r s - (rfl | ⟨j, b, rfl, rfl, rfl, rfl, -⟩) ⟨_, _, h, h₁, h₂, h₃⟩ <;> cases h
    exact hne ⟨h₃.symm, h₁.symm, h₂.symm⟩
  refine hp.update hq path (fun path' i _ => hsource path' i) ?_ ?_
    ⟨⟨f, (hsource path f).2 hf⟩, by simp [List.lookup_append]⟩ ?_
  · refine fun path' i name k hne hi _ => hleft i name k ?_
    rintro ⟨rfl, -⟩
    cases hi.symm.trans hf
    exact hne rfl
  · intro path' hne
    rw [Filing.lookup_append_of_ne hne, Filing.lookup_append_of_ne hne]
  · intro i name k hi hk
    obtain rfl := hp.wellFormed.source_unique ((hsource path i).1 hi) hf
    have hold := hp.joins_iff i path name k hf hk
    rw [Filing.lookup_append_of_eq_none hnew] at hold ⊢
    by_cases hplace : name = owner ∧ k = kind
    · obtain ⟨rfl, rfl⟩ := hplace
      exact iff_of_true hjoins rfl
    · rw [hleft i name k fun h => hplace h.2, hold]
      simpa [eq_comm] using hplace

end Path

end ProjectGraph
