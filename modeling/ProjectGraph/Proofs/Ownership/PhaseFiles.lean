import ProjectGraph.Proofs.Ownership.Unique

/-! # The files in the phases of a target

What a phase of files holds only gets longer, by one file at a time, and each file comes in once. -/

namespace ProjectGraph

namespace Project

variable {p q : Project} {t : ObjectId} {kind : PhaseKind} {file : ObjectId}
  {x : Identified BuildPhase}

/-- The files that references to build files lead to. -/
def filesAt (p : Project) (rs : List Reference) : List ObjectId :=
  rs.filterMap fun r => ((p.content? r.id).bind Content.buildFile?).map fun f => f.file.id

/-- The files in the target's phase of a kind, in order. Without the phase there are none. -/
def filesIn (p : Project) (t : ObjectId) (kind : PhaseKind) : List ObjectId :=
  match (p.content? t).bind Content.target? with
  | some a =>
    match p.first (Content.phaseAt? (.inl kind)) a.buildPhases with
    | some x => p.filesAt x.content.files
    | none => []
  | none => []

theorem filesAt_append (rs rs' : List Reference) :
    p.filesAt (rs ++ rs') = p.filesAt rs ++ p.filesAt rs' :=
  List.filterMap_append

theorem filesAt_singleton {r : Reference} {f : BuildFile} (h : p.content? r.id = some (.buildFile f)) :
    p.filesAt [r] = [f.file.id] := by
  simp [filesAt, h, Content.buildFile?]

theorem filesIn_of_phaseIn (h : p.PhaseIn t (.inl kind) x) :
    p.filesIn t kind = p.filesAt x.content.files := by
  obtain ⟨a, ha, hx⟩ := h
  simp only [filesIn, ha, Option.bind_some, Content.target?, hx]

theorem filesIn_of_not_hasPhase (h : ¬ p.HasPhase t kind) : p.filesIn t kind = [] := by
  unfold filesIn
  split
  · next a ha =>
    split
    · next x hx =>
      exact absurd ⟨x, a, content?_of_target? ha, hx⟩ h
    · rfl
  · rfl

theorem mem_filesAt {rs : List Reference} :
    file ∈ p.filesAt rs ↔ ∃ r ∈ rs, ∃ f, p.content? r.id = some (.buildFile f) ∧ f.file.id = file := by
  simp only [filesAt, List.mem_filterMap, Option.map_eq_some_iff, Option.bind_eq_some_iff]
  constructor
  · rintro ⟨r, hr, f, ⟨c, hc, hview⟩, hid⟩
    cases c <;> cases hview
    exact ⟨r, hr, f, hc, hid⟩
  · rintro ⟨r, hr, f, hf, hid⟩
    exact ⟨r, hr, f, ⟨_, hf, rfl⟩, hid⟩

theorem holds_iff : p.Holds t kind file ↔ file ∈ p.filesIn t kind := by
  constructor
  · rintro ⟨x, f, hx, hf⟩
    obtain ⟨r, hr, -, c, hc, hview⟩ := exists_of_first hf
    obtain ⟨rfl, hid⟩ := Content.buildFileOf?_eq_some.1 hview
    rw [filesIn_of_phaseIn hx]
    exact mem_filesAt.2 ⟨r, hr, _, hc, hid⟩
  · intro h
    by_cases hphase : p.HasPhase t kind
    · obtain ⟨x, hx⟩ := hphase
      rw [filesIn_of_phaseIn hx] at h
      obtain ⟨r, hr, f, hf, hid⟩ := mem_filesAt.1 h
      obtain ⟨y, hy⟩ := first_of_mem hr hf (Content.buildFileOf?_eq_some.2 ⟨rfl, hid⟩)
      exact ⟨x, y, hx, hy⟩
    · rw [filesIn_of_not_hasPhase hphase] at h
      cases h

/-- What build files lead to stays the same. -/
theorem filesAt_of_grows {rs : List Reference} (hpq : p.Grows q)
    (h : ∀ r ∈ rs, ∃ f, p.content? r.id = some (.buildFile f)) : q.filesAt rs = p.filesAt rs := by
  apply List.filterMap_congr
  intro r hr
  obtain ⟨f, hf⟩ := h r hr
  rw [hf, hpq.buildFile hf]

end Project

/-! ## After a step -/

namespace Project

/-- A phase is given to a target that does not have it. -/
theorem not_hasPhase_of_due {name : String}
    (hd : (Step.attach t (.phase name (.files kind))).Due p) : ¬ p.HasPhase t kind := by
  rintro ⟨x, hx⟩
  obtain ⟨b, hb, r, hr, hid⟩ := hx.exists_mem
  obtain ⟨hphase, hplace⟩ := hx.content?
  cases hd with
  | phase target absent =>
    rw [target] at hb
    cases hb
    exact absent r hr _ (hid ▸ hphase) hplace

/-- A target that gets a phase has it then. -/
theorem hasPhase_attached [IdScheme] {a : NativeTarget} (hp : p.WellFormed) (ho : p.Owned)
    (ha : p.content? t = some (.target a))
    (hd : (Step.attach t (.phase a.name (.files kind))).Due p)
    (hf : (Step.attach t (.phase a.name (.files kind))).Fresh p) :
    ((Step.attach t (.phase a.name (.files kind))).apply p).content? t = some (.target { a with
      buildPhases := a.buildPhases ++ [Part.reference (.phase a.name (.files kind))] }) ∧
    ((Step.attach t (.phase a.name (.files kind))).apply p).HasPhase t kind := by
  have hnew : ((Step.attach t (.phase a.name (.files kind))).apply p).content?
      (Part.phase a.name (.files kind)).content.id = some (Part.phase a.name (.files kind)).content :=
    Step.content?_apply_new hp hd hf rfl
  have htarget : ((Step.attach t (.phase a.name (.files kind))).apply p).content? t =
      some (.target { a with
        buildPhases := a.buildPhases ++ [Part.reference (.phase a.name (.files kind))] }) := by
    rw [Step.content?_apply_of_some ha, Step.reviseContent, if_pos rfl]
    rfl
  exact ⟨htarget, _, (Step.owned_apply hp ho hd hf).phaseIn (Step.wellFormed_apply hp hd hf) htarget
    hnew rfl⟩

end Project

namespace Step

open Project

variable [IdScheme] {p : Project} {s : Step} {t : ObjectId} {kind : PhaseKind}

/-- A step leaves the files of a phase, or puts a build file at their end. -/
theorem files_reviseContent {i : ObjectId} {a b : BuildPhase}
    (h : s.reviseContent i (.phase a) = .phase b) :
    b.files = a.files ∨ ∃ f, s = .attach i (.buildFile f) ∧
      b.files = a.files ++ [Part.reference (.buildFile f)] := by
  cases s with
  | attach owner x =>
    simp only [reviseContent] at h
    split at h
    · next howner =>
      cases x with
      | buildFile f =>
        cases h
        exact .inr ⟨f, howner ▸ rfl, rfl⟩
      | _ =>
        cases h
        exact .inl rfl
    · cases h
      exact .inl rfl
  | configurationList | settings | product | script =>
    simp only [reviseContent] at h
    split at h <;> cases h <;> exact .inl rfl
  | configuration | scheme | schemeChange =>
    cases h
    exact .inl rfl

/-- A phase that a target has got in a step is new and empty. -/
theorem files_of_not_hasPhase {y : Identified BuildPhase} (hp : p.WellFormed) (ho : p.Owned)
    (hd : s.Due p) (hf : s.Fresh p) (h : ¬ p.HasPhase t kind)
    (hy : (s.apply p).PhaseIn t (.inl kind) y) : y.content.files = [] := by
  obtain ⟨hphase, hplace⟩ := hy.content?
  obtain ⟨b, hb, r, hr, -⟩ := hy.exists_mem
  rcases content?_apply_grows hp hd hf hphase with ⟨c, hc, hgrow⟩ | ⟨hnew, -⟩
  · -- The phase has been one of the target before.
    cases hgrow with
    | @phase a _ htarget hsame =>
      rw [hy.target (wellFormed_apply hp hd hf) hb] at htarget
      rcases content?_apply_grows hp hd hf hb with ⟨c', hc', hgrow'⟩ | ⟨hnew, -⟩
      · cases hgrow' with
        | @target a' _ hname =>
          have hin := ho.phaseIn hp hc' hc (htarget.symm.trans hname)
          rw [← hsame, hplace] at hin
          exact absurd ⟨_, hin⟩ h
      · cases hd with
        | target =>
          cases hnew
          cases hr
        | _ => cases hnew
  · cases hd with
    | phase =>
      injection Option.some.inj hnew with hnew
      rw [← hnew]
    | _ => cases hnew

/-- A step leaves the files in a phase, or puts a new one at their end. -/
theorem filesIn_apply (hp : p.WellFormed) (ho : p.Owned) (hd : s.Due p) (hf : s.Fresh p)
    (t : ObjectId) (kind : PhaseKind) :
    (s.apply p).filesIn t kind = p.filesIn t kind ∨
      ∃ i f, s = .attach i (.buildFile f) ∧ f.file.id ∉ p.filesIn t kind ∧
        (s.apply p).filesIn t kind = p.filesIn t kind ++ [f.file.id] := by
  by_cases hphase : p.HasPhase t kind
  · obtain ⟨x, hx⟩ := hphase
    obtain ⟨hcontent, -⟩ := hx.content?
    obtain ⟨y, hy, hid, -⟩ := hx.grows hp (grows_apply hd)
    have hrevised := hy.content?.1
    rw [hid, content?_apply_of_some hcontent] at hrevised
    have hold := filesAt_of_grows (grows_apply hd) fun r hr => hp.buildFile_of_mem hcontent hr
    rw [filesIn_of_phaseIn hx, filesIn_of_phaseIn hy]
    rcases files_reviseContent (Option.some.inj hrevised) with hsame | ⟨f, rfl, hmore⟩
    · exact .inl (by rw [hsame, hold])
    · have hnew : ((Step.attach x.id (.buildFile f)).apply p).content?
          (Part.reference (.buildFile f)).id = some (.buildFile f) := content?_apply_new hp hd hf rfl
      refine .inr ⟨x.id, f, rfl, ?_, ?_⟩
      · intro hmem
        obtain ⟨r, hr, g, hg, hsame⟩ := mem_filesAt.1 hmem
        cases hd with
        | buildFile phase role target file absent =>
          rw [hcontent] at phase
          cases phase
          exact absent r hr g hg hsame
      · rw [hmore, filesAt_append, hold, filesAt_singleton hnew]
  · left
    rw [filesIn_of_not_hasPhase hphase]
    by_cases hafter : (s.apply p).HasPhase t kind
    · obtain ⟨y, hy⟩ := hafter
      rw [filesIn_of_phaseIn hy, files_of_not_hasPhase hp ho hd hf hphase hy]
      rfl
    · exact filesIn_of_not_hasPhase hafter

end Step

/-- A path that puts one file into phases adds it to the files in a phase that holds it in the end. -/
theorem Path.filesIn_of_fileSteps [IdScheme] {p q : Project} {t : ObjectId} {owner : String}
    {kind : PhaseKind} {file : ObjectId} {settings : Option Settings}
    (hpq : Path (Project.FileSteps t owner kind file settings) p q) (hp : p.WellFormed)
    (ho : p.Owned) (hholds : q.Holds t kind file) :
    q.filesIn t kind = if file ∈ p.filesIn t kind then p.filesIn t kind
      else p.filesIn t kind ++ [file] := by
  have hcases : q.filesIn t kind = p.filesIn t kind ∨
      file ∉ p.filesIn t kind ∧ q.filesIn t kind = p.filesIn t kind ++ [file] := by
    clear hholds
    induction hpq with
    | refl => exact .inl rfl
    | @step q s path due fresh allowed ih =>
      rcases Step.filesIn_apply (path.wellFormed hp) (path.owned hp ho) due fresh t kind with
        hsame | ⟨i, f, rfl, hfree, hmore⟩
      · rwa [hsame]
      · obtain rfl : f.file.id = file := by
          rcases allowed with h | ⟨j, g, h, -, -, hid, -⟩ <;> cases h
          exact hid
        rcases ih with ih | ⟨-, ih⟩
        · rw [ih] at hfree hmore
          exact .inr ⟨hfree, hmore⟩
        · rw [ih] at hfree
          simp at hfree
  rw [Project.holds_iff] at hholds
  rcases hcases with h | ⟨hfree, h⟩
  · rw [if_pos (h ▸ hholds), h]
  · rw [if_neg hfree, h]

end ProjectGraph
