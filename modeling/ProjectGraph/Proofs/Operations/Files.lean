import ProjectGraph.Proofs.Operations.Groups
import ProjectGraph.Proofs.Operations.Phases

/-! # Filing the files of a target -/

namespace ProjectGraph.Project

variable [IdScheme] {p q : Project} {t : ObjectId} {path : String}

/-- The file is in no phase, or only in a target's phase of this kind. -/
def Alone (p : Project) (owner : String) (kind : PhaseKind) (file : ObjectId) : Prop :=
  ∀ name k, p.Joins name k file → name = owner ∧ k = kind

/-- The steps that file paths and put each of them into a target's phase of a kind, if it is in no
other one. -/
def AddingSteps (t : ObjectId) (owner : String) (kind : PhaseKind) (q : Project) (s : Step) : Prop :=
  ∃ path, FilingSteps path q s ∨ ∃ file, FileSteps t owner kind file none q s ∧
    q.content? file = some (.file (.source path)) ∧ q.Alone owner kind file

/-- The steps that file a header and put it into a target's phase of headers. -/
def HeaderSteps (t : ObjectId) (owner path : String) (q : Project) (s : Step) : Prop :=
  FilingSteps path q s ∨ ∃ file, FileSteps t owner .headers file (some publicHeader) q s

/-- A new file is in no phase, and then only in those that it is put into. -/
theorem alone_of_path {owner : String} {kind : PhaseKind} {file : ObjectId} {r : Project}
    (hp : p.WellFormed) (hfree : p.content? file = none) (hpq : Path (FilingSteps path) p q)
    (hqr : Path (FileSteps t owner kind file none) q r) : r.Alone owner kind file := by
  intro name k hjoins
  by_cases hsame : name = owner ∧ k = kind
  · exact hsame
  · have hold : p.Joins name k file := by
      rw [hqr.joins_iff (hpq.wellFormed hp), hpq.joins_iff hp] at hjoins
      · exact hjoins
      · rintro r s - (⟨i, above, name, rfl, -⟩ | ⟨i, rfl, -⟩) ⟨_, _, h, -⟩ <;> cases h
      · rintro r s - (rfl | ⟨i, f, rfl, rfl, rfl, -⟩) ⟨j, g, h, rfl, rfl, -⟩
        · cases h
        · cases h
          exact hsame ⟨rfl, rfl⟩
    obtain ⟨g, hg⟩ := hold.exists_file hp
    rw [hfree] at hg
    cases hg

/-- The path is filed. -/
def IsFiled (p : Project) (path : String) : Prop := ∃ f, p.Filed path f

theorem IsFiled.grows {path : String} (hp : p.WellFormed) (h : p.IsFiled path) (hpq : p.Grows q) :
    q.IsFiled path := by
  obtain ⟨f, hf⟩ := h
  exact ⟨f, hf.grows hp hpq⟩

/-! ## Sources and resources -/

theorem addFile_of_isFiled {path : String} (hp : p.WellFormed) (h : p.IsFiled path)
    (kind : PhaseKind) : addFile t kind path p = .ok () p := by
  obtain ⟨f, i, g, hi, hg, hf⟩ := h
  have hgroup : groupOfFile path p = .ok i p := groupForPath_of_directoryGroup hi
  rw [addFile, bind_of_ok hgroup, bind_of_ok (findFileReference_eq hp hg path), hf]
  rfl

theorem performs_addFile (hp : p.WellFormed) {a : NativeTarget}
    (ha : p.content? t = some (.target a)) (kind : PhaseKind) (path : String) :
    Edit.Performs (AddingSteps t a.name kind) (addFile t kind path) p fun _ q => q.IsFiled path := by
  refine ((performs_groupOfFile p path).weaken fun _ _ h => ⟨path, .inl h⟩).bind fun i q hpq hi => ?_
  have hq := hpq.wellFormed hp
  obtain ⟨g, hg⟩ := hq.fileGroup hi
  refine .bind_read (findFileReference_eq hq hg path) ?_
  cases hf : q.first (Content.fileAt? path) g.children with
  | some f => exact .of_ok (a := ()) rfl ⟨f, i, g, hi, hg, hf⟩
  | none =>
    have hfile := performs_newFileReference_of_fileGroup hq hi hg hf
    refine (hfile.widen fun _ _ h => ⟨path, .inl h⟩).bind ?_
    rintro f q' hqq' ⟨hfiling, hfiled, hsource, hfree⟩
    have hq' := hqq'.wellFormed hq
    obtain ⟨b, hb, hname, -⟩ := (hpq.trans hqq').grows.target ha
    rw [← hname]
    have hregistered := hfiled.content?
    rw [hsource] at hregistered
    have hadd := performs_addFileToPhase hq' hb kind hfiled.content? none
    refine (hadd.restrict fun r s hpath _ h => ⟨path, .inr ⟨f.id, h, ?_, ?_⟩⟩).mono
      (fun _ _ h => h) fun _ q'' hpath _ => ⟨f, hfiled.grows hq' hpath.grows⟩
    · exact hpath.grows.file hregistered
    · exact alone_of_path hq hfree hfiling hpath

theorem addFiles_of_isFiled {paths : List (List String)} (hp : p.WellFormed)
    (h : ∀ ps ∈ paths, ∀ path ∈ ps, p.IsFiled path) (kind : PhaseKind) :
    addFiles t kind paths p = .ok () p :=
  forM_of_ok fun ps hps => forM_of_ok fun path hpath => addFile_of_isFiled hp (h ps hps path hpath) kind

theorem performs_forM_addFile (hp : p.WellFormed) {a : NativeTarget}
    (ha : p.content? t = some (.target a)) (kind : PhaseKind) (paths : List String) :
    Edit.Performs (AddingSteps t a.name kind) (paths.forM (addFile t kind)) p
      fun _ q => ∀ path ∈ paths, q.IsFiled path := by
  refine .forM (K := fun path (q : Project) => q.IsFiled path) ?_ ?_
  · intro path _ q hpq
    obtain ⟨b, hb, hname, -⟩ := hpq.grows.target ha
    rw [← hname]
    exact performs_addFile (hpq.wellFormed hp) hb kind path
  · exact fun path q q' hpq h hpath => h.grows (hpq.wellFormed hp) hpath.grows

theorem performs_addFiles (hp : p.WellFormed) {a : NativeTarget}
    (ha : p.content? t = some (.target a)) (kind : PhaseKind) (paths : List (List String)) :
    Edit.Performs (AddingSteps t a.name kind) (addFiles t kind paths) p
      fun _ q => ∀ ps ∈ paths, ∀ path ∈ ps, q.IsFiled path := by
  refine .forM (K := fun ps (q : Project) => ∀ path ∈ ps, q.IsFiled path) ?_ ?_
  · intro ps _ q hpq
    obtain ⟨b, hb, hname, -⟩ := hpq.grows.target ha
    rw [← hname]
    exact performs_forM_addFile (hpq.wellFormed hp) hb kind ps
  · exact fun ps q q' hpq h hpath path hmem => (h path hmem).grows (hpq.wellFormed hp) hpath.grows

/-! ## The information property list and the header -/

theorem addInfoPlist_of_isFiled {path : String} (hp : p.WellFormed) (h : p.IsFiled path) :
    addInfoPlist path p = .ok () p := by
  obtain ⟨f, hf⟩ := h
  exact discard_of_ok (fileReferenceFor_of_filed hp hf)

theorem performs_addInfoPlist (hp : p.WellFormed) (path : String) :
    Edit.Performs (FilingSteps path) (addInfoPlist path) p fun _ q => q.IsFiled path :=
  (performs_fileReferenceFor hp path).discard

/-- The header is filed, and the target's phase of headers holds it. -/
def HasHeader (p : Project) (t : ObjectId) (path : String) : Prop :=
  ∃ f, p.Filed path f ∧ p.Holds t .headers f.id

theorem HasHeader.grows {path : String} (hp : p.WellFormed) (h : p.HasHeader t path)
    (hpq : p.Grows q) : q.HasHeader t path := by
  obtain ⟨f, hf, hholds⟩ := h
  exact ⟨f, hf.grows hp hpq, hholds.grows hp hpq⟩

theorem addFrameworkHeader_of_hasHeader {header : Option String} (hp : p.WellFormed)
    (h : ∀ path, header = some path → p.HasHeader t path) :
    addFrameworkHeader t header p = .ok () p := by
  cases header with
  | none => rfl
  | some path =>
    obtain ⟨f, hf, hholds⟩ := h path rfl
    rw [addFrameworkHeader, bind_of_ok (fileReferenceFor_of_filed hp hf)]
    exact addFileToPhase_of_holds hp hholds _

theorem performs_addFrameworkHeader (hp : p.WellFormed) {a : NativeTarget}
    (ha : p.content? t = some (.target a)) (header : Option String) :
    Edit.Performs (fun q s => ∃ path, header = some path ∧ HeaderSteps t a.name path q s)
      (addFrameworkHeader t header) p
      fun _ q => ∀ path, header = some path → q.HasHeader t path := by
  cases header with
  | none => exact .of_ok (a := ()) rfl (by simp)
  | some path =>
    refine ((performs_fileReferenceFor hp path).weaken fun _ _ h => ⟨path, rfl, .inl h⟩).bind ?_
    intro f q hpq hf
    have hq := hpq.wellFormed hp
    obtain ⟨b, hb, hname, -⟩ := hpq.grows.target ha
    refine (performs_addFileToPhase hq hb .headers hf.content? (some publicHeader)).mono ?_ ?_
    · exact fun _ _ h => ⟨path, rfl, .inr ⟨f.id, hname ▸ h⟩⟩
    · rintro _ q' hpath hholds path' ⟨⟩
      exact ⟨f, hf.grows hq hpath.grows, hholds⟩

end ProjectGraph.Project
