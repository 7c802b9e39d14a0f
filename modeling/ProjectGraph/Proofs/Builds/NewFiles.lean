import ProjectGraph.Proofs.Builds.Filed
import ProjectGraph.Proofs.Ownership.PhaseFiles
import ProjectGraph.Proofs.Ownership.Shared

/-! # Filing new files

Where files are found where they are looked for, a path is skipped if the project has a source with it
anywhere. What is left of a list of paths comes to the end of a phase, and each of them to the end of the
group of its directory, once and in order. -/

namespace ProjectGraph

/-- The path of the source that a part is. -/
def Part.source? : Part → Option String
  | source path => some path
  | _ => none

namespace Path

open Project

variable [IdScheme] {A : Project → Step → Prop} {p q : Project}

/-- Without a new build file phases hold what they have held. -/
theorem filesIn_eq (hpq : Path A p q) (hp : p.WellFormed) (ho : p.Owned)
    (hA : ∀ r i f, ¬ A r (.attach i (.buildFile f))) (t : ObjectId) (kind : PhaseKind) :
    q.filesIn t kind = p.filesIn t kind := by
  induction hpq with
  | refl => rfl
  | step path due fresh allowed ih =>
    rcases Step.filesIn_apply (path.wellFormed hp) (path.owned hp ho) due fresh t kind with
      hsame | ⟨i, f, rfl, -⟩
    · rw [hsame, ih]
    · exact absurd allowed (hA _ i f)

/-- A group only gets children from steps that attach them, in the order of the steps. -/
theorem exists_parts (hpq : Path A p q) (hp : p.WellFormed) (j : ObjectId) :
    ∃ parts : List Part, q.childrenOf j = p.childrenOf j ++ parts.map Part.reference ∧
      ∀ x ∈ parts, x.home = .child ∧
        ∃ r, p.Grows r ∧ (Step.attach j x).Due r ∧ A r (.attach j x) := by
  induction hpq with
  | refl => exact ⟨[], (List.append_nil _).symm, by simp⟩
  | @step q s path due fresh allowed ih =>
    obtain ⟨parts, hparts, hsteps⟩ := ih
    have hchildren := Step.childrenOf_apply (path.wellFormed hp) due fresh j
    by_cases hchild : ∃ x, s = .attach j x ∧ x.home = .child
    · obtain ⟨x, rfl, hx⟩ := hchild
      refine ⟨parts ++ [x], ?_, ?_⟩
      · rw [hchildren, hparts, Step.newChildren, if_pos ⟨rfl, hx⟩, List.map_append, List.append_assoc]
        rfl
      · intro y hy
        rcases List.mem_append.1 hy with hy | hy
        · exact hsteps y hy
        · rw [List.mem_singleton.1 hy]
          exact ⟨hx, q, path.grows, due, allowed⟩
    · have hnone : s.newChildren j = [] := by
        cases s with
        | attach owner x =>
          refine if_neg ?_
          rintro ⟨rfl, hx⟩
          exact hchild ⟨x, rfl, hx⟩
        | _ => rfl
      exact ⟨parts, by rw [hchildren, hnone, List.append_nil, hparts], hsteps⟩

end Path

namespace Project

/-- Is a source of this path registered anywhere? -/
def hasSource (p : Project) (path : String) : Bool :=
  p.objects.any fun o => o.content = .file (.source path)

/-- The paths without a source, each of them once, in order. -/
def newPaths (p : Project) (paths : List String) : List String :=
  (paths.filter fun path => !p.hasSource path).eraseDups

/-- The paths of the files in the target's phase of a kind, in order. -/
def pathsIn (p : Project) (t : ObjectId) (kind : PhaseKind) : List String :=
  (p.filesIn t kind).filterMap fun i => ((p.content? i).bind Content.file?).map FileReference.path

/-- The id of the source of a path. -/
def sourceId [IdScheme] (path : String) : ObjectId := (Part.source path).content.id

variable [IdScheme] {p q r : Project} {t : ObjectId} {a : NativeTarget} {kind : PhaseKind}
  {path : String} {paths : List String}

theorem hasSource_iff (hp : p.WellFormed) : p.hasSource path ↔ ∃ i, p.Source path i := by
  simp only [hasSource, List.any_eq_true, decide_eq_true_eq]
  constructor
  · rintro ⟨o, ho, hcontent⟩
    exact ⟨o.id, (content?_of_mem hp.nodup_ids ho).trans (congrArg some hcontent)⟩
  · rintro ⟨i, hi⟩
    obtain ⟨o, ho, -, hcontent⟩ := exists_mem_of_content? hi
    exact ⟨o, ho, hcontent⟩

/-- What a phase holds is registered. -/
theorem exists_file_of_mem_filesIn {i : ObjectId} (hp : p.WellFormed) (hi : i ∈ p.filesIn t kind) :
    ∃ f, p.content? i = some (.file f) := by
  obtain ⟨x, f, -, hf⟩ := holds_iff.2 hi
  obtain ⟨r, -, -, c, hc, hview⟩ := exists_of_first hf
  obtain ⟨rfl, rfl⟩ := Content.buildFileOf?_eq_some.1 hview
  exact hp.file_of_buildFile hc

/-! ## What is new -/

omit [IdScheme] in
theorem newPaths_cons_of_hasSource (h : p.hasSource path) :
    p.newPaths (path :: paths) = p.newPaths paths := by
  rw [newPaths, List.filter_cons_of_neg (by simp [h])]
  rfl

omit [IdScheme] in
/-- A path that is new is not new any more once it has a source. -/
theorem newPaths_cons (h : p.hasSource path = false)
    (hq : ∀ path', q.hasSource path' = (p.hasSource path' || path' = path)) :
    p.newPaths (path :: paths) = path :: q.newPaths paths := by
  unfold newPaths
  rw [List.filter_cons_of_pos (by simp [h]), List.eraseDups_cons, List.filter_filter]
  congr 2
  refine List.filter_congr fun path' _ => ?_
  rw [hq, Bool.not_or, Bool.and_comm]
  rfl

/-! ## What filing does -/

omit [IdScheme] in
theorem fileGroup_of_grows {i : ObjectId} (h : p.fileGroup path = some i) (hpq : p.Grows q) :
    q.fileGroup path = some i :=
  directoryGroup_of_grows h hpq

/-- From the first project to the second one the files with these paths have been made and put into the
target's phase of a kind, in order. -/
structure FilesNew (p q : Project) (t : ObjectId) (kind : PhaseKind) (paths : List String) : Prop where
  /-- None of them has had a source, and now they have one each. -/
  sources : ∀ path i, q.Source path i ↔ p.Source path i ∨ path ∈ paths ∧ i = sourceId path
  new : ∀ path ∈ paths, ∀ i, ¬ p.Source path i
  files : q.filesIn t kind = p.filesIn t kind ++ paths.map sourceId
  hasPhase : q.HasPhase t kind ↔ p.HasPhase t kind ∨ paths ≠ []
  /-- What has been filed is in the phases in which it was before. -/
  joins : ∀ i, p.content? i ≠ none → ∀ name k, q.Joins name k i ↔ p.Joins name k i
  /-- To the end of a group come the files of its directory, in order, and groups that were missing. -/
  children : ∀ j, ∃ parts : List Part, q.childrenOf j = p.childrenOf j ++ parts.map Part.reference ∧
    parts.filterMap Part.source? = (paths.filter fun path => q.fileGroup path = some j) ∧
    ∀ x ∈ parts, (∃ path, x = .source path) ∨
      ∃ above name, x = .group above name ∧ p.groupAt (above ++ [name]) = none
  groups : ∀ path ∈ paths, (q.fileGroup path).isSome

namespace FilesNew

theorem refl (p : Project) (t : ObjectId) (kind : PhaseKind) : p.FilesNew p t kind [] where
  sources path i := by simp
  new := by simp
  files := (List.append_nil _).symm
  hasPhase := by simp
  joins _ _ _ _ := Iff.rfl
  children j := ⟨[], (List.append_nil _).symm, rfl, by simp⟩
  groups := by simp

theorem trans {more : List String} (h : p.FilesNew q t kind paths) (h' : q.FilesNew r t kind more)
    (hpq : p.Grows q) (hqr : q.Grows r) : p.FilesNew r t kind (paths ++ more) where
  sources path i := by
    rw [h'.sources, h.sources, List.mem_append, or_and_right, or_assoc]
  new path hpath i hi := by
    rcases List.mem_append.1 hpath with hpath | hpath
    · exact h.new path hpath i hi
    · exact h'.new path hpath i (hpq.file hi)
  files := by rw [h'.files, h.files, List.map_append, List.append_assoc]
  hasPhase := by
    rw [h'.hasPhase, h.hasPhase, or_assoc]
    simp [or_iff_not_imp_left]
  joins i hi name k := by
    obtain ⟨c, hc⟩ := Option.ne_none_iff_exists'.1 hi
    obtain ⟨d, hd, -⟩ := hpq.content i c hc
    rw [h'.joins i (by simp [hd]), h.joins i hi]
  children j := by
    obtain ⟨parts, hparts, hsources, hcases⟩ := h.children j
    obtain ⟨parts', hparts', hsources', hcases'⟩ := h'.children j
    refine ⟨parts ++ parts', ?_, ?_, ?_⟩
    · rw [hparts', hparts, List.map_append, List.append_assoc]
    · rw [List.filterMap_append, List.filter_append, hsources, hsources']
      -- The groups of the first files stay what they are.
      refine congrArg (· ++ _) (List.filter_congr fun path hpath => ?_)
      obtain ⟨k, hk⟩ := Option.isSome_iff_exists.1 (h.groups path hpath)
      rw [hk, fileGroup_of_grows hk hqr]
    · intro x hx
      rcases List.mem_append.1 hx with hx | hx
      · exact hcases x hx
      · refine (hcases' x hx).imp_right ?_
        rintro ⟨above, name, rfl, hnone⟩
        refine ⟨above, name, rfl, Option.eq_none_iff_forall_ne_some.2 fun i hi => ?_⟩
        rw [hpq.groupAt hi] at hnone
        cases hnone
  groups path hpath := by
    rcases List.mem_append.1 hpath with hpath | hpath
    · obtain ⟨k, hk⟩ := Option.isSome_iff_exists.1 (h.groups path hpath)
      exact Option.isSome_iff_exists.2 ⟨k, fileGroup_of_grows hk hqr⟩
    · exact h'.groups path hpath

end FilesNew

/-- The paths come to the end of those in the phase. -/
theorem FilesNew.pathsIn_eq (h : p.FilesNew q t kind paths) (hp : p.WellFormed) (hpq : p.Grows q) :
    q.pathsIn t kind = p.pathsIn t kind ++ paths := by
  rw [pathsIn, h.files, List.filterMap_append]
  congr 1
  · refine List.filterMap_congr fun i hi => ?_
    obtain ⟨f, hf⟩ := exists_file_of_mem_filesIn hp hi
    rw [hf, hpq.file hf]
  · rw [List.filterMap_map]
    refine (List.filterMap_congr fun path hpath => ?_).trans List.filterMap_some
    have hsource : q.Source path (sourceId path) := (h.sources path _).2 (.inr ⟨hpath, rfl⟩)
    rw [Function.comp_apply, hsource]
    rfl

/-! ## One path -/

/-- A new file goes to the end of its group, unless its id is taken. -/
theorem newFileReference_eq {i : ObjectId} {f : Identified FileReference}
    (h : newFileReference i path p = .ok f q) :
    f = ⟨sourceId path, .source path⟩ ∧ q = (Step.attach i (.source path)).apply p ∧
      (Step.attach i (.source path)).Fresh p := by
  by_cases hfree : p.content? (Content.file (.source path)).id = none
  · have hnew : newFileReference i path p =
        .ok ⟨sourceId path, .source path⟩ ((Step.attach i (.source path)).apply p) :=
      bind_of_ok (register_of_free hfree)
    rw [hnew] at h
    cases h
    refine ⟨rfl, rfl, ?_⟩
    rintro c ⟨⟩
    exact hfree
  · have hnew := bind_of_error (f := fun id => do
      addChild i ⟨id, some (FileReference.source path).name⟩
      return (⟨id, .source path⟩ : Identified FileReference)) (register_of_taken hfree)
    rw [newFileReference, hnew] at h
    cases h

/-- From the first project to the last one a path without a source has been filed: the groups of its
directory have been made, then the source in the last one of them, and then its build file. -/
structure FilesOne (p p₁ q : Project) (t i : ObjectId) (owner : String) (kind : PhaseKind)
    (path : String) : Prop where
  searchable : p.Searchable
  searchable₁ : p₁.Searchable
  groups : Path (DirectorySteps (Text.directoryOf path)) p p₁
  group : p₁.fileGroup path = some i
  due : (Step.attach i (.source path)).Due p₁
  fresh : (Step.attach i (.source path)).Fresh p₁
  steps : Path (FileSteps t owner kind (sourceId path) none) ((Step.attach i (.source path)).apply p₁) q
  holds : q.Holds t kind (sourceId path)

/-- A path without a source gets one, in the group of its directory. -/
theorem exists_filesOne_of_addFile (hs : p.Searchable) (ha : p.content? t = some (.target a))
    (hnew : ∀ i, ¬ p.Source path i) (h : addFile t kind path p = .ok () q) :
    ∃ p₁ i, p.FilesOne p₁ q t i a.name kind path := by
  obtain ⟨i, p₁, hgroup, h⟩ := exists_of_bind_eq_ok h
  obtain ⟨h₁, hi⟩ := Leads.of_ok (performs_groupForPath p (Text.directoryOf path)) hgroup
  have hs₁ := h₁.searchable (fun r s h => Path.orderly_of_filingSteps (.inl h : FilingSteps path r s)) hs
  have hp₁ := hs₁.wellFormed
  have hsource₁ : ∀ j, p₁.Source path j → p.Source path j := by
    refine fun j => h₁.source_of_source ?_
    rintro r k ⟨_, _, _, h, -⟩
    cases h
  obtain ⟨g, hg⟩ := hp₁.fileGroup hi
  obtain ⟨found, p₁', hfind, h⟩ := exists_of_bind_eq_ok h
  rw [findFileReference_eq hp₁ hg path] at hfind
  cases hfind
  cases hfirst : p₁.first (Content.fileAt? path) g.children with
  | some f => exact absurd (hsource₁ f.id (hs₁.source ⟨i, g, hi, hg, hfirst⟩)) (hnew f.id)
  | none =>
    rw [hfirst] at h
    obtain ⟨f, p₂, hfile, hadd⟩ := exists_of_bind_eq_ok h
    obtain ⟨rfl, rfl, hfresh⟩ := newFileReference_eq hfile
    have hdue : (Step.attach i (.source path)).Due p₁ := .source hg
    have hp₂ := Step.wellFormed_apply hp₁ hdue hfresh
    obtain ⟨a₂, ha₂, hname, -⟩ := (h₁.grows.trans (Step.grows_apply hdue)).target ha
    let source : Identified FileReference := ⟨sourceId path, .source path⟩
    have hsource₂ : ((Step.attach i (.source path)).apply p₁).content? source.id =
        some (.file source.content) := Step.content?_apply_new hp₁ hdue hfresh rfl
    obtain ⟨h₃, hholds⟩ := Leads.of_ok (performs_addFileToPhase hp₂ ha₂ kind hsource₂ none) hadd
    rw [hname] at h₃
    exact ⟨p₁, i, hs, hs₁, h₁, hi, hdue, hfresh, h₃, hholds⟩

namespace FilesOne

variable {p₁ : Project} {i : ObjectId} {owner : String}

theorem wellFormed₂ (h : p.FilesOne p₁ q t i owner kind path) :
    ((Step.attach i (.source path)).apply p₁).WellFormed :=
  Step.wellFormed_apply h.searchable₁.wellFormed h.due h.fresh

/-- The step that makes the source is a path of its own. -/
theorem path₂ (h : p.FilesOne p₁ q t i owner kind path) :
    Path (fun _ s => s = .attach i (.source path)) p₁ ((Step.attach i (.source path)).apply p₁) :=
  .single h.due h.fresh rfl

/-- The id of the source is free until the source is made. -/
theorem content?_sourceId (h : p.FilesOne p₁ q t i owner kind path) :
    p₁.content? (sourceId path) = none :=
  h.fresh _ rfl

theorem fileGroup (h : p.FilesOne p₁ q t i owner kind path) : q.fileGroup path = some i :=
  fileGroup_of_grows h.group ((Step.grows_apply h.due).trans h.steps.grows)

theorem source_iff (h : p.FilesOne p₁ q t i owner kind path) (path' : String) (j : ObjectId) :
    q.Source path' j ↔ p.Source path' j ∨ path' = path ∧ j = sourceId path' := by
  have hsource₁ : p₁.Source path' j ↔ p.Source path' j := by
    refine h.groups.source_iff ?_
    rintro r k ⟨_, _, _, h, -⟩
    cases h
  have hsource₃ : q.Source path' j ↔ ((Step.attach i (.source path)).apply p₁).Source path' j := by
    refine h.steps.source_iff ?_
    rintro r k (h | ⟨_, _, h, -⟩) <;> cases h
  rw [hsource₃, ← hsource₁]
  constructor
  · intro hj
    rcases Step.content?_apply_grows h.searchable₁.wellFormed h.due h.fresh hj with
      ⟨c, hc, hgrow⟩ | ⟨hmade, hid⟩
    · cases hgrow
      exact .inl hc
    · cases hmade
      exact .inr ⟨rfl, hid.symm⟩
  · rintro (hj | ⟨rfl, rfl⟩)
    · exact (Step.grows_apply h.due).file hj
    · exact Step.content?_apply_new h.searchable₁.wellFormed h.due h.fresh rfl

theorem filesIn_eq (h : p.FilesOne p₁ q t i owner kind path) :
    q.filesIn t kind = p.filesIn t kind ++ [sourceId path] := by
  have hp₁ := h.searchable₁.wellFormed
  have ho₁ := h.searchable₁.owned
  have hfiles₁ : p₁.filesIn t kind = p.filesIn t kind := by
    refine h.groups.filesIn_eq h.searchable.wellFormed h.searchable.owned ?_ t kind
    rintro r k f ⟨_, _, _, h, -⟩
    cases h
  have hfiles₂ := h.path₂.filesIn_eq hp₁ ho₁ (by simp) t kind
  have habsent : sourceId path ∉ p₁.filesIn t kind := by
    intro hmem
    obtain ⟨f, hf⟩ := exists_file_of_mem_filesIn hp₁ hmem
    rw [h.content?_sourceId] at hf
    cases hf
  rw [h.steps.filesIn_of_fileSteps h.wellFormed₂ (h.path₂.owned hp₁ ho₁) h.holds, hfiles₂,
    if_neg habsent, hfiles₁]

/-- Other files stay in their phases, and get into no others. -/
theorem joins_iff (h : p.FilesOne p₁ q t i owner kind path) {j : ObjectId} (hj : p.content? j ≠ none)
    (name : String) (k : PhaseKind) : q.Joins name k j ↔ p.Joins name k j := by
  have hne : j ≠ sourceId path := by
    rintro rfl
    obtain ⟨c, hc⟩ := Option.ne_none_iff_exists'.1 hj
    obtain ⟨d, hd, -⟩ := h.groups.grows.content _ c hc
    rw [h.content?_sourceId] at hd
    cases hd
  rw [h.steps.joins_iff h.wellFormed₂, h.path₂.joins_iff h.searchable₁.wellFormed,
    h.groups.joins_iff h.searchable.wellFormed]
  · rintro r s - ⟨_, _, _, rfl, -⟩ ⟨_, _, h, -⟩
    cases h
  · rintro r s - rfl ⟨_, _, h, -⟩
    cases h
  · rintro r s - (rfl | ⟨_, f, rfl, -, -, hid, -⟩) ⟨_, _, h, -, -, hid'⟩ <;> cases h
    exact hne (hid'.symm.trans hid)

/-- To the end of a group come groups that were missing, and then the source if it is its group. -/
theorem exists_parts (h : p.FilesOne p₁ q t i owner kind path) (j : ObjectId) :
    ∃ parts : List Part,
      q.childrenOf j =
        p.childrenOf j ++ (parts ++ if i = j then [Part.source path] else []).map Part.reference ∧
      ∀ x ∈ parts, ∃ above name, x = .group above name ∧ p.groupAt (above ++ [name]) = none := by
  obtain ⟨parts, hparts, hgroups⟩ := h.groups.exists_parts h.searchable.wellFormed j
  obtain ⟨parts', hparts', hnone'⟩ := h.steps.exists_parts h.wellFormed₂ j
  have hnil : parts' = [] := by
    refine List.eq_nil_iff_forall_not_mem.2 fun x hx => ?_
    obtain ⟨hhome, r, -, -, h | ⟨_, _, h, -⟩⟩ := hnone' x hx <;> cases h <;> cases hhome
  refine ⟨parts, ?_, fun x hx => ?_⟩
  · rw [hparts', hnil, List.map_nil, List.append_nil,
      Step.childrenOf_apply h.searchable₁.wellFormed h.due h.fresh, hparts, List.map_append,
      List.append_assoc]
    by_cases hij : i = j <;> simp [Step.newChildren, hij, Part.home]
  · obtain ⟨-, r, hpr, hd, _, above, name, h, -⟩ := hgroups x hx
    cases h
    refine ⟨above, name, rfl, Option.eq_none_iff_forall_ne_some.2 fun k hk => ?_⟩
    cases hd with
    | group _ absent =>
      rw [← groupAt_append, hpr.groupAt hk] at absent
      cases absent

end FilesOne

/-- A path without a source gets one, in the group of its directory, and the source comes to the end of
the phase. -/
theorem filesNew_addFile (hs : p.Searchable) (ha : p.content? t = some (.target a))
    (hnone : p.hasSource path = false) (h : addFile t kind path p = .ok () q) :
    p.FilesNew q t kind [path] := by
  have hnew : ∀ i, ¬ p.Source path i := by
    intro i hi
    rw [(hasSource_iff hs.wellFormed).2 ⟨i, hi⟩] at hnone
    cases hnone
  obtain ⟨p₁, i, hfiles⟩ := exists_filesOne_of_addFile hs ha hnew h
  constructor
  case sources =>
    intro path' j
    rw [hfiles.source_iff, List.mem_singleton]
  case new =>
    intro path' hpath'
    rw [List.mem_singleton.1 hpath']
    exact hnew
  case files => exact hfiles.filesIn_eq
  case hasPhase =>
    obtain ⟨x, b, hx, -⟩ := hfiles.holds
    exact iff_of_true ⟨x, hx⟩ (.inr (by simp))
  case joins => exact fun j hj => hfiles.joins_iff hj
  case children =>
    intro j
    obtain ⟨parts, hparts, hgroups⟩ := hfiles.exists_parts j
    have hdirectories : parts.filterMap Part.source? = [] := by
      refine List.filterMap_eq_nil_iff.2 fun x hx => ?_
      obtain ⟨above, name, rfl, -⟩ := hgroups x hx
      rfl
    refine ⟨_, hparts, ?_, fun x hx => ?_⟩
    · rw [List.filterMap_append, hdirectories, List.nil_append, List.filter_singleton, hfiles.fileGroup]
      by_cases hij : i = j <;> simp [hij, Part.source?]
    · rcases List.mem_append.1 hx with hx | hx
      · exact .inr (hgroups x hx)
      · split at hx
        · exact .inl ⟨path, List.mem_singleton.1 hx⟩
        · cases hx
  case groups =>
    intro path' hpath'
    rw [List.mem_singleton.1 hpath', hfiles.fileGroup]
    rfl

/-! ## Several paths -/

omit [IdScheme] in
theorem orderly_of_addingSteps {owner : String} {s : Step} (h : AddingSteps t owner kind q s) :
    s.Orderly q := by
  obtain ⟨path, h | ⟨file, rfl | ⟨i, f, rfl, -⟩, -⟩⟩ := h
  · exact Path.orderly_of_filingSteps h
  · exact Step.orderly_of_slot (by simp) (by simp [Step.slot?])
  · exact Step.orderly_of_slot (by simp) (by simp [Step.slot?])

/-- The new ones among the paths are filed, each of them once. -/
theorem filesNew_forM_addFile (hs : p.Searchable) (ha : p.content? t = some (.target a))
    (h : paths.forM (addFile t kind) p = .ok ⟨⟩ q) : p.FilesNew q t kind (p.newPaths paths) := by
  induction paths generalizing p a with
  | nil =>
    cases h
    exact .refl _ t kind
  | cons path paths ih =>
    obtain ⟨_, p₁, hfirst, hrest⟩ := exists_of_bind_eq_ok h
    obtain ⟨h₁, -⟩ := Leads.of_ok (performs_addFile hs.wellFormed ha kind path) hfirst
    have hs₁ := h₁.searchable (fun _ _ => orderly_of_addingSteps) hs
    obtain ⟨a₁, ha₁, -⟩ := h₁.grows.target ha
    cases hsource : p.hasSource path with
    | true =>
      have hfiled := hs.isFiled_iff.2 ((hasSource_iff hs.wellFormed).1 hsource)
      rw [addFile_of_isFiled hs.wellFormed hfiled] at hfirst
      cases hfirst
      rw [newPaths_cons_of_hasSource hsource]
      exact ih hs ha hrest
    | false =>
      have hone := filesNew_addFile hs ha hsource hfirst
      obtain ⟨h₂, -⟩ := Leads.of_ok (performs_forM_addFile hs₁.wellFormed ha₁ kind paths) hrest
      rw [newPaths_cons (q := p₁) hsource fun path' => ?_]
      · exact hone.trans (ih hs₁ ha₁ hrest) h₁.grows h₂.grows
      · rw [Bool.eq_iff_iff, Bool.or_eq_true, hasSource_iff hs₁.wellFormed, hasSource_iff hs.wellFormed,
          decide_eq_true_eq]
        simp only [hone.sources, List.mem_singleton, exists_or, exists_and_left, exists_eq, and_true]

/-- Filing lists of paths is filing the paths of the lists. -/
theorem addFiles_eq (t : ObjectId) (kind : PhaseKind) (paths : List (List String)) :
    addFiles t kind paths = paths.flatten.forM (addFile t kind) := by
  induction paths with
  | nil => rfl
  | cons ps paths ih =>
    show (ps.forM (addFile t kind) >>= fun _ => addFiles t kind paths) =
      forM (ps ++ paths.flatten) (addFile t kind)
    rw [ih, List.forM_append]
    rfl

/-! ## Nothing else happens -/

/-- From the first project to the second one, the target may have got a phase of a kind, and this phase
files, and groups children. Nothing else has happened. -/
structure FilesOnly (p q : Project) (t : ObjectId) (a : NativeTarget) (kind : PhaseKind) : Prop where
  target : q.content? t = some (.target a) ∨ ¬ p.HasPhase t kind ∧ q.HasPhase t kind ∧
    q.content? t = some (.target { a with
      buildPhases := a.buildPhases ++ [Part.reference (.phase a.name (.files kind))] })
  others : ∀ i c, i ≠ t → (∀ g, c ≠ .group g) →
    (∀ x, c = .phase x → x.target = a.name → x.role ≠ .files kind) →
      p.content? i = some c → q.content? i = some c
  new : ∀ i c, p.content? i = none → q.content? i = some c →
    (∃ g, c = .group g) ∨ (∃ path, c = .file (.source path)) ∨
      (∃ f, c = .buildFile f ∧ f.target = a.name ∧ f.phase = kind) ∨
        ∃ x, c = .phase x ∧ x.target = a.name ∧ x.role = .files kind
  rest : q = { p with objects := q.objects, directories := q.directories }

namespace FilesOnly

/-- What a step of a filing attaches, and to what. -/
theorem cases_of_addingSteps {s : Step} (hq : q.WellFormed) (hd : s.Due q)
    (hs : AddingSteps t a.name kind q s) :
    (∃ i g x, s = .attach i x ∧ q.content? i = some (.group g) ∧
      ((∃ above name, x = .group above name) ∨ ∃ path, x = .source path)) ∨
    s = .attach t (.phase a.name (.files kind)) ∨
    ∃ i y f, s = .attach i (.buildFile f) ∧ q.content? i = some (.phase y) ∧ y.target = a.name ∧
      y.role = .files kind ∧ f.target = a.name ∧ f.phase = kind := by
  obtain ⟨path, (⟨i, above, name, rfl, -⟩ | ⟨i, rfl, -⟩) |
    ⟨file, rfl | ⟨i, f, rfl, hname, hkind, -⟩, -⟩⟩ := hs
  · cases hd with
    | group parent =>
      obtain ⟨g, hg⟩ := hq.groupAt parent
      exact .inl ⟨i, g, _, rfl, hg, .inl ⟨above, name, rfl⟩⟩
  · cases hd with
    | source group => exact .inl ⟨i, _, _, rfl, group, .inr ⟨path, rfl⟩⟩
  · exact .inr (.inl rfl)
  · cases hd with
    | buildFile phase role target =>
      exact .inr (.inr ⟨i, _, f, rfl, phase, target.symm.trans hname, hkind ▸ role, hname, hkind⟩)

/-- What is neither a group, nor the target, nor its phase of the kind gets nothing attached. -/
theorem content?_apply_of_addingSteps {s : Step} (hq : q.WellFormed) (hd : s.Due q)
    (hs : AddingSteps t a.name kind q s) {i : ObjectId} {c : Content} (hc : q.content? i = some c)
    (hgroup : ∀ g, c ≠ .group g) (htarget : i = t → s ≠ .attach t (.phase a.name (.files kind)))
    (hphase : ∀ x, c = .phase x → x.target = a.name → x.role ≠ .files kind) :
    (s.apply q).content? i = some c := by
  rw [Step.content?_apply_of_some hc]
  rcases cases_of_addingSteps hq hd hs with
    ⟨j, g, x, rfl, hg, -⟩ | rfl | ⟨j, y, f, rfl, hy, hname, hrole, -⟩
  · refine congrArg some (if_neg ?_)
    rintro rfl
    rw [hc] at hg
    exact hgroup g (Option.some.inj hg)
  · exact congrArg some (if_neg fun hi => htarget hi rfl)
  · refine congrArg some (if_neg ?_)
    rintro rfl
    rw [hc] at hy
    exact hphase y (Option.some.inj hy) hname hrole

/-- The steps of a filing change objects and the directories of groups. -/
theorem rest_apply_of_addingSteps {s : Step} (hq : q.WellFormed) (hd : s.Due q)
    (hs : AddingSteps t a.name kind q s) :
    s.apply q = { q with objects := (s.apply q).objects, directories := (s.apply q).directories } := by
  unfold Step.apply
  rw [hq.detached, List.map_nil]
  rcases cases_of_addingSteps hq hd hs with ⟨j, g, x, rfl, -⟩ | rfl | ⟨j, y, f, rfl, -⟩ <;> rfl

theorem refl (ha : p.content? t = some (.target a)) (kind : PhaseKind) : p.FilesOnly p t a kind where
  target := .inl ha
  others _ _ _ _ _ h := h
  new i c hnone h := by
    rw [hnone] at h
    cases h
  rest := rfl

/-- One more step of a filing. -/
theorem apply {s : Step} (h : p.FilesOnly q t a kind) (hp : p.WellFormed) (hpq : p.Grows q)
    (hq : q.WellFormed) (ho : q.Owned) (hd : s.Due q) (hf : s.Fresh q)
    (hs : AddingSteps t a.name kind q s) : p.FilesOnly (s.apply q) t a kind := by
  constructor
  case target =>
    by_cases hphase : s = .attach t (.phase a.name (.files kind))
    · subst hphase
      have habsent : ¬ q.HasPhase t kind := not_hasPhase_of_due hd
      have hlast : q.content? t = some (.target a) := h.target.resolve_right fun hnew => habsent hnew.2.1
      obtain ⟨htarget, hhas⟩ := hasPhase_attached hq ho hlast hd hf
      exact .inr ⟨fun hbefore => habsent (hbefore.grows hp hpq), hhas, htarget⟩
    · rcases h.target with hold | ⟨hbefore, hhas, hnew⟩
      · exact .inl (content?_apply_of_addingSteps hq hd hs hold (by simp) (fun _ => hphase) (by simp))
      · exact .inr ⟨hbefore, hhas.grows hq (Step.grows_apply hd),
          content?_apply_of_addingSteps hq hd hs hnew (by simp) (fun _ => hphase) (by simp)⟩
  case others =>
    intro i c hi hgroup hphase hc
    exact content?_apply_of_addingSteps hq hd hs (h.others i c hi hgroup hphase hc) hgroup
      (fun heq => absurd heq hi) hphase
  case new =>
    intro i c hnone hc
    rcases Step.content?_apply_grows hq hd hf hc with ⟨b, hb, hgrow⟩ | ⟨hmade, -⟩
    · rcases h.new i b hnone hb with ⟨g, rfl⟩ | ⟨path, rfl⟩ | ⟨f, rfl, hf⟩ | ⟨x, rfl, hname, hrole⟩
      · cases hgrow
        exact .inl ⟨_, rfl⟩
      · cases hgrow
        exact .inr (.inl ⟨path, rfl⟩)
      · cases hgrow
        exact .inr (.inr (.inl ⟨f, rfl, hf⟩))
      · cases hgrow with
        | phase htarget hplace =>
          rw [hrole] at hplace
          exact .inr (.inr (.inr ⟨_, rfl, htarget.trans hname, PhaseRole.place_eq_inl.1 hplace⟩))
    · rcases cases_of_addingSteps hq hd hs with ⟨j, g, x, rfl, -, ⟨above, name, rfl⟩ | ⟨path, rfl⟩⟩ |
        rfl | ⟨j, y, f, rfl, -, -, -, hname, hkind⟩ <;> cases hmade
      · exact .inl ⟨_, rfl⟩
      · exact .inr (.inl ⟨path, rfl⟩)
      · exact .inr (.inr (.inr ⟨_, rfl, rfl, rfl⟩))
      · exact .inr (.inr (.inl ⟨f, rfl, hname, hkind⟩))
  case rest =>
    exact (rest_apply_of_addingSteps hq hd hs).trans (congrArg (fun r : Project => { r with
      objects := (s.apply q).objects
      directories := (s.apply q).directories }) h.rest)

end FilesOnly

theorem filesOnly_of_path (hpq : Path (AddingSteps t a.name kind) p q) (hp : p.WellFormed)
    (ho : p.Owned) (ha : p.content? t = some (.target a)) : p.FilesOnly q t a kind := by
  induction hpq with
  | refl => exact .refl ha kind
  | step path due fresh allowed ih =>
    exact ih.apply hp path.grows (path.wellFormed hp) (path.owned hp ho) due fresh allowed

end Project
end ProjectGraph
