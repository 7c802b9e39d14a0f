import ProjectGraph.Build.Files
import ProjectGraph.Proofs.Operations.Performs
import ProjectGraph.Proofs.Registry.Reading
import ProjectGraph.Proofs.Text.NormalForms

/-! # Groups of directories and the files in them -/

namespace ProjectGraph

namespace Project

variable [IdScheme] {p q : Project} {i : ObjectId} {path : String}

/-! ## Groups -/

/-- The steps that make the groups of a directory and of those above it. -/
def GroupSteps (directory : List String) (_ : Project) (s : Step) : Prop :=
  ∃ i above name, s = .attach i (.group above name) ∧ above ++ [name] <+: directory

omit [IdScheme] in
theorem GroupSteps.mono {d d' : List String} {s : Step} (h : GroupSteps d q s) (hbegins : d <+: d') :
    GroupSteps d' q s := by
  obtain ⟨i, above, name, hs, hd⟩ := h
  exact ⟨i, above, name, hs, hd.trans hbegins⟩

theorem get?_directories_of_path {A : Project → Step → Prop} {directory : List String}
    (hpq : Path A p q)
    (hA : ∀ q i above name, A q (.attach i (.group above name)) → above ++ [name] ≠ directory) :
    q.directories.get? directory = p.directories.get? directory := by
  induction hpq with
  | refl => rfl
  | @step q s _ due _ allowed ih =>
    rw [← ih]
    cases due with
    | @group j above name =>
      show (q.directories.insert (above ++ [name]) _).get? directory = _
      rw [Table.get?_insert, if_neg (hA q j above name allowed)]
    | _ => rfl

theorem groupBelow_of_groupAt {components : List String}
    (h : p.groupAt components.reverse = some i) : groupBelow components p = .ok i p := by
  cases components with
  | nil =>
    cases h
    rfl
  | cons name above =>
    rw [groupAt, if_neg (by simp)] at h
    rw [groupBelow, get_bind, h]
    rfl

/-- Making the groups above a directory leaves the directory itself without a group. -/
theorem get?_directories_of_groupSteps {above : List String} {name : String}
    (hpq : Path (GroupSteps above) p q) (h : p.directories.get? (above ++ [name]) = none) :
    q.directories.get? (above ++ [name]) = none := by
  rw [get?_directories_of_path hpq, h]
  rintro q i a n ⟨i', a', n', hs, hbegins⟩ heq
  cases hs
  have hlength := hbegins.length_le
  rw [heq, List.length_append, List.length_singleton] at hlength
  omega

/-- Makes the group of a directory inside the group of the directory above. -/
def makeGroup (owner : ObjectId) (above : List String) (name : String) : Edit ObjectId := do
  let id ← register (.group (newGroup above name))
  addChild owner ⟨id, some name⟩
  modify fun p => { p with directories := p.directories.insert (above ++ [name]) id }
  return id

omit [IdScheme] in
theorem groupAt_append (p : Project) (above : List String) (name : String) :
    p.groupAt (above ++ [name]) = p.directories.get? (above ++ [name]) :=
  if_neg (by simp)

theorem groupBelow_of_none {name : String} {above : List String}
    (h : p.directories.get? (above.reverse ++ [name]) = none) :
    groupBelow (name :: above) p =
      (groupBelow above >>= fun owner => makeGroup owner above.reverse name) p := by
  rw [groupBelow, get_bind, List.reverse_cons, h]
  rfl

theorem performs_groupBelow (components : List String)
    (hproper : ∀ n ∈ components, '/' ∉ n.toList) :
    Edit.Performs (GroupSteps components.reverse) (groupBelow components) p fun i q =>
      q.groupAt components.reverse = some i := by
  induction components with
  | nil => exact .of_ok rfl rfl
  | cons name above ih =>
    rw [List.reverse_cons]
    cases hget : p.directories.get? (above.reverse ++ [name]) with
    | some i =>
      have hi := (groupAt_append p _ _).trans hget
      exact .of_ok (groupBelow_of_groupAt (List.reverse_cons ▸ hi)) hi
    | none =>
      refine Leads.congr (groupBelow_of_none hget) ?_
      have hparent : Edit.Performs (GroupSteps (above.reverse ++ [name])) (groupBelow above) p
          fun i q => q.groupAt above.reverse = some i ∧
            q.directories.get? (above.reverse ++ [name]) = none := by
        refine (ih fun n hn => hproper n (List.mem_cons_of_mem name hn)).mono ?_ ?_
        · exact fun q s h => h.mono (List.prefix_append _ _)
        · intro i q hpq hi
          exact ⟨hi, get?_directories_of_groupSteps hpq hget⟩
      refine hparent.bind ?_
      rintro parent q hpq ⟨hgroup, habsent⟩
      have hdue : (Step.attach parent (.group above.reverse name)).Due q :=
        .group hgroup habsent fun n hn => hproper n (by simpa [or_comm] using hn)
      refine Edit.performs_register (b := (Content.group (newGroup above.reverse name)).id) hdue
        ⟨_, _, _, rfl, List.prefix_refl _⟩ rfl rfl fun _ => ?_
      rw [groupAt_append]
      show (q.directories.insert (above.reverse ++ [name]) _).get? _ = _
      rw [Table.get?_insert, if_pos rfl]
      rfl

/-- The group of a directory, as the directory is spelled. -/
def directoryGroup (p : Project) (directory : String) : Option ObjectId :=
  let path := PathName.normalize directory
  if path.IsAbsolute then none else p.groupAt path.components

omit [IdScheme] in
theorem directoryGroup_of_grows {directory : String} (h : p.directoryGroup directory = some i)
    (hpq : p.Grows q) : q.directoryGroup directory = some i := by
  unfold directoryGroup at *
  simp only at *
  split
  · next habsolute =>
    rw [if_pos habsolute] at h
    cases h
  · next habsolute =>
    rw [if_neg habsolute] at h
    exact hpq.groupAt h

/-- The group of a directory that has one is returned as it is. -/
theorem groupForPath_of_directoryGroup {directory : String}
    (h : p.directoryGroup directory = some i) : groupForPath directory p = .ok i p := by
  unfold directoryGroup at h
  simp only at h
  split at h
  · cases h
  · next habsolute =>
    rw [← List.reverse_reverse (PathName.normalize directory).components] at h
    rw [groupForPath, if_neg habsolute]
    exact groupBelow_of_groupAt h

/-- The steps that make the group of a directory, as the directory is spelled. -/
abbrev DirectorySteps (directory : String) : Project → Step → Prop :=
  GroupSteps (PathName.normalize directory).components

theorem performs_groupForPath (p : Project) (directory : String) :
    Edit.Performs (DirectorySteps directory) (groupForPath directory) p fun i q =>
      q.directoryGroup directory = some i := by
  unfold groupForPath directoryGroup
  simp only
  split
  · exact .of_outer rfl trivial id
  · have hbelow := performs_groupBelow (p := p) (PathName.normalize directory).components.reverse
      fun n hn => PathName.slash_not_mem_of_mem_normalize (List.mem_reverse.1 hn)
    rw [List.reverse_reverse] at hbelow
    exact hbelow

/-! ## Files in groups -/

/-- The group of the directory that a file is in. -/
def fileGroup (p : Project) (path : String) : Option ObjectId :=
  p.directoryGroup (Text.directoryOf path)

/-- The file is the first one of its path in the group of its directory. -/
def Filed (p : Project) (path : String) (f : Identified FileReference) : Prop :=
  ∃ i g, p.fileGroup path = some i ∧ p.content? i = some (.group g) ∧
    p.first (Content.fileAt? path) g.children = some f

omit [IdScheme] in
theorem content?_of_first_file {rs : List Reference} {f : Identified FileReference}
    (h : p.first (Content.fileAt? path) rs = some f) :
    p.content? f.id = some (.file f.content) ∧ f.content.path = path := by
  obtain ⟨r, -, hid, c, hc, hview⟩ := exists_of_first h
  obtain ⟨rfl, hpath⟩ := Content.fileAt?_eq_some.1 hview
  exact ⟨hid ▸ hc, hpath⟩

omit [IdScheme] in
/-- A file that has been found in a group is found in it from then on. -/
theorem first_file_of_grows {rs rs' : List Reference} {f : Identified FileReference}
    (hpq : p.Grows q) (hrs : ∀ r ∈ rs, (p.content? r.id).isSome) (hbegins : rs <+: rs')
    (hf : p.first (Content.fileAt? path) rs = some f) :
    q.first (Content.fileAt? path) rs' = some f := by
  obtain ⟨f', hf', hid⟩ := first_of_grows (Content.stableView_fileAt? path) hpq hrs hbegins hf
  obtain ⟨hold, -⟩ := content?_of_first_file hf
  obtain ⟨hnew, -⟩ := content?_of_first_file hf'
  rw [hid, hpq.file hold] at hnew
  obtain ⟨i, c⟩ := f
  obtain ⟨i', c'⟩ := f'
  cases hid
  cases hnew
  exact hf'

theorem Filed.grows {f : Identified FileReference} (hp : p.WellFormed) (h : p.Filed path f)
    (hpq : p.Grows q) : q.Filed path f := by
  obtain ⟨i, g, hi, hg, hf⟩ := h
  obtain ⟨b, hb, -, -, -, hbegins⟩ := hpq.group hg
  exact ⟨i, b, directoryGroup_of_grows hi hpq, hb,
    first_file_of_grows hpq (hp.isSome_of_children hg) hbegins hf⟩

omit [IdScheme] in
theorem Filed.content? {f : Identified FileReference} (h : p.Filed path f) :
    p.content? f.id = some (.file f.content) := by
  obtain ⟨i, g, -, -, hf⟩ := h
  exact (content?_of_first_file hf).1

theorem performs_newFileReference {g : Group} (hp : p.WellFormed)
    (hg : p.content? i = some (.group g)) (path : String) :
    Edit.Performs (fun q s => q = p ∧ s = .attach i (.source path)) (newFileReference i path) p
      fun f q => f.content = .source path ∧ p.content? f.id = none ∧
        q.content? f.id = some (.file f.content) ∧
        (p.first (Content.fileAt? path) g.children = none → ∃ b, q.content? i = some (.group b) ∧
          q.first (Content.fileAt? path) b.children = some f) := by
  have hdue : (Step.attach i (.source path)).Due p := .source hg
  refine Edit.performs_register
    (b := ⟨(Content.file (.source path)).id, .source path⟩) hdue ⟨rfl, rfl⟩ rfl rfl fun hfresh => ?_
  refine ⟨rfl, hfresh _ rfl, Step.content?_apply_new hp hdue hfresh rfl, fun hnone => ?_⟩
  have hnew := first_attached hp hdue hfresh (Content.stableView_fileAt? path)
    (hp.isSome_of_children hg) hnone (Content.fileAt?_eq_some.2 ⟨rfl, rfl⟩)
  refine ⟨{ g with children := g.children ++ [Part.reference (.source path)] }, ?_, hnew⟩
  rw [Step.content?_apply_of_some hg]
  simp [Step.reviseContent, Content.append, Part.home]

/-- The steps that file a path: they make the group of its directory, and put the file there if it
is not there. -/
def FilingSteps (path : String) (q : Project) (s : Step) : Prop :=
  DirectorySteps (Text.directoryOf path) q s ∨
    ∃ i, s = .attach i (.source path) ∧ q.fileGroup path = some i ∧ ∀ f, ¬ q.Filed path f

/-- The group of a file that is not filed can be given the file. -/
theorem performs_newFileReference_of_fileGroup (hp : p.WellFormed) {g : Group}
    (hi : p.fileGroup path = some i) (hg : p.content? i = some (.group g))
    (hnone : p.first (Content.fileAt? path) g.children = none) :
    Edit.Performs (FilingSteps path) (newFileReference i path) p fun f q =>
      q.Filed path f ∧ f.content = .source path ∧ p.content? f.id = none := by
  refine (performs_newFileReference hp hg path).mono ?_ ?_
  · rintro q s ⟨rfl, rfl⟩
    refine .inr ⟨i, rfl, hi, ?_⟩
    rintro f ⟨i', g', hi', hg', hf⟩
    rw [hi] at hi'
    cases hi'
    rw [hg] at hg'
    cases hg'
    rw [hnone] at hf
    cases hf
  · rintro f q hpq ⟨hsource, hfree, -, hfiled⟩
    obtain ⟨b, hb, hf⟩ := hfiled hnone
    exact ⟨⟨i, b, directoryGroup_of_grows hi hpq.grows, hb, hf⟩, hsource, hfree⟩

theorem fileReferenceFor_of_filed {f : Identified FileReference} (hp : p.WellFormed)
    (h : p.Filed path f) : fileReferenceFor path p = .ok f p := by
  obtain ⟨i, g, hi, hg, hf⟩ := h
  have hgroup : groupOfFile path p = .ok i p := groupForPath_of_directoryGroup hi
  rw [fileReferenceFor, bind_of_ok hgroup, bind_of_ok (findFileReference_eq hp hg path), hf]
  rfl

theorem WellFormed.fileGroup (hp : p.WellFormed) (h : p.fileGroup path = some i) :
    ∃ g, p.content? i = some (.group g) := by
  unfold Project.fileGroup directoryGroup at h
  simp only at h
  split at h
  · cases h
  · exact hp.groupAt h

theorem performs_groupOfFile (p : Project) (path : String) :
    Edit.Performs (FilingSteps path) (groupOfFile path) p fun i q => q.fileGroup path = some i :=
  (performs_groupForPath p (Text.directoryOf path)).weaken fun _ _ h => .inl h

theorem performs_fileReferenceFor (hp : p.WellFormed) (path : String) :
    Edit.Performs (FilingSteps path) (fileReferenceFor path) p fun f q => q.Filed path f := by
  refine (performs_groupOfFile p path).bind fun i q hpq hi => ?_
  have hq := hpq.wellFormed hp
  obtain ⟨g, hg⟩ := hq.fileGroup hi
  refine .bind_read (findFileReference_eq hq hg path) ?_
  cases hf : q.first (Content.fileAt? path) g.children with
  | some f => exact .of_ok rfl ⟨i, g, hi, hg, hf⟩
  | none =>
    exact (performs_newFileReference_of_fileGroup hq hi hg hf).mono (fun _ _ h => h)
      fun _ _ _ h => h.1

end Project
end ProjectGraph
