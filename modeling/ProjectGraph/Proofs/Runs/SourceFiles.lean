import ProjectGraph.Proofs.Digest
import ProjectGraph.Proofs.Runs.Filing
import ProjectGraph.Proofs.Runs.Kinds
import ProjectGraph.Proofs.Text.PathNames

/-! # One file, one reference

A file is looked for by its path as it is spelled, in the group of its directory, which is found
however the directory is spelled. So a spelling has one reference. A file has as many references as it
has spellings, all of them in one group. -/

namespace ProjectGraph

section

variable [IdScheme] {p q : Project} {i j : ObjectId} {path path' : String}

/-- A file is found again by its spelling. -/
theorem Project.Searchable.fileReferenceFor_of_source (h : p.Searchable) (hi : p.Source path i) :
    fileReferenceFor path p = .ok ⟨i, .source path⟩ p := by
  obtain ⟨f, hf⟩ := h.isFiled_iff.2 ⟨i, hi⟩
  have hfile := h.source hf
  obtain rfl := h.wellFormed.source_unique hfile hi
  rw [fileReferenceFor_of_filed h.wellFormed hf]
  have hcontent := hf.content?
  rw [hfile] at hcontent
  obtain ⟨id, c⟩ := f
  cases hcontent
  rfl

omit [IdScheme] in
/-- Directories with one normal form have one group. -/
theorem Project.fileGroup_congr (p : Project)
    (h : PathName.normalize (Text.directoryOf path) = PathName.normalize (Text.directoryOf path')) :
    p.fileGroup path = p.fileGroup path' := by
  unfold fileGroup directoryGroup
  rw [h]

/-- Two references are to one file only if they spell it differently, one of them other than in its
normal form. They have one name then, and are in one group, unless the file is spelled as a directory.
Each is found again by its spelling. -/
theorem BuildHistory.sources_of_same_file {as : List Attempt} (h : BuildHistory as q)
    (hi : q.Source path i) (hj : q.Source path' j)
    (hsame : PathName.normalize path = PathName.normalize path') :
    (i = j ↔ path = path') ∧
    (i ≠ j → (PathName.normalize path).text ≠ path ∨ (PathName.normalize path').text ≠ path') ∧
    (PathName.EndsInName path → PathName.EndsInName path' →
      Text.baseNameOf path = Text.baseNameOf path' ∧
        ∃ g, q.fileGroup path = some g ∧ q.fileGroup path' = some g ∧ q.Parent i g ∧ q.Parent j g) ∧
    Project.fileReferenceFor path q = .ok ⟨i, .source path⟩ q := by
  have hq := h.regular
  have hiff : i = j ↔ path = path' := by
    constructor
    · rintro rfl
      rw [Project.Source, hi] at hj
      simpa using hj
    · rintro rfl
      exact hq.wellFormed.source_unique hi hj
  refine ⟨hiff, fun hne => ?_, fun hname hname' => ?_, hq.fileReferenceFor_of_source hi⟩
  · by_contra hnormal
    push Not at hnormal
    exact hne (hiff.2 (hnormal.1.symm.trans (hsame ▸ hnormal.2)))
  · obtain ⟨hdirectory, hbase⟩ := (PathName.normalize_eq_iff hname hname').1 hsame
    obtain ⟨g, hg, hparent⟩ := hq.findable.source i path hi
    obtain ⟨g', hg', hparent'⟩ := hq.findable.source j path' hj
    rw [q.fileGroup_congr hdirectory] at hg
    rw [hg] at hg'
    cases hg'
    exact ⟨hbase, g, (q.fileGroup_congr hdirectory).trans hg, hg, hparent, hparent'⟩

end

/-! ## A header that is spelled in two ways -/

/-- A tree with one header, at home in its top directory. -/
def oneHeader : FileTree where
  home := []
  entries := ⟨[(["Core.h"], .file "")], by decide⟩

/-- A framework that names its header with a dot before it, and finds it among its files, too. -/
def dottedHeader : Declaration where
  target := { bareFramework "Core" [] with header := some "./Core.h", includeFiles := ["*.h"] }

/-- A run over the framework succeeds. The header has two references then. -/
theorem exists_dottedHeader :
    ∃ (p : Project) (w : Workspace) (i j : ObjectId),
      Project.ofValue "App" (.text "Debug") = .ok p ∧
      plainGenerator.run [dottedHeader] ⟨p, oneHeader, []⟩ = .ok () w ∧ i ≠ j ∧
      w.project.Source "./Core.h" i ∧ w.project.Source "Core.h" j := by
  let i := IdScheme.ofKey "PBXFileReference:SOURCE_ROOT:./Core.h"
  let j := IdScheme.ofKey "PBXFileReference:SOURCE_ROOT:Core.h"
  have hruns : (Project.ofValue "App" (.text "Debug")).toOption.any fun p =>
      let w := stateAfter (plainGenerator.run [dottedHeader]) ⟨p, oneHeader, []⟩
      failureOf (plainGenerator.run [dottedHeader]) ⟨p, oneHeader, []⟩ = none ∧
      (w.project.content? i).bind Content.file? = some (.source "./Core.h") ∧
      (w.project.content? j).bind Content.file? = some (.source "Core.h") := by
    rw [ObjectId.digestScheme_eq]
    decide +kernel
  obtain ⟨p, hnew, hp⟩ := Project.exists_of_ofValue hruns
  obtain ⟨hsucceeds, hi, hj⟩ := of_decide_eq_true hp
  obtain ⟨_, hrun⟩ := exists_of_failureOf_eq_none hsucceeds
  have hne : i ≠ j := by decide +kernel
  exact ⟨p, _, i, j, hnew, hrun, hne, Project.content?_of_file? hi, Project.content?_of_file? hj⟩

/-- Both references have the name of the header, and are in the main group. -/
theorem BuildHistory.sources_of_dottedHeader :
    ∃ (p : Project) (w : Workspace) (i j : ObjectId),
      BuildHistory (plainGenerator.attempts [dottedHeader] ⟨p, oneHeader, []⟩) w.project ∧
      w.project.Source "./Core.h" i ∧ w.project.Source "Core.h" j ∧ i ≠ j ∧
      PathName.normalize "./Core.h" = PathName.normalize "Core.h" ∧
      (PathName.normalize "./Core.h").text ≠ "./Core.h" ∧
      ∃ g, w.project.Parent i g ∧ w.project.Parent j g := by
  obtain ⟨p, w, i, j, hnew, hrun, hne, hi, hj⟩ := exists_dottedHeader
  have hhistory : BuildHistory (plainGenerator.attempts [dottedHeader] ⟨p, oneHeader, []⟩) w.project :=
    .of_run (w := ⟨p, oneHeader, []⟩) (.new hnew) hrun
  have hsame : PathName.normalize "./Core.h" = PathName.normalize "Core.h" := by decide
  obtain ⟨-, hspelled, hgroup, -⟩ := hhistory.sources_of_same_file hi hj hsame
  obtain ⟨-, g, -, -, hparent, hparent'⟩ := hgroup (by decide) (by decide)
  have hnormal : (PathName.normalize "Core.h").text = "Core.h" := by decide
  exact ⟨p, w, i, j, hhistory, hi, hj, hne, hsame, (hspelled hne).resolve_right fun h => h hnormal,
    g, hparent, hparent'⟩

/-- So two references of a project can name one file. -/
theorem not_oneSource_of_dottedHeader :
    ∃ (p : Project) (w : Workspace) (i j : ObjectId),
      Project.ofValue "App" (.text "Debug") = .ok p ∧
      plainGenerator.run [dottedHeader] ⟨p, oneHeader, []⟩ = .ok () w ∧ i ≠ j ∧
      w.project.Source "./Core.h" i ∧ w.project.Source "Core.h" j ∧
      PathName.normalize "./Core.h" = PathName.normalize "Core.h" := by
  obtain ⟨p, w, i, j, hnew, hrun, hne, hi, hj⟩ := exists_dottedHeader
  exact ⟨p, w, i, j, hnew, hrun, hne, hi, hj, by decide⟩

end ProjectGraph
