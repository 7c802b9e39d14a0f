import ProjectGraph.Proofs.Twins.Operations

/-! # Files on twins

What a build files is filed in step on twins. A directory that only one of the projects has gets its
group in the other one, which is then the same group. -/

namespace ProjectGraph

open Project

namespace Fork

variable [IdScheme] {F : Fork} {p q : Project} {t i j : ObjectId} {path : String}

/-! ## Groups -/

namespace Twins

/-- Where the second project has the group of a directory, the first one comes to the same group. -/
theorem catchUp {components : List String} (hproper : ∀ n ∈ components, '/' ∉ n.toList)
    (h : F.Twins p q) (hj : q.groupAt components.reverse = some j) {p' : Project}
    (hs : groupBelow components p = .ok i p') : i = j ∧ F.Twins p' q := by
  induction components generalizing i j p' with
  | nil =>
    cases hs
    cases hj
    exact ⟨h.mainGroup.symm, h⟩
  | cons name above ih =>
    rw [List.reverse_cons] at hj
    have hproper' := fun n hn => hproper n (List.mem_cons_of_mem name hn)
    cases hget : p.directories.get? (above.reverse ++ [name]) with
    | some k =>
      have hk := (groupAt_append p _ _).trans hget
      rw [groupBelow_of_groupAt (List.reverse_cons ▸ hk)] at hs
      cases hs
      have hsame := h.groupAt hk
      rw [hj] at hsame
      cases hsame
      exact ⟨rfl, h⟩
    | none =>
      rw [groupAt_append] at hj
      have hplaced := h.right.placed _ _ _ hj
      obtain ⟨k, hk, -⟩ := hplaced.parent
      rw [groupBelow_of_none hget] at hs
      obtain ⟨owner, p₁, habove, hmake⟩ := exists_of_bind_eq_ok hs
      obtain ⟨hpath, hgroup⟩ := Leads.of_ok (performs_groupBelow above hproper') habove
      obtain ⟨rfl, h₁⟩ := ih hproper' hk habove
      have hdue : (Step.attach owner (.group above.reverse name)).Due p₁ :=
        .group hgroup (get?_directories_of_groupSteps hpath hget) fun n hn =>
          hproper n (by simpa [or_comm] using hn)
      obtain ⟨rfl, rfl, hfresh⟩ := Edit.eq_of_register hdue rfl rfl hmake
      exact ⟨hplaced.id_eq.symm, h₁.apply_group hdue hfresh hj⟩

theorem inStep_groupBelow {components : List String} (hproper : ∀ n ∈ components, '/' ∉ n.toList)
    (h : F.Twins p q) : InStep F.Twins (groupBelow components) p q := by
  induction components with
  | nil => exact .of_ok rfl (by rw [← h.mainGroup]; rfl) h
  | cons name above ih =>
    have hproper' := fun n hn => hproper n (List.mem_cons_of_mem name hn)
    cases hq : q.groupAt (above.reverse ++ [name]) with
    | some j =>
      have hj : q.groupAt (name :: above).reverse = some j := List.reverse_cons ▸ hq
      intro i p' k q' hs hu
      rw [groupBelow_of_groupAt hj] at hu
      cases hu
      exact h.catchUp hproper hj hs
    | none =>
      have hp : p.groupAt (above.reverse ++ [name]) = none := by
        cases hp : p.groupAt (above.reverse ++ [name]) with
        | none => rfl
        | some i =>
          have hi := h.groupAt hp
          rw [hq] at hi
          cases hi
      rw [groupAt_append] at hp hq
      refine .congr (groupBelow_of_none hp) (groupBelow_of_none hq) ?_
      refine (ih hproper').bind fun owner p' q' hs hu h' => ?_
      obtain ⟨hpath, hgroup⟩ := Leads.of_ok (performs_groupBelow above hproper') hs
      obtain ⟨hpath', hgroup'⟩ := Leads.of_ok (performs_groupBelow above hproper') hu
      have hproper'' : ∀ n ∈ above.reverse ++ [name], '/' ∉ n.toList := fun n hn =>
        hproper n (by simpa [or_comm] using hn)
      have hdue : (Step.attach owner (.group above.reverse name)).Due p' :=
        .group hgroup (get?_directories_of_groupSteps hpath hp) hproper''
      have hdue' : (Step.attach owner (.group above.reverse name)).Due q' :=
        .group hgroup' (get?_directories_of_groupSteps hpath' hq) hproper''
      exact Edit.inStep_register (b := (Content.group (newGroup above.reverse name)).id) hdue hdue' rfl
        rfl rfl fun hfresh hfresh' => h'.apply hdue hdue' hfresh hfresh' (by rintro u l ⟨⟩)

theorem inStep_groupOfFile (h : F.Twins p q) (path : String) :
    InStep F.Twins (groupOfFile path) p q := by
  unfold groupOfFile groupForPath
  simp only
  split
  · exact .of_error rfl
  · exact h.inStep_groupBelow fun n hn =>
      PathName.slash_not_mem_of_mem_normalize (List.mem_reverse.1 hn)

end Twins

/-! ## Files -/

/-- A file with this path is looked for wherever it can be, but not among the products. -/
def ReadsFile (F : Fork) (path : String) : Prop :=
  ∀ i, i ≠ F.base.productsGroup → F.Reads i path

namespace Twins

theorem fileGroup_ne (h : F.Twins p q) (hi : p.fileGroup path = some i) :
    i ≠ F.base.productsGroup := by
  rintro rfl
  rw [← h.growsLeft.productsGroup] at hi
  exact h.left.apart.fileGroup_ne path hi

/-- Both projects find the same file in a group. -/
theorem findFileReference (h : F.Twins p q) (hread : F.ReadsFile path)
    (hi : p.fileGroup path = some i) (hi' : q.fileGroup path = some i) :
    findFileReference i path p = .ok (p.fileIn i path) p ∧
      findFileReference i path q = .ok (p.fileIn i path) q := by
  have hp := h.left.wellFormed
  have hq := h.right.wellFormed
  refine ⟨findFileReference_eq_fileIn hp (hp.fileGroup hi) path, ?_⟩
  rw [findFileReference_eq_fileIn hq (hq.fileGroup hi') path, h.files i path (hread i (h.fileGroup_ne hi))]

theorem inStep_newFileReference (h : F.Twins p q) (hi : p.fileGroup path = some i)
    (hi' : q.fileGroup path = some i) : InStep F.Twins (newFileReference i path) p q := by
  obtain ⟨g, hg⟩ := h.left.wellFormed.fileGroup hi
  obtain ⟨g', hg'⟩ := h.right.wellFormed.fileGroup hi'
  exact Edit.inStep_register (b := ⟨(Content.file (.source path)).id, .source path⟩) (.source hg)
    (.source hg') rfl rfl rfl fun hfresh hfresh' =>
      h.apply (.source hg) (.source hg') hfresh hfresh' (by rintro u l ⟨⟩)

theorem inStep_fileReferenceFor (h : F.Twins p q) (hread : F.ReadsFile path) :
    InStep F.Twins (fileReferenceFor path) p q := by
  refine (h.inStep_groupOfFile path).bind fun i p' q' hs hu h' => ?_
  obtain ⟨-, hi⟩ := Leads.of_ok (performs_groupOfFile p path) hs
  obtain ⟨-, hi'⟩ := Leads.of_ok (performs_groupOfFile q path) hu
  obtain ⟨hfind, hfind'⟩ := h'.findFileReference hread hi hi'
  refine .bind_read hfind hfind' ?_
  cases p'.fileIn i path with
  | some f => exact .pure f h'
  | none => exact h'.inStep_newFileReference hi hi'

end Twins

namespace TwinsAt

theorem inStep_fileReferenceFor (h : F.TwinsAt t p q) (hread : F.ReadsFile path) :
    InStep (F.TwinsAt t) (fileReferenceFor path) p q :=
  h.of_twins (h.toTwins.inStep_fileReferenceFor hread) fun _ _ hs =>
    (Leads.of_ok (performs_fileReferenceFor h.left.wellFormed path) hs).1.grows

theorem inStep_addInfoPlist (h : F.TwinsAt t p q) (hread : F.ReadsFile path) :
    InStep (F.TwinsAt t) (addInfoPlist path) p q :=
  (h.inStep_fileReferenceFor hread).discard

theorem inStep_addFrameworkHeader (h : F.TwinsAt t p q) {header : Option String}
    (hread : ∀ path, header = some path → F.ReadsFile path) :
    InStep (F.TwinsAt t) (addFrameworkHeader t header) p q := by
  cases header with
  | none => exact .pure _ h
  | some path =>
    refine (h.inStep_fileReferenceFor (hread path rfl)).bind fun f p' q' hs hu h' => ?_
    obtain ⟨-, hf⟩ := Leads.of_ok (performs_fileReferenceFor h.left.wellFormed path) hs
    obtain ⟨-, hf'⟩ := Leads.of_ok (performs_fileReferenceFor h.right.wellFormed path) hu
    exact h'.inStep_addFileToPhase .headers hf.content? hf'.content? _

theorem inStep_addFile (h : F.TwinsAt t p q) (kind : PhaseKind) (hread : F.ReadsFile path) :
    InStep (F.TwinsAt t) (addFile t kind path) p q := by
  have hgroup : InStep (F.TwinsAt t) (groupOfFile path) p q :=
    h.of_twins (h.toTwins.inStep_groupOfFile path) fun _ _ hs =>
      (Leads.of_ok (performs_groupOfFile p path) hs).1.grows
  refine hgroup.bind fun i p' q' hs hu h' => ?_
  obtain ⟨-, hi⟩ := Leads.of_ok (performs_groupOfFile p path) hs
  obtain ⟨-, hi'⟩ := Leads.of_ok (performs_groupOfFile q path) hu
  obtain ⟨hfind, hfind'⟩ := h'.findFileReference hread hi hi'
  refine .bind_read hfind hfind' ?_
  cases p'.fileIn i path with
  | some f => exact .pure _ h'
  | none =>
    obtain ⟨g, hg⟩ := h'.left.wellFormed.fileGroup hi
    obtain ⟨g', hg'⟩ := h'.right.wellFormed.fileGroup hi'
    have hnew := performs_newFileReference h'.left.wellFormed hg path
    have hnew' := performs_newFileReference h'.right.wellFormed hg' path
    have hfile : InStep (F.TwinsAt t) (newFileReference i path) p' q' :=
      h'.of_twins (h'.inStep_newFileReference hi hi') fun _ _ hs => (Leads.of_ok hnew hs).1.grows
    refine hfile.bind fun f p'' q'' hs hu h'' => ?_
    obtain ⟨-, -, -, hf, -⟩ := Leads.of_ok hnew hs
    obtain ⟨-, -, -, hf', -⟩ := Leads.of_ok hnew' hu
    exact h''.inStep_addFileToPhase kind hf hf' none

theorem inStep_addFiles (h : F.TwinsAt t p q) (kind : PhaseKind) {paths : List (List String)}
    (hread : ∀ path ∈ paths.flatten, F.ReadsFile path) :
    InStep (F.TwinsAt t) (addFiles t kind paths) p q := by
  refine .forM (fun ps hps p q h => .forM (fun path hpath p q h => ?_) h) h
  exact h.inStep_addFile kind (hread path (List.mem_flatten_of_mem hps hpath))

end TwinsAt

/-! ## Products and dependencies -/

/-- A file with this path is looked for among the products. -/
def ReadsProduct (F : Fork) (path : String) : Prop := F.Reads F.base.productsGroup path

namespace TwinsAt

theorem product?_eq (h : F.TwinsAt t p q) (hread : F.ReadsProduct path) :
    q.product? path = p.product? path := by
  rw [product?_eq_fileIn, product?_eq_fileIn, h.productsGroup, h.growsLeft.productsGroup,
    h.files _ path hread]

theorem inStep_productOrNew (h : F.TwinsAt t p q) (hread : F.ReadsProduct path) (type : FileType) :
    InStep (F.TwinsAt t) (productOrNew path type) p q := by
  have hsame := h.product?_eq hread
  have hfind' := findProduct_eq h.right.wellFormed path
  rw [hsame] at hfind'
  refine .bind_read (findProduct_eq h.left.wellFormed path) hfind' ?_
  cases hf : p.product? path with
  | some f => exact .pure f h
  | none =>
    have hdue := due_product h.left.wellFormed hf type
    have hdue' := due_product h.right.wellFormed (hsame.trans hf) type
    rw [h.productsGroup] at hdue'
    refine Edit.inStep_register (b := ⟨(Content.file (.product path type)).id, .product path type⟩)
      hdue hdue' rfl rfl ?_ fun hfresh hfresh' => h.apply hdue hdue' hfresh hfresh' (by rintro u l ⟨⟩)
    rw [← h.productsGroup]
    rfl

theorem inStep_newProductReference (h : F.TwinsAt t p q) {name : String} {kind : TargetKind}
    (hread : F.ReadsProduct (productPath name kind)) :
    InStep (F.TwinsAt t) (newProductReference t name kind) p q := by
  rw [newProductReference_eq]
  refine (h.inStep_productOrNew hread _).bind fun f p' q' hs hu h' => ?_
  obtain ⟨-, hf⟩ := Leads.of_ok (performs_productOrNew h.left.wellFormed t _ _) hs
  obtain ⟨-, hf'⟩ := Leads.of_ok (performs_productOrNew h.right.wellFormed t _ _) hu
  obtain ⟨a, ha, ha', -⟩ := h'.exists_target
  obtain ⟨o, ho, -⟩ := exists_find?_of_content? ha
  obtain ⟨o', ho', -⟩ := exists_find?_of_content? ha'
  refine .bind_read (discard_of_ok (resolve_of_find? ho)) (discard_of_ok (resolve_of_find? ho')) ?_
  have hdue := due_productReference h'.left.wellFormed ha hf
  have hdue' := due_productReference h'.right.wellFormed ha' hf'
  refine InStep.bind (.of_ok (withProductReference_eq t _ p') (withProductReference_eq t _ q')
    (h'.apply_of_new?_eq_none hdue hdue' rfl)) fun _ _ _ _ _ h'' => .pure f h''

theorem inStep_linkDependencies (h : F.TwinsAt t p q) {dependencies : Option (List String)}
    (hread : ∀ n ∈ frameworkNames dependencies, F.ReadsProduct n) :
    InStep (F.TwinsAt t) (linkDependencies t dependencies) p q := by
  have hproducts : ∀ n ∈ frameworkNames dependencies, q.product? n = p.product? n :=
    fun n hn => h.product?_eq (hread n hn)
  have hknown : q.known (frameworkNames dependencies) = p.known (frameworkNames dependencies) :=
    List.filterMap_congr fun n hn => by rw [hproducts n hn]
  have hthird : q.thirdParty (frameworkNames dependencies) =
      p.thirdParty (frameworkNames dependencies) :=
    List.filter_congr fun n hn => by rw [hproducts n hn]
  have hpartition' := partitionNames_eq h.right.wellFormed (frameworkNames dependencies)
  rw [hknown, hthird] at hpartition'
  refine .bind_read (partitionNames_eq h.left.wellFormed _) hpartition' ?_
  have hloop : InStep (fun p' q' => F.TwinsAt t p' q' ∧ p.Grows p' ∧ q.Grows q')
      ((p.known (frameworkNames dependencies)).forM
        fun x : String × Identified FileReference => addFileToPhase t .frameworks x.2) p q := by
    refine .forM ?_ ⟨h, .refl p, .refl q⟩
    rintro ⟨n, f⟩ hmem p' q' ⟨h', hpp', hqq'⟩
    obtain ⟨hn, hf⟩ := mem_known.1 hmem
    have hfile := hpp'.file (content?_of_product? hf).1
    have hfile' := hqq'.file (content?_of_product? ((hproducts n hn).trans hf)).1
    obtain ⟨a, ha, ha', -⟩ := h'.exists_target
    refine (h'.inStep_addFileToPhase .frameworks hfile hfile' none).mono
      fun _ p'' q'' hs hu h'' => ⟨h'', hpp'.trans ?_, hqq'.trans ?_⟩
    · exact (Leads.of_ok (performs_addFileToPhase h'.left.wellFormed ha .frameworks hfile none)
        hs).1.grows
    · exact (Leads.of_ok (performs_addFileToPhase h'.right.wellFormed ha' .frameworks hfile' none)
        hu).1.grows
  exact hloop.bind fun _ _ _ _ _ h' => .pure _ h'.1

end TwinsAt
end Fork
end ProjectGraph
