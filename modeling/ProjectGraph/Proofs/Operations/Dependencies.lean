import ProjectGraph.Proofs.Operations.Products

/-! # Dependencies of a target -/

namespace ProjectGraph.Project

variable {p q : Project} {t : ObjectId} {names : List String}

/-- The file names of the frameworks that the dependencies name. -/
def frameworkNames (dependencies : Option (List String)) : List String :=
  (dependencies.getD []).map frameworkName

/-- The names that are no products of the project. -/
def thirdParty (p : Project) (names : List String) : List String :=
  names.filter fun n => (p.product? n).isNone

/-- The names that are products of the project, with the products. -/
def known (p : Project) (names : List String) : List (String × Identified FileReference) :=
  names.filterMap fun n => (p.product? n).map fun f => (n, f)

theorem mem_known {n : String} {f : Identified FileReference} :
    (n, f) ∈ p.known names ↔ n ∈ names ∧ p.product? n = some f := by
  constructor
  · intro h
    obtain ⟨m, hm, hf⟩ := List.mem_filterMap.1 h
    obtain ⟨g, hg, heq⟩ := Option.map_eq_some_iff.1 hf
    cases heq
    exact ⟨hm, hg⟩
  · rintro ⟨hn, hf⟩
    exact List.mem_filterMap.2 ⟨n, hn, by rw [hf]; rfl⟩

theorem mem_thirdParty {n : String} : n ∈ p.thirdParty names ↔ n ∈ names ∧ p.product? n = none := by
  simp [thirdParty]

variable [IdScheme]

theorem partitionNames_eq (hp : p.WellFormed) (names : List String) :
    partitionNames names p = .ok ⟨p.known names, p.thirdParty names⟩ p := by
  induction names with
  | nil => rfl
  | cons n names ih =>
    rw [partitionNames, bind_of_ok (findProduct_eq hp n)]
    cases hf : p.product? n with
    | some f =>
      simp only
      rw [bind_of_ok ih]
      simp only [known, thirdParty, List.filterMap_cons, List.filter_cons, hf]
      rfl
    | none =>
      simp only
      rw [bind_of_ok ih]
      simp only [known, thirdParty, List.filterMap_cons, List.filter_cons, hf]
      rfl

/-- The target links each of the names that is a product. -/
def Links (p : Project) (t : ObjectId) (names : List String) : Prop :=
  ∀ n ∈ names, ∀ f, p.product? n = some f → p.Holds t .frameworks f.id

/-- Linked frameworks are not linked again. -/
theorem linkDependencies_of_links (hp : p.WellFormed) {dependencies : Option (List String)}
    (h : p.Links t (frameworkNames dependencies)) :
    linkDependencies t dependencies p = .ok (p.thirdParty (frameworkNames dependencies)) p := by
  have hpartition : partitionDependencies dependencies p =
      .ok ⟨p.known (frameworkNames dependencies), p.thirdParty (frameworkNames dependencies)⟩ p :=
    partitionNames_eq hp _
  have hloop : (p.known (frameworkNames dependencies)).forM
      (fun x : String × Identified FileReference => addFileToPhase t .frameworks x.2) p =
      .ok ⟨⟩ p := by
    refine forM_of_ok ?_
    rintro ⟨n, f⟩ hmem
    obtain ⟨hn, hf⟩ := mem_known.1 hmem
    exact addFileToPhase_of_holds hp (h n hn f hf) none
  rw [linkDependencies, bind_of_ok hpartition, bind_of_ok hloop]
  rfl

/-- The steps that put products with these paths into a target's phase of frameworks. -/
def LinkingSteps (t : ObjectId) (owner : String) (names : List String) (q : Project) (s : Step) : Prop :=
  ∃ n ∈ names, ∃ f, q.product? n = some f ∧ FileSteps t owner .frameworks f.id none q s

theorem performs_linkDependencies (hp : p.WellFormed) {a : NativeTarget}
    (ha : p.content? t = some (.target a)) (dependencies : Option (List String)) :
    Edit.Performs (LinkingSteps t a.name (frameworkNames dependencies))
      (linkDependencies t dependencies) p fun names q =>
      names = p.thirdParty (frameworkNames dependencies) ∧
        ∀ n ∈ frameworkNames dependencies, ∀ f, p.product? n = some f →
          q.Holds t .frameworks f.id := by
  refine .bind_read (partitionNames_eq hp (frameworkNames dependencies)) ?_
  have hloop : Edit.Performs (LinkingSteps t a.name (frameworkNames dependencies))
      ((p.known (frameworkNames dependencies)).forM
        fun x : String × Identified FileReference => addFileToPhase t .frameworks x.2) p
      fun _ (q : Project) => ∀ x ∈ p.known (frameworkNames dependencies),
        q.Holds t .frameworks x.2.id := by
    refine .forM (K := fun (x : String × Identified FileReference) (q : Project) =>
      q.Holds t .frameworks x.2.id) ?_ ?_
    · rintro ⟨n, f⟩ hmem q hpq
      obtain ⟨hn, hf⟩ := mem_known.1 hmem
      obtain ⟨hfile, -⟩ := content?_of_product? hf
      obtain ⟨b, hb, hname, -⟩ := hpq.grows.target ha
      rw [← hname]
      refine (performs_addFileToPhase (hpq.wellFormed hp) hb .frameworks (hpq.grows.file hfile)
        none).restrict fun r s hpath _ h => ⟨n, hn, f, ?_, h⟩
      exact product?_of_grows hp hf (hpq.grows.trans hpath.grows)
    · exact fun x q q' hpq h hpath => h.grows (hpq.wellFormed hp) hpath.grows
  refine hloop.bind fun _ q _ h => .of_ok rfl ⟨rfl, fun n hn f hf => ?_⟩
  exact h (n, f) (mem_known.2 ⟨hn, hf⟩)

end ProjectGraph.Project
