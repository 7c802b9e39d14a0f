import ProjectGraph.Proofs.Keys.Linking
import ProjectGraph.Proofs.Runs.Clash
import ProjectGraph.Proofs.Runs.Linking

/-! # Known and third-party dependencies

Linking tells the dependencies of a target apart: what the project has made it links, in the order in
which it is named, and the names of the others it returns. -/

namespace ProjectGraph

open Project

section

variable [IdScheme] {p : Project} {t : ObjectId} {a : NativeTarget}

/-- A child of the group of products with this path. -/
def Project.IsProduct (p : Project) (path : String) (i : ObjectId) : Prop :=
  p.Parent i p.productsGroup ∧ ∃ f, p.content? i = some (.file f) ∧ f.path = path

theorem Project.isProduct_of_product? (hp : p.WellFormed) {path : String}
    {f : Identified FileReference} (h : p.product? path = some f) : p.IsProduct path f.id := by
  obtain ⟨g, hg⟩ := hp.productsGroup
  obtain ⟨hfile, hpath⟩ := content?_of_product? h
  rw [product?, products_of_group hg] at h
  obtain ⟨r, hr, hid, -⟩ := exists_of_first h
  exact ⟨⟨g, hg, hid ▸ List.mem_map_of_mem hr⟩, _, hfile, hpath⟩

/-- If ids tell keys apart, each target of a reachable project can be linked with any dependencies. Each
name that they stand for is either returned, if it is the path of no product, or the first product with
this path is linked. -/
theorem Reachable.partitions_dependencies (hinj : Function.Injective IdScheme.ofKey) (h : Reachable p)
    (ha : p.content? t = some (.target a)) (dependencies : Option (List String)) :
    ∃ missing q, linkDependencies t dependencies p = .ok missing q ∧
      missing = (frameworkNames dependencies).filter (fun n => (p.product? n).isNone) ∧
      p.Linked q t a (frameworkNames dependencies) ∧
      (∀ n ∈ frameworkNames dependencies, Xor
        (n ∈ missing ∧ ∀ i, ¬ p.IsProduct n i)
        (∃ f, p.product? n = some f ∧ p.IsProduct n f.id ∧ f.id ∈ q.filesIn t .frameworks)) ∧
      (dependencies = none → missing = [] ∧ q = p) := by
  obtain ⟨q, hlink, hlinked, hsame⟩ :=
    exists_linkDependencies hinj h.wellFormed h.owned ha dependencies
  refine ⟨_, q, hlink, rfl, hlinked, ?_, ?_⟩
  · intro n hn
    cases hf : p.product? n with
    | none =>
      refine .inl ⟨⟨mem_thirdParty.2 ⟨hn, hf⟩, ?_⟩, by simp⟩
      rintro i ⟨hparent, f, hfile, hpath⟩
      exact (product?_ne_none_iff h.wellFormed).2 ⟨i, f, hparent, hfile, hpath⟩ hf
    | some f =>
      refine .inr ⟨⟨f, rfl, isProduct_of_product? h.wellFormed hf, hlinked.holds hn hf⟩, ?_⟩
      rintro ⟨-, hnone⟩
      exact hnone _ (isProduct_of_product? h.wellFormed hf)
  · rintro rfl
    exact ⟨rfl, hsame (by simp [frameworkNames])⟩

end

/-- Dependencies with repeats, of which the last one spells out the first one. -/
def repeatedDependencies : List String := ["App", "Lib", "App.framework", "Lib"]

/-- A framework that has just been built can be linked with itself, once. -/
theorem partitions_of_repeatedDependencies :
    letI : IdScheme := spelledScheme
    ∃ (p : Project) (app : Attempt) (t product : ObjectId) (a : NativeTarget) (q : Project),
      Project.ofValue "App" (.text "Debug") = .ok p ∧ app = firstBuild (bareFramework "App" []) p ∧
      app.after.project.content? t = some (.target a) ∧
      linkDependencies t repeatedDependencies app.after.project =
        .ok ["Lib.framework", "Lib.framework"] q ∧
      app.after.project.Linked q t a (frameworkNames repeatedDependencies) ∧
      app.after.project.filesIn t .frameworks = [] ∧ q.filesIn t .frameworks = [product] := by
  let _ : IdScheme := spelledScheme
  let t := IdScheme.ofKey "PBXNativeTarget:App"
  let product := IdScheme.ofKey "PBXFileReference:BUILT_PRODUCTS_DIR:App.framework"
  let names := frameworkNames repeatedDependencies
  have hbuilt : (Project.ofValue "App" (.text "Debug")).toOption.any fun p =>
      let q := (firstBuild (bareFramework "App" []) p).after.project
      ((q.content? t).bind Content.target?).isSome ∧ q.filesIn t .frameworks = [] ∧
        q.productsNamed names = [product, product] ∧
        (names.filter fun n => (q.product? n).isNone) = ["Lib.framework", "Lib.framework"] := by
    decide +kernel
  obtain ⟨p, hnew, hp⟩ := Project.exists_of_ofValue hbuilt
  obtain ⟨htarget, hfiles, hproducts, hmissing⟩ := of_decide_eq_true hp
  let app := firstBuild (bareFramework "App" []) p
  have happ : Reachable app.after.project :=
    .move (.new hnew) (.build app.before (bareFramework "App" []))
  obtain ⟨a, ha⟩ := Option.isSome_iff_exists.1 htarget
  have hc := content?_of_target? ha
  obtain ⟨missing, q, hlink, rfl, hlinked, -⟩ :=
    happ.partitions_dependencies ofKey_spelledScheme_injective hc (some repeatedDependencies)
  refine ⟨p, app, t, product, a, q, hnew, rfl, hc, ?_, hlinked, hfiles, ?_⟩
  · rw [← hmissing]
    exact hlink
  · rw [hlinked.files, hfiles, hproducts]
    rfl

end ProjectGraph
