import ProjectGraph.Build.Dependencies
import ProjectGraph.Proofs.Digest
import ProjectGraph.Proofs.Operations.Products
import ProjectGraph.Proofs.Operations.Targets
import ProjectGraph.Proofs.Ownership.Start
import ProjectGraph.Proofs.Text.Extensions

/-! # File names of frameworks

A dependency names a framework with or without its extension. Whether the extension is found again once it
has been put after a name depends on what the name looks like, and so does whether a dependency that is
spelled as a target is meets the product of this target. -/

namespace ProjectGraph

variable {s : String}

theorem baseNameChars_append_frameworkExtension (s : String) :
    Text.baseNameChars (s ++ frameworkExtension).toList =
      Text.baseNameChars s.toList ++ '.' :: "framework".toList := by
  rw [String.toList_append]
  exact Text.baseNameChars_append_of_not_mem s.toList (by decide)

theorem extensionOf_append_frameworkExtension (h : ∃ c ∈ (Text.baseNameOf s).toList, c ≠ '.') :
    Text.extensionOf (s ++ frameworkExtension) = frameworkExtension := by
  rw [Text.baseNameOf, String.toList_ofList] at h
  rw [Text.extensionOf, baseNameChars_append_frameworkExtension,
    Text.baseNameExtension_append h (by decide)]
  rfl

theorem extensionOf_append_frameworkExtension_of_dots (h : ∀ c ∈ (Text.baseNameOf s).toList, c = '.') :
    Text.extensionOf (s ++ frameworkExtension) = "" := by
  rw [Text.baseNameOf, String.toList_ofList] at h
  rw [Text.extensionOf, baseNameChars_append_frameworkExtension,
    Text.baseNameExtension_append_of_dots h (by decide)]

/-- A name with an extension has more than dots. -/
theorem exists_ne_dot_of_extensionOf (h : Text.extensionOf s = frameworkExtension) :
    ∃ c ∈ (Text.baseNameOf s).toList, c ≠ '.' := by
  by_contra hdots
  push Not at hdots
  rw [Text.baseNameOf, String.toList_ofList] at hdots
  rw [Text.extensionOf, Text.baseNameExtension_of_dots hdots] at h
  exact absurd h (by decide)

theorem append_frameworkExtension_ne (s : String) : s ++ frameworkExtension ≠ s := by
  intro h
  have hlength := congrArg String.length h
  rw [String.length_append] at hlength
  have : frameworkExtension.length = 10 := by decide
  omega

theorem frameworkName_cases (s : String) :
    (Text.extensionOf s = frameworkExtension ∧ frameworkName s = s) ∨
      (Text.extensionOf s ≠ frameworkExtension ∧ frameworkName s = s ++ frameworkExtension) := by
  unfold frameworkName
  split
  · next h => exact .inl ⟨h, rfl⟩
  · next h => exact .inr ⟨h, rfl⟩

theorem exists_frameworkName_eq (s : String) : ∃ stem, frameworkName s = stem ++ frameworkExtension := by
  rcases frameworkName_cases s with ⟨hext, hname⟩ | ⟨-, hname⟩
  · obtain ⟨stem, hstem⟩ := Text.exists_append_extensionOf s
    exact ⟨stem, by rw [hname, hstem.trans (congrArg _ hext)]⟩
  · exact ⟨s, hname⟩

/-- The file name of a framework is its own file name, unless it has been made of a name of dots alone. -/
theorem frameworkName_frameworkName (s : String) :
    frameworkName (frameworkName s) = frameworkName s ↔ ∃ c ∈ (Text.baseNameOf s).toList, c ≠ '.' := by
  rcases frameworkName_cases s with ⟨hext, hname⟩ | ⟨-, hname⟩
  · rw [hname]
    exact iff_of_true hname (exists_ne_dot_of_extensionOf hext)
  · rw [hname]
    constructor
    · intro hsame
      by_contra hdots
      push Not at hdots
      rw [frameworkName, extensionOf_append_frameworkExtension_of_dots hdots,
        if_neg (by decide)] at hsame
      exact append_frameworkExtension_ne _ hsame
    · intro h
      rw [frameworkName, if_pos (extensionOf_append_frameworkExtension h)]

namespace Project

/-- A framework target is named by its dependents as it names its product, unless its own name has the
extension already. -/
theorem productPath_eq_frameworkName_iff (name : String) :
    productPath name .framework = frameworkName name ↔ Text.extensionOf name ≠ frameworkExtension := by
  have hpath : productPath name .framework = name ++ frameworkExtension := rfl
  rcases frameworkName_cases name with ⟨hext, hname⟩ | ⟨hext, hname⟩
  · rw [hpath, hname]
    exact iff_of_false (append_frameworkExtension_ne name) (not_not_intro hext)
  · rw [hpath, hname]
    exact iff_of_true rfl hext

section

variable [IdScheme] {p q : Project} {t : ObjectId} {a : NativeTarget} {f : Identified FileReference}
  {name : String}

/-- A dependency that is spelled as the target is finds the product that the target has been given. -/
theorem findProduct_frameworkName_iff (hp : p.WellFormed) (ha : p.content? t = some (.target a))
    (h : newProductReference t name .framework p = .ok f q) :
    findProduct (frameworkName name) q = .ok (some f) q ↔
      Text.extensionOf name ≠ frameworkExtension := by
  obtain ⟨hpath, -, hproduct⟩ := Leads.of_ok (performs_newProductReference hp ha name .framework) h
  rw [findProduct_eq (hpath.wellFormed hp), ← productPath_eq_frameworkName_iff]
  constructor
  · intro hfound
    have hsame : q.product? (frameworkName name) = some f := by simpa using hfound
    rw [← (content?_of_product? hproduct).2, (content?_of_product? hsame).2]
  · intro hpath
    rw [← hpath, hproduct]

end
end Project

/-- The file name of a framework ends in the extension, which is put at the end if it is not there. Doing so
again changes nothing unless the name has dots only. A framework target and those that depend on it agree
on the file name, unless the name of the target has the extension already. -/
theorem frameworkName_normal [IdScheme] (s : String) :
    (∃ stem, frameworkName s = stem ++ ".framework") ∧
      (frameworkName s = s ∨ frameworkName s = s ++ ".framework") ∧
      (frameworkName (frameworkName s) = frameworkName s ↔
        ∃ c ∈ (Text.baseNameOf s).toList, c ≠ '.') ∧
      (Project.productPath s .framework = frameworkName s ↔ Text.extensionOf s ≠ ".framework") ∧
      ∀ p q t a f, p.WellFormed → p.content? t = some (.target a) →
        Project.newProductReference t s .framework p = .ok f q →
          (Project.findProduct (frameworkName s) q = .ok (some f) q ↔
            Text.extensionOf s ≠ ".framework") :=
  ⟨exists_frameworkName_eq s, (frameworkName_cases s).imp And.right And.right,
    frameworkName_frameworkName s, Project.productPath_eq_frameworkName_iff s,
    fun _ _ _ _ _ hp ha h => Project.findProduct_frameworkName_iff hp ha h⟩

/-- A framework is found by its name. One whose name has the extension already is not. -/
theorem frameworkName_normal_of_core :
    ∃ p q q' t t' f f', Project.newProductReference t "Core" .framework p = .ok f q ∧
      Project.findProduct (frameworkName "Core") q = .ok (some f) q ∧
      Project.newProductReference t' "Utils.framework" .framework p = .ok f' q' ∧
      Project.findProduct (frameworkName "Utils.framework") q' ≠ .ok (some f') q' := by
  let t := (Content.target { name := "Core", kind := .framework }).id
  let t' := (Content.target { name := "Utils.framework", kind := .framework }).id
  have hmade : (Project.ofValue "Demo" (.text "Debug")).toOption.any fun p =>
      let p₁ := stateAfter (Project.newNativeTarget "Core" .framework) p
      let p₂ := stateAfter (Project.newNativeTarget "Utils.framework" .framework) p₁
      ((p₂.content? t).bind Content.target?).isSome ∧ ((p₂.content? t').bind Content.target?).isSome ∧
        failureOf (Project.newProductReference t "Core" .framework) p₂ = none ∧
          failureOf (Project.newProductReference t' "Utils.framework" .framework) p₂ = none := by
    rw [ObjectId.digestScheme_eq]
    decide +kernel
  obtain ⟨p, hnew, hp⟩ := Project.exists_of_ofValue hmade
  obtain ⟨hcore, hutils, hproduct, hproduct'⟩ := of_decide_eq_true hp
  obtain ⟨a, ha⟩ := Option.isSome_iff_exists.1 hcore
  obtain ⟨a', ha'⟩ := Option.isSome_iff_exists.1 hutils
  obtain ⟨f, hf⟩ := exists_of_failureOf_eq_none hproduct
  obtain ⟨f', hf'⟩ := exists_of_failureOf_eq_none hproduct'
  have hp₀ := (Project.wellFormed_of_ofValue hnew).1
  have hp₁ := (Project.performs_newNativeTarget hp₀ "Core" .framework).outcome.1.wellFormed hp₀
  have hp₂ := (Project.performs_newNativeTarget hp₁ "Utils.framework" .framework).outcome.1.wellFormed hp₁
  obtain ⟨-, -, -, -, hfound⟩ := frameworkName_normal "Core"
  obtain ⟨-, -, -, -, hmissed⟩ := frameworkName_normal "Utils.framework"
  refine ⟨_, _, _, t, t', f, f', hf, ?_, hf', ?_⟩
  · exact (hfound _ _ t a f hp₂ (Project.content?_of_target? ha) hf).2 (by decide)
  · exact mt (hmissed _ _ t' a' f' hp₂ (Project.content?_of_target? ha') hf').1 (by decide)

end ProjectGraph
