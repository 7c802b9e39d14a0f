import ProjectGraph.Proofs.Builds.Owners
import ProjectGraph.Proofs.Digest
import ProjectGraph.Proofs.Runs.Linking

/-! # Kinds over runs

The kind of a target is told three times: by the target, by the path of its product, and by the entries
that schemes have for it. A run that declares the target anew, with another kind, sets its product anew.
The target itself keeps the kind that it has been registered with, and schemes keep the entries that
they have. So the three agree as long as all builds of the target declare the same kind. -/

namespace ProjectGraph

open Project

section

variable [IdScheme] {p q : Project} {d : Target} {t : ObjectId} {b : NativeTarget} {as : List Attempt}
  {name : String} {e : BuildableReference}

/-! ## Where kinds come from -/

/-- A target keeps its product through a build, or it is the target that is built. -/
theorem Path.productReference_of_inBuild {r : Reference} (hpq : Path (InBuild d) p q)
    (hp : p.WellFormed) (hb : q.content? t = some (.target b)) (hr : b.productReference = some r) :
    (∃ c, p.content? t = some (.target c) ∧ c.name = b.name ∧ c.productReference = some r) ∨
      (b.name = d.name ∧ ∃ f, q.product? d.productPath = some f ∧ r = ⟨f.id, some d.productPath⟩) := by
  induction hpq generalizing b with
  | refl => exact .inl ⟨b, hb, rfl, hr⟩
  | @step q s path due fresh allowed ih =>
    have hq := path.wellFormed hp
    have hgrow := Step.grows_apply due
    rcases Step.content?_apply_cases hb with ⟨c, hc, hrevised⟩ | ⟨c, hnew, rfl, hrevised⟩
    · have hcontent := Step.grows_reviseContent due hc
      rw [← hrevised] at hcontent
      cases hcontent with
      | target hname =>
        rcases productReference_reviseContent hrevised.symm with hsame | ⟨r', rfl, hset⟩
        · refine (ih hc (hsame.symm.trans hr)).imp ?_ ?_
          · rintro ⟨c₀, hc₀, hname₀, hr₀⟩
            exact ⟨c₀, hc₀, hname₀.trans hname.symm, hr₀⟩
          · rintro ⟨hname₀, f, hf, hfile⟩
            exact ⟨hname.trans hname₀, f, product?_of_grows hq hf hgrow, hfile⟩
        · rw [hset] at hr
          cases hr
          cases allowed with
          | product target first =>
            exact .inr ⟨IsNamed.unique ⟨_, hc, hname.symm⟩ target, _, product?_of_grows hq first hgrow, rfl⟩
    · rw [Step.reviseContent_new hq due fresh hnew] at hrevised
      subst hrevised
      cases allowed with
      | target =>
        cases hnew
        cases hr
      | _ => cases hnew

/-- A target has the product that a build of it has declared. -/
theorem Trace.exists_product {r : Reference} (h : Trace p as q) (hp : p.WellFormed)
    (hnone : ∀ u c, p.content? u ≠ some (.target c)) (hb : q.content? t = some (.target b))
    (hr : b.productReference = some r) : ∃ a ∈ as, a.target.name = b.name ∧
      ∃ f, q.product? a.target.productPath = some f ∧ r = ⟨f.id, some a.target.productPath⟩ := by
  induction h generalizing b with
  | refl => exact absurd hb (hnone t b)
  | build a trace ih =>
    have ha := trace.wellFormed hp
    have hpath := a.path ha
    have hbuild := hpath.mono fun _ _ h => h.inBuild
    rcases hbuild.productReference_of_inBuild ha hb hr with ⟨c, hc, hname, hr'⟩ | ⟨hname, hproduct⟩
    · rw [← hname]
      obtain ⟨a', ha', hname', f, hf, hfile⟩ := ih hc hr'
      exact ⟨a', List.mem_append_left _ ha', hname', f, product?_of_grows ha hf hpath.grows, hfile⟩
    · exact ⟨a, by simp, hname.symm, hproduct⟩
  | schemes trace path ih =>
    rw [content?_of_path_schemeSteps (path.mono fun _ _ h => h.schemeSteps)] at hb
    obtain ⟨a, ha, hname, f, hf, hfile⟩ := ih hb hr
    exact ⟨a, ha, hname, f, product?_of_grows (trace.wellFormed hp) hf path.grows, hfile⟩

/-! ## Where entries of schemes come from -/

/-- What schemes mention is a target, with the product that a build of it has declared. -/
theorem Trace.mentions (h : Trace p as q) (hp : p.WellFormed)
    (hnone : ∀ u c, p.content? u ≠ some (.target c)) (hm : q.Mentions name e) :
    p.Mentions name e ∨ ∃ a ∈ as, q.IsNamed e.target a.target.name ∧
      e.productName = some a.target.productPath := by
  induction h with
  | refl => exact .inl hm
  | build a trace ih =>
    have ha := trace.wellFormed hp
    have hpath := a.path ha
    have hold : a.before.project.Mentions name e := by
      unfold Mentions at hm ⊢
      rwa [hpath.schemes_of_buildStep] at hm
    refine (ih hold).imp_right ?_
    rintro ⟨a', ha', hnamed, hproduct⟩
    exact ⟨a', List.mem_append_left _ ha', hnamed.grows hpath.grows, hproduct⟩
  | @schemes as q r n trace path ih =>
    have hq := trace.wellFormed hp
    rcases path.mentions hm with hold | ⟨q', s, hfirst, hrest, hstep, hnew⟩
    · refine (ih hold).imp_right ?_
      rintro ⟨a, ha, hnamed, hproduct⟩
      exact ⟨a, ha, hnamed.grows path.grows, hproduct⟩
    · obtain ⟨b, hb, hproduct, hentry⟩ := hstep.shows name e hnew
      obtain ⟨r', hr⟩ := Option.isSome_iff_exists.1 hproduct
      obtain ⟨a, ha, hname, f, hf, rfl⟩ := (trace.schemes hfirst).exists_product hp hnone hb hr
      refine .inr ⟨a, ha, IsNamed.grows ⟨b, hb, hname.symm⟩ hrest.grows, ?_⟩
      obtain ⟨hfile, hpath⟩ := content?_of_product? hf
      rw [hentry, buildableOf, productNameOf, hr]
      simp [hfile, Content.file?, hpath]

theorem Project.not_target_of_ofValue {value : Value} {c : NativeTarget}
    (h : ofValue name value = .ok p) : p.content? t ≠ some (.target c) := by
  intro hc
  obtain ⟨names, h⟩ := exists_create_of_ofValue h
  exact isInitial_of_create h hc

namespace BuildHistory

/-- A target has the product that a build of it has declared. -/
theorem exists_product {r : Reference} (h : BuildHistory as q) (hb : q.content? t = some (.target b))
    (hr : b.productReference = some r) : ∃ a ∈ as, a.target.name = b.name ∧
      ∃ f, q.product? a.target.productPath = some f ∧ r = ⟨f.id, some a.target.productPath⟩ := by
  obtain ⟨_, _, p, hnew, htrace⟩ := h.exists_trace
  exact htrace.exists_product (regular_of_ofValue hnew).wellFormed
    (fun _ _ => not_target_of_ofValue hnew) hb hr

/-- What schemes mention is a target, with the product that a build of it has declared. -/
theorem mentions (h : BuildHistory as q) (hm : q.Mentions name e) :
    ∃ a ∈ as, q.IsNamed e.target a.target.name ∧ e.productName = some a.target.productPath := by
  obtain ⟨_, _, p, hnew, htrace⟩ := h.exists_trace
  have hp := regular_of_ofValue hnew
  refine (htrace.mentions hp.wellFormed (fun _ _ => not_target_of_ofValue hnew) hm).resolve_left ?_
  rintro ⟨s, hs, -, he⟩
  obtain ⟨c, hc⟩ := hp.sound.scheme s hs e he
  exact not_target_of_ofValue hnew hc

end BuildHistory

/-! ## What a run leaves of its targets -/

end

/-! ## A target that changes its kind -/

end ProjectGraph
