import ProjectGraph.Proofs.Registry.First

/-! # Reading a well-formed project

In a well-formed project nothing that is read is missing or of another type, so each search returns
what comes first. -/

namespace ProjectGraph.Project

variable {p : Project} {i : ObjectId} {r : Reference}

/-! ## What links lead to -/

namespace WellFormed

variable [IdScheme]

theorem target_of_mem (hp : p.WellFormed) {a : ProjectRecord} (ha : p.content? i = some (.project a))
    (hr : r ∈ a.targets) : ∃ t, p.content? r.id = some (.target t) := by
  obtain ⟨c, hc, hfits⟩ := hp.resolves i _ ha ⟨.target, r⟩ (by simp [Content.links, hr])
  cases c <;> cases hfits
  exact ⟨_, hc⟩

theorem phase_of_mem (hp : p.WellFormed) {t : NativeTarget} (ht : p.content? i = some (.target t))
    (hr : r ∈ t.buildPhases) : ∃ q, p.content? r.id = some (.phase q) := by
  obtain ⟨c, hc, hfits⟩ := hp.resolves i _ ht ⟨.buildPhase, r⟩ (by simp [Content.links, hr])
  cases c <;> cases hfits
  exact ⟨_, hc⟩

theorem buildFile_of_mem (hp : p.WellFormed) {q : BuildPhase} (hq : p.content? i = some (.phase q))
    (hr : r ∈ q.files) : ∃ f, p.content? r.id = some (.buildFile f) := by
  obtain ⟨c, hc, hfits⟩ := hp.resolves i _ hq ⟨.phaseFile, r⟩ (by simp [Content.links, hr])
  cases c <;> cases hfits
  exact ⟨_, hc⟩

theorem file_of_buildFile (hp : p.WellFormed) {f : BuildFile}
    (hf : p.content? i = some (.buildFile f)) : ∃ g, p.content? f.file.id = some (.file g) := by
  obtain ⟨c, hc, hfits⟩ := hp.resolves i _ hf ⟨.file, f.file⟩ (by simp [Content.links])
  cases c <;> cases hfits
  exact ⟨_, hc⟩

theorem configurationList_of_target (hp : p.WellFormed) {t : NativeTarget}
    (ht : p.content? i = some (.target t)) (hr : t.configurationList = some r) :
    ∃ l, p.content? r.id = some (.configurationList l) := by
  obtain ⟨c, hc, hfits⟩ := hp.resolves i _ ht ⟨.configurationList, r⟩ (by simp [Content.links, hr])
  cases c <;> cases hfits
  exact ⟨_, hc⟩

theorem configuration_of_mem (hp : p.WellFormed) {l : ConfigurationList}
    (hl : p.content? i = some (.configurationList l)) (hr : r ∈ l.configurations) :
    ∃ c, p.content? r.id = some (.configuration c) := by
  obtain ⟨c, hc, hfits⟩ := hp.resolves i _ hl ⟨.configuration, r⟩ (by simp [Content.links, hr])
  cases c <;> cases hfits
  exact ⟨_, hc⟩

theorem product_of_target (hp : p.WellFormed) {t : NativeTarget}
    (ht : p.content? i = some (.target t)) (hr : t.productReference = some r) :
    ∃ f, p.content? r.id = some (.file f) := by
  obtain ⟨c, hc, hfits⟩ := hp.resolves i _ ht ⟨.product, r⟩ (by simp [Content.links, hr])
  cases c <;> cases hfits
  exact ⟨_, hc⟩

/-- Well-formed projects with one content under an id have one object under it. -/
theorem find?_eq {q : Project} (hp : p.WellFormed) (hq : q.WellFormed)
    (h : q.content? i = p.content? i) : q.find? i = p.find? i := by
  cases ho : p.find? i with
  | some o =>
    rw [content?_of_find? ho] at h
    obtain ⟨o', ho', hcontent⟩ := exists_find?_of_content? h
    have hattached : o'.attached = o.attached := by
      rw [hp.attached o (List.mem_of_find?_eq_some ho), hq.attached o' (List.mem_of_find?_eq_some ho')]
    have hid : o'.id = o.id := by rw [id_of_find? ho, id_of_find? ho']
    obtain ⟨i, c, attached⟩ := o
    obtain ⟨i', c', attached'⟩ := o'
    cases hid
    cases hcontent
    cases hattached
    exact ho'
  | none => rw [find?_eq_none_iff, h, ← find?_eq_none_iff, ho]

/-! A list of references can be gone through from its start to its end. -/

theorem isSome_of_targets (hp : p.WellFormed) {a : ProjectRecord}
    (ha : p.content? i = some (.project a)) : ∀ r ∈ a.targets, (p.content? r.id).isSome := by
  intro r hr
  obtain ⟨t, ht⟩ := hp.target_of_mem ha hr
  exact Option.isSome_of_eq_some ht

theorem isSome_of_phases (hp : p.WellFormed) {t : NativeTarget}
    (ht : p.content? i = some (.target t)) : ∀ r ∈ t.buildPhases, (p.content? r.id).isSome := by
  intro r hr
  obtain ⟨q, hq⟩ := hp.phase_of_mem ht hr
  exact Option.isSome_of_eq_some hq

theorem isSome_of_files (hp : p.WellFormed) {q : BuildPhase} (hq : p.content? i = some (.phase q)) :
    ∀ r ∈ q.files, (p.content? r.id).isSome := by
  intro r hr
  obtain ⟨f, hf⟩ := hp.buildFile_of_mem hq hr
  exact Option.isSome_of_eq_some hf

theorem isSome_of_children (hp : p.WellFormed) {g : Group} (hg : p.content? i = some (.group g)) :
    ∀ r ∈ g.children, (p.content? r.id).isSome := by
  intro r hr
  obtain ⟨c, hc, -⟩ := hp.resolves i _ hg ⟨.child, r⟩ (by simp [Content.links, hr])
  exact Option.isSome_of_eq_some hc

end WellFormed

/-! ## What searches return -/

theorem findNamed_objectsAt {name : String} {rs : List Reference}
    (h : ∀ r ∈ rs, ∃ t, p.content? r.id = some (.target t)) :
    findNamed name (p.objectsAt rs) p =
      .ok ((p.first (Content.targetNamed? name) rs).map Identified.id) p := by
  induction rs with
  | nil => rfl
  | cons r rs ih =>
    obtain ⟨t, ht⟩ := h r (by simp)
    obtain ⟨o, ho, hot⟩ := exists_find?_of_content? ht
    have hname : viewAs Content.name? o p = .ok t.name p := by
      apply viewAs_of_eq_some
      rw [hot]
      rfl
    have hrest := ih fun r' hr => h r' (List.mem_cons_of_mem r hr)
    rw [objectsAt_cons ho, findNamed, bind_of_ok hname, first_cons, ht, Option.bind_some]
    by_cases ht : t.name = name
    · rw [if_pos ht, Content.targetNamed?_eq_some.2 ⟨rfl, ht⟩, ← id_of_find? ho]
      rfl
    · have hview : (Content.target t).targetNamed? name = none := by
        simp [Content.targetNamed?, Content.target?, ht]
      rw [if_neg ht, hview]
      exact hrest

/-- The search for a target by its name. -/
theorem targetNamed?_eq [IdScheme] (hp : p.WellFormed) {a : ProjectRecord}
    (ha : p.content? p.record = some (.project a)) (name : String) :
    targetNamed? name p =
      .ok ((p.first (Content.targetNamed? name) a.targets).map Identified.id) p := by
  have hfollow : targets p = .ok (p.objectsAt a.targets) p := by
    show (projectRecord >>= fun r => r.targets.mapM follow) p = _
    rw [bind_of_ok (projectRecord_of_content? ha)]
    exact mapM_follow (hp.isSome_of_targets ha)
  show (targets >>= findNamed name) p = _
  rw [bind_of_ok hfollow, findNamed_objectsAt fun r hr => hp.target_of_mem ha hr]

theorem findFileIn_eq {path : String} {rs : List Reference}
    (h : ∀ r ∈ rs, (p.content? r.id).isSome) :
    findFileIn path rs p = .ok (p.first (Content.fileAt? path) rs) p := by
  induction rs with
  | nil => rfl
  | cons r rs ih =>
    obtain ⟨c, hc⟩ := Option.isSome_iff_exists.1 (h r (by simp))
    obtain ⟨o, ho, hoc⟩ := exists_find?_of_content? hc
    have hrest := ih fun r' hr => h r' (List.mem_cons_of_mem r hr)
    rw [findFileIn, bind_of_ok (resolve_of_find? ho), hoc, first_cons, hc, Option.bind_some]
    cases hfile : c.file? with
    | none =>
      have hview : c.fileAt? path = none := by simp [Content.fileAt?, hfile]
      rw [hview]
      exact hrest
    | some f =>
      by_cases hpath : f.path = path
      · have hview : c.fileAt? path = some f := by simp [Content.fileAt?, hfile, hpath]
        rw [hview]
        simp only [if_pos hpath]
        rfl
      · have hview : c.fileAt? path = none := by simp [Content.fileAt?, hfile, hpath]
        rw [hview]
        simp only [if_neg hpath]
        exact hrest

/-- The search for a file in a group. -/
theorem findFileReference_eq [IdScheme] (hp : p.WellFormed) {g : Group}
    (hg : p.content? i = some (.group g)) (path : String) :
    findFileReference i path p = .ok (p.first (Content.fileAt? path) g.children) p := by
  have hgroup : heldAs Content.group? i p = .ok g p := heldAs_of_content? hg rfl
  rw [findFileReference, bind_of_ok hgroup]
  exact findFileIn_eq (hp.isSome_of_children hg)

theorem holdsFile_eq {file : ObjectId} {rs : List Reference}
    (h : ∀ r ∈ rs, ∃ f, p.content? r.id = some (.buildFile f)) :
    holdsFile file rs p = .ok (p.first (Content.buildFileOf? file) rs).isSome p := by
  induction rs with
  | nil => rfl
  | cons r rs ih =>
    obtain ⟨f, hf⟩ := h r (by simp)
    have hfile : resolveAs Content.buildFile? r.id p = .ok f p := resolveAs_of_content? hf rfl
    have hrest := ih fun r' hr => h r' (List.mem_cons_of_mem r hr)
    rw [holdsFile, bind_of_ok hfile, first_cons, hf, Option.bind_some]
    by_cases hid : f.file.id = file
    · rw [if_pos hid, Content.buildFileOf?_eq_some.2 ⟨rfl, hid⟩]
      rfl
    · have hview : (Content.buildFile f).buildFileOf? file = none := by
        simp [Content.buildFileOf?, Content.buildFile?, hid]
      rw [if_neg hid, hview]
      exact hrest

/-- The phases of a target, as objects. -/
theorem buildPhases_eq [IdScheme] (hp : p.WellFormed) {t : NativeTarget}
    (ht : p.content? i = some (.target t)) :
    buildPhases i p = .ok (p.objectsAt t.buildPhases) p := by
  rw [buildPhases, bind_of_ok (target_of_content? ht)]
  exact mapM_follow (hp.isSome_of_phases ht)

/-- The search for a phase by its place. -/
theorem findPhase_eq [IdScheme] {test : PhaseRole → Bool} {place : PhaseKind ⊕ String}
    (htest : ∀ role, test role = decide (role.place = place)) {rs : List Reference}
    (h : ∀ r ∈ rs, ∃ q, p.content? r.id = some (.phase q)) :
    findPhase test (p.objectsAt rs) = p.first (Content.phaseAt? place) rs := by
  induction rs with
  | nil => rfl
  | cons r rs ih =>
    obtain ⟨q, hq⟩ := h r (by simp)
    obtain ⟨o, ho, hoq⟩ := exists_find?_of_content? hq
    have hrest := ih fun r' hr => h r' (List.mem_cons_of_mem r hr)
    have hview : o.view? Content.phase? = some ⟨r.id, q⟩ := by
      rw [Object.view?, hoq, id_of_find? ho]
      rfl
    rw [findPhase] at hrest ⊢
    rw [objectsAt_cons ho, List.findSome?_cons, hview, Option.filter_some, htest, first_cons, hq,
      Option.bind_some]
    by_cases hplace : q.role.place = place
    · rw [Content.phaseAt?_eq_some.2 ⟨rfl, hplace⟩]
      simp [hplace]
    · have hnone : (Content.phase q).phaseAt? place = none := by
        simp [Content.phaseAt?, Content.phase?, hplace]
      rw [hnone]
      simpa [hplace] using hrest

theorem isFiles_eq (kind : PhaseKind) (role : PhaseRole) :
    decide (role = .files kind) = decide (role.place = .inl kind) := by
  cases role <;> simp [PhaseRole.place]

theorem isSlot_eq (slot : String) (role : PhaseRole) :
    role.isSlot slot = decide (role.place = .inr slot) := by
  cases role <;> simp [PhaseRole.place, PhaseRole.isSlot]

end ProjectGraph.Project
