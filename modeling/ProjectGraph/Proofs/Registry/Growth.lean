import ProjectGraph.Proofs.Registry.Due

/-! # Growth of a project

A step that is due leaves what identifies a content, and only lengthens its lists. -/

namespace ProjectGraph
namespace Step

variable [IdScheme] {p : Project} {s : Step} {i : ObjectId} {c : Content}

theorem grows_reviseContent (hd : s.Due p) (hc : p.content? i = some c) :
    c.Grows (s.reviseContent i c) := by
  cases s with
  | attach owner x =>
    simp only [reviseContent]
    split
    · exact Content.grows_append _ _ c
    · exact .refl c
  | configurationList j l =>
    simp only [reviseContent]
    split
    · next hij =>
      cases hd with
      | configurationList target absent =>
        rw [hij, target] at hc
        cases hc
        exact .target rfl rfl (List.prefix_refl _) (fun r hr => by simp [absent] at hr) fun h => h
    · exact .refl c
  | settings j new =>
    simp only [reviseContent]
    split
    · exact Content.grows_withSettings new c
    · exact .refl c
  | product j r =>
    simp only [reviseContent]
    split
    · exact Content.grows_withProductReference r c
    · exact .refl c
  | script j k slot new =>
    simp only [reviseContent]
    split
    · next hik =>
      cases hd with
      | script target listed phase place =>
        rw [hik, phase] at hc
        cases hc
        exact .phase rfl place.symm (List.prefix_refl _)
    · exact .refl c
  | configuration | scheme | schemeChange => exact .refl c

end Step

/-- The second project is what the first one can have become. -/
structure Project.Grows (p q : Project) : Prop where
  content : ∀ i c, p.content? i = some c → ∃ d, q.content? i = some d ∧ c.Grows d
  directories : ∀ d i, p.directories.get? d = some i → q.directories.get? d = some i
  mainGroup : q.mainGroup = p.mainGroup
  productsGroup : q.productsGroup = p.productsGroup
  record : q.record = p.record
  configurationNames : q.configurationNames = p.configurationNames

namespace Project.Grows

variable {p q r : Project}

theorem refl (p : Project) : p.Grows p where
  content _ c h := ⟨c, h, .refl c⟩
  directories _ _ h := h
  mainGroup := rfl
  productsGroup := rfl
  record := rfl
  configurationNames := rfl

theorem trans (hpq : p.Grows q) (hqr : q.Grows r) : p.Grows r where
  content i c h := by
    obtain ⟨d, hd, hcd⟩ := hpq.content i c h
    obtain ⟨e, he, hde⟩ := hqr.content i d hd
    exact ⟨e, he, hcd.trans hde⟩
  directories d i h := hqr.directories d i (hpq.directories d i h)
  mainGroup := hqr.mainGroup.trans hpq.mainGroup
  productsGroup := hqr.productsGroup.trans hpq.productsGroup
  record := hqr.record.trans hpq.record
  configurationNames := hqr.configurationNames.trans hpq.configurationNames

theorem resolves (h : p.Grows q) {l : Link} (hl : p.Resolves l) : q.Resolves l := by
  obtain ⟨c, hc, hfits⟩ := hl
  obtain ⟨d, hd, hcd⟩ := h.content _ _ hc
  exact ⟨d, hd, hcd.fits hfits⟩

theorem file (h : p.Grows q) {i : ObjectId} {f : FileReference}
    (hf : p.content? i = some (.file f)) : q.content? i = some (.file f) := by
  obtain ⟨d, hd, hg⟩ := h.content _ _ hf
  cases hg
  exact hd

theorem buildFile (h : p.Grows q) {i : ObjectId} {f : BuildFile}
    (hf : p.content? i = some (.buildFile f)) : q.content? i = some (.buildFile f) := by
  obtain ⟨d, hd, hg⟩ := h.content _ _ hf
  cases hg
  exact hd

theorem phase (h : p.Grows q) {i : ObjectId} {a : BuildPhase}
    (ha : p.content? i = some (.phase a)) :
    ∃ b, q.content? i = some (.phase b) ∧ b.target = a.target ∧ b.role.place = a.role.place ∧
      a.files <+: b.files := by
  obtain ⟨d, hd, hg⟩ := h.content _ _ ha
  cases hg with
  | phase target place files => exact ⟨_, hd, target, place, files⟩

theorem group (h : p.Grows q) {i : ObjectId} {a : Group} (ha : p.content? i = some (.group a)) :
    ∃ b, q.content? i = some (.group b) ∧ b.name = a.name ∧ b.path = a.path ∧
      b.groupId = a.groupId ∧ a.children <+: b.children := by
  obtain ⟨d, hd, hg⟩ := h.content _ _ ha
  cases hg with
  | group name path groupId children => exact ⟨_, hd, name, path, groupId, children⟩

theorem configuration (h : p.Grows q) {i : ObjectId} {a : Configuration}
    (ha : p.content? i = some (.configuration a)) : ∃ b, q.content? i = some (.configuration b) := by
  obtain ⟨d, hd, hg⟩ := h.content _ _ ha
  cases hg with
  | configuration => exact ⟨_, hd⟩

theorem configurationList (h : p.Grows q) {i : ObjectId} {l : ConfigurationList}
    (hl : p.content? i = some (.configurationList l)) :
    q.content? i = some (.configurationList l) := by
  obtain ⟨d, hd, hg⟩ := h.content _ _ hl
  cases hg
  exact hd

theorem target (h : p.Grows q) {i : ObjectId} {a : NativeTarget}
    (ha : p.content? i = some (.target a)) :
    ∃ b, q.content? i = some (.target b) ∧ b.name = a.name ∧ b.kind = a.kind ∧
      a.buildPhases <+: b.buildPhases ∧
      (∀ r, a.configurationList = some r → b.configurationList = some r) ∧
      (a.productReference.isSome → b.productReference.isSome) := by
  obtain ⟨d, hd, hg⟩ := h.content _ _ ha
  cases hg with
  | target name kind buildPhases list product => exact ⟨_, hd, name, kind, buildPhases, list, product⟩

theorem projectRecord (h : p.Grows q) {a : ProjectRecord}
    (ha : p.content? p.record = some (.project a)) :
    ∃ b, q.content? q.record = some (.project b) ∧ a.targets <+: b.targets := by
  obtain ⟨d, hd, hg⟩ := h.content _ _ ha
  rw [h.record]
  cases hg with
  | project _ _ _ _ targets => exact ⟨_, hd, targets⟩

theorem groupAt (h : p.Grows q) {d : List String} {i : ObjectId} (hi : p.groupAt d = some i) :
    q.groupAt d = some i := by
  unfold Project.groupAt at *
  split
  · next hd =>
    rw [if_pos hd] at hi
    rw [h.mainGroup]
    exact hi
  · next hd =>
    rw [if_neg hd] at hi
    exact h.directories d i hi

end Project.Grows

namespace Step

variable [IdScheme] {p : Project} {s : Step} {i : ObjectId} {c d : Content}

theorem grows_apply (hd : s.Due p) : p.Grows (s.apply p) where
  content i c hc := ⟨_, content?_apply_of_some hc, grows_reviseContent hd hc⟩
  directories d i hi := by
    cases hd with
    | @group j above name parent absent proper =>
      show (p.directories.insert (above ++ [name]) _).get? d = some i
      rw [Table.get?_insert, if_neg]
      · exact hi
      · rintro rfl
        rw [absent] at hi
        cases hi
    | _ => exact hi
  mainGroup := rfl
  productsGroup := rfl
  record := rfl
  configurationNames := rfl

end Step
end ProjectGraph
