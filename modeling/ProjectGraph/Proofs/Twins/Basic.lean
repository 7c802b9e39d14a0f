import ProjectGraph.Proofs.Builds.Frame
import ProjectGraph.Proofs.Ownership.Placed

/-! # Twins

A target is built on a project, and also on what the build of another target has made of that project.
The two runs lead through projects that are twins: the second one is the first one together with what
the other build has made. They agree on all that is read for the target. Twins stay twins when both
take the same step, and when the first one makes the group of a directory that the second one has. -/

namespace ProjectGraph

/-- Is this a group or the record of a project? -/
def Content.isShared : Content → Bool
  | group _ | project _ => true
  | _ => false

theorem Content.Grows.isShared_eq {c d : Content} (h : c.Grows d) : d.isShared = c.isShared := by
  cases h <;> rfl

/-- Is this a link between the parts of a target? -/
def LinkKind.isInner : LinkKind → Bool
  | buildPhase | phaseFile | configurationList | configuration => true
  | _ => false

variable [IdScheme]

/-- A tidy project whose directories have their own groups. -/
structure Project.Neat (p : Project) : Prop extends p.Tidy where
  placed : p.Placed

theorem Project.Neat.apply {p : Project} {s : Step} (h : p.Neat) (hd : s.Due p) (hf : s.Fresh p) :
    (s.apply p).Neat where
  toTidy := (Path.single (A := fun _ _ => True) hd hf trivial).tidy h.toTidy
  placed := Step.placed_apply h.wellFormed hd hf h.placed

/-- The object belongs to a target of this name, or it is the list of its configurations. -/
def Project.Concerns (p : Project) (name : String) (i : ObjectId) : Prop :=
  p.Belongs name i ∨ ∃ t a r, p.content? t = some (.target a) ∧ a.name = name ∧
    a.configurationList = some r ∧ r.id = i

/-- A project before and after the build of another target than the one that is built now. -/
structure Fork where
  base : Project
  other : Project
  other_neat : other.Neat
  grows : base.Grows other
  /-- The target that is built now. -/
  name : String
  otherName : String
  /-- The groups and the paths that are looked for in them. -/
  Reads : ObjectId → String → Prop

/-- What is attached changes its owner, and nothing else that was there before. -/
theorem Step.content?_attach_of_ne {p : Project} {owner i : ObjectId} {x : Part} (howner : i ≠ owner)
    (hnew : i ≠ x.content.id) : ((attach owner x).apply p).content? i = p.content? i := by
  have hkept : ∀ c, (attach owner x).reviseContent i c = c := fun c => if_neg howner
  cases hc : p.content? i with
  | some c => rw [content?_apply_of_some hc, hkept]
  | none =>
    rw [content?_apply, hc, new?, Option.filter_some, if_neg (by simpa using Ne.symm hnew)]
    rfl

namespace Fork

variable {F : Fork} {p q : Project} {s : Step} {i : ObjectId}

/-- The object has nothing to do with the other build: it comes later, or it is an object of its own in
the base that does not concern the other target. -/
def Keeps (F : Fork) (i : ObjectId) : Prop :=
  (F.base.content? i = none ∧ F.other.content? i = none) ∨
    ∃ c, F.base.content? i = some c ∧ ¬ c.isShared ∧ ¬ F.other.Concerns F.otherName i

theorem not_keeps_of_group {g : Group} (hg : F.other.content? i = some (.group g)) : ¬ F.Keeps i := by
  rintro (⟨-, hnone⟩ | ⟨c, hc, hown, -⟩)
  · rw [hg] at hnone
    cases hnone
  · obtain ⟨d, hd, hgrow⟩ := F.grows.content i c hc
    rw [hg] at hd
    cases hd
    rw [← hgrow.isShared_eq] at hown
    exact hown rfl

/-- The second project is what the build of the target makes of the other project while it makes the
first one of the base. -/
structure Twins (F : Fork) (p q : Project) : Prop where
  left : p.Neat
  right : q.Neat
  growsLeft : F.base.Grows p
  growsRight : F.other.Grows q
  agree : ∀ i, F.Keeps i → q.content? i = p.content? i
  inner : ∀ i c, F.Keeps i → p.content? i = some c → ∀ l ∈ c.links, l.kind.isInner →
    F.Keeps l.reference.id
  named : ∀ t, p.IsNamed t F.name → F.Keeps t
  /-- Both builds make the same groups, and nothing else that is the same. -/
  apart : ∀ i c, p.content? i = some c → F.base.content? i = none → F.other.content? i ≠ none →
    ∃ g, c = .group g
  groups : ∀ i g, p.content? i = some (.group g) →
    ∃ g', q.content? i = some (.group g') ∧ g'.bare = g.bare
  lists : ∀ i l, q.Lists i l ↔ p.Lists i l ∨ F.other.Lists i l
  directories : ∀ d i, q.directories.get? d = some i ↔
    p.directories.get? d = some i ∨ F.other.directories.get? d = some i
  files : ∀ i path, F.Reads i path → q.fileIn i path = p.fileIn i path

namespace Twins

theorem mainGroup (h : F.Twins p q) : q.mainGroup = p.mainGroup := by
  rw [h.growsRight.mainGroup, h.growsLeft.mainGroup, F.grows.mainGroup]

theorem productsGroup (h : F.Twins p q) : q.productsGroup = p.productsGroup := by
  rw [h.growsRight.productsGroup, h.growsLeft.productsGroup, F.grows.productsGroup]

theorem record (h : F.Twins p q) : q.record = p.record := by
  rw [h.growsRight.record, h.growsLeft.record, F.grows.record]

theorem configurationNames (h : F.Twins p q) : q.configurationNames = p.configurationNames := by
  rw [h.growsRight.configurationNames, h.growsLeft.configurationNames, F.grows.configurationNames]

theorem groupAt (h : F.Twins p q) {d : List String} (hi : p.groupAt d = some i) :
    q.groupAt d = some i := by
  unfold Project.groupAt at *
  split
  · next hd =>
    rw [if_pos hd] at hi
    rw [h.mainGroup, hi]
  · next hd =>
    rw [if_neg hd] at hi
    exact (h.directories d i).2 (.inl hi)

/-- What neither of the projects has got has nothing to do with the other build. -/
theorem keeps_of_fresh (h : F.Twins p q) (hp : p.content? i = none) (hq : q.content? i = none) :
    F.Keeps i := by
  have hnone : ∀ {a b : Project}, a.Grows b → b.content? i = none → a.content? i = none := by
    intro a b hab hb
    cases ha : a.content? i with
    | none => rfl
    | some c =>
      obtain ⟨d, hd, -⟩ := hab.content i c ha
      rw [hb] at hd
      cases hd
  exact .inl ⟨hnone h.growsLeft hp, hnone h.growsRight hq⟩

theorem keeps_of_new (h : F.Twins p q) (hp : s.Fresh p) (hq : s.Fresh q) {c : Content}
    (hc : s.new? = some c) : F.Keeps c.id :=
  h.keeps_of_fresh (hp c hc) (hq c hc)

/-! ## What has grown in the first project -/

section

variable {c : Content} (h : F.Twins p q) (hc : p.content? i = some c)

include h hc

theorem keeps_of_grows {a : NativeTarget} (hgrow : c.Grows (.target a)) (hname : a.name = F.name) :
    F.Keeps i := by
  cases hgrow with
  | target hsame => exact h.named i ⟨_, hc, hsame.symm.trans hname⟩

theorem isGroup_of_grows {d : Content} (hgrow : c.Grows d) (hbase : F.base.content? i = none)
    (hother : F.other.content? i ≠ none) : ∃ g, d = .group g := by
  obtain ⟨g, rfl⟩ := h.apart i c hc hbase hother
  obtain ⟨g', rfl, -⟩ := hgrow.bare_eq
  exact ⟨g', rfl⟩

theorem exists_group_of_grows {g : Group} (hgrow : c.Grows (.group g)) :
    ∃ g', q.content? i = some (.group g') ∧ g'.bare = g.bare := by
  obtain ⟨a, rfl, hbare⟩ := hgrow.exists_group
  obtain ⟨g', hg', hbare'⟩ := h.groups i a hc
  exact ⟨g', hg', hbare'.trans hbare.symm⟩

end

/-! ## One step on both sides -/

theorem inner_apply (h : F.Twins p q) (hdp : s.Due p) (hfp : s.Fresh p) (hfq : s.Fresh q)
    (hlist : ∀ t l, s = .configurationList t l → ∀ r ∈ l.configurations, F.Keeps r.id) {d : Content}
    (hi : F.Keeps i) (hd : (s.apply p).content? i = some d) {l : Link} (hl : l ∈ d.links)
    (hkind : l.kind.isInner) : F.Keeps l.reference.id := by
  rcases Step.link_apply_cases h.left.wellFormed hdp hfp hd hl with ⟨c, hc, -, hold | hnew⟩ | hnew
  · exact h.inner i c hi hc l hold hkind
  · cases s with
    | attach owner x =>
      cases hnew
      exact h.keeps_of_new hfp hfq rfl
    | configurationList t k =>
      cases hnew
      exact h.keeps_of_new hfp hfq rfl
    | product t r =>
      cases hnew
      cases hkind
    | _ => cases hnew
  · cases hdp with
    | buildFile =>
      cases hnew
      rw [List.mem_singleton.1 hl] at hkind
      cases hkind
    | configurationList =>
      cases hnew
      obtain ⟨r, hr, rfl⟩ := List.mem_map.1 hl
      exact hlist _ _ rfl r hr
    | target | phase | group | source | product | configuration =>
      cases hnew
      cases hl
    | settings | productReference | script | scheme | schemeChange => cases hnew

theorem directories_apply (h : F.Twins p q) (hdq : s.Due q) (d : List String) (i : ObjectId) :
    (s.apply q).directories.get? d = some i ↔
      (s.apply p).directories.get? d = some i ∨ F.other.directories.get? d = some i := by
  cases hdq with
  | @group owner above name parent absent =>
    show (q.directories.insert (above ++ [name]) _).get? d = some i ↔
      (p.directories.insert (above ++ [name]) _).get? d = some i ∨ _
    rw [Table.get?_insert, Table.get?_insert]
    split
    · next hsame =>
      refine ⟨.inl, ?_⟩
      rintro (hi | hi)
      · exact hi
      · have hq := h.growsRight.directories d i hi
        rw [← hsame, absent] at hq
        cases hq
    · exact h.directories d i
  | _ => exact h.directories d i

/-- Twins that take one step are twins again. -/
theorem apply (h : F.Twins p q) (hdp : s.Due p) (hdq : s.Due q) (hfp : s.Fresh p) (hfq : s.Fresh q)
    (hlist : ∀ t l, s = .configurationList t l → ∀ r ∈ l.configurations, F.Keeps r.id) :
    F.Twins (s.apply p) (s.apply q) where
  left := h.left.apply hdp hfp
  right := h.right.apply hdq hfq
  growsLeft := h.growsLeft.trans (Step.grows_apply hdp)
  growsRight := h.growsRight.trans (Step.grows_apply hdq)
  agree i hi := by rw [Step.content?_apply, Step.content?_apply, h.agree i hi]
  inner i d hi hd l hl hkind := h.inner_apply hdp hfp hfq hlist hi hd hl hkind
  named t ht := by
    obtain ⟨a, ha, hname⟩ := ht
    rcases Step.content?_apply_grows h.left.wellFormed hdp hfp ha with ⟨c, hc, hgrow⟩ | ⟨hnew, rfl⟩
    · exact h.keeps_of_grows hc hgrow hname
    · exact h.keeps_of_new hfp hfq hnew
  apart i c hc hbase hother := by
    rcases Step.content?_apply_grows h.left.wellFormed hdp hfp hc with ⟨b, hb, hgrow⟩ | ⟨hnew, rfl⟩
    · exact h.isGroup_of_grows hb hgrow hbase hother
    · obtain ⟨d, hd⟩ := Option.ne_none_iff_exists'.1 hother
      obtain ⟨e, he, -⟩ := h.growsRight.content _ d hd
      rw [hfq c hnew] at he
      cases he
  groups i g hg := by
    rcases Step.content?_apply_grows h.left.wellFormed hdp hfp hg with ⟨b, hb, hgrow⟩ | ⟨hnew, rfl⟩
    · obtain ⟨a, ha, hbare⟩ := h.exists_group_of_grows hb hgrow
      obtain ⟨c, hc, hgrow'⟩ := (Step.grows_apply hdq).content i _ ha
      obtain ⟨g', rfl, hbare'⟩ := hgrow'.bare_eq
      exact ⟨g', hc, hbare'.trans hbare⟩
    · exact ⟨g, Step.content?_apply_new h.right.wellFormed hdq hfq hnew, rfl⟩
  lists i l := by
    rw [Step.lists_apply h.right.wellFormed hdq hfq, Step.lists_apply h.left.wellFormed hdp hfp,
      h.lists]
    tauto
  directories d i := h.directories_apply hdq d i
  files i path hread := by
    rw [Step.fileIn_apply h.right.wellFormed hdq hfq, Step.fileIn_apply h.left.wellFormed hdp hfp,
      h.files i path hread]

/-! ## One group on the first side -/

section

variable {owner : ObjectId} {above : List String} {name : String}

/-- The group of a directory that only the second project has is the one that the other build made. -/
theorem placed_other (h : F.Twins p q) (hd : (Step.attach owner (.group above name)).Due p)
    (hi : q.directories.get? (above ++ [name]) = some i) :
    F.other.PlacedAt above name i ∧ F.other.groupAt above = some owner := by
  cases hd with
  | group parent absent =>
    have hother : F.other.directories.get? (above ++ [name]) = some i := by
      rcases (h.directories _ i).1 hi with hp | hother
      · rw [absent] at hp
        cases hp
      · exact hother
    have hplaced := F.other_neat.placed above name i hother
    obtain ⟨j, hj, -⟩ := hplaced.parent
    have hsame := h.growsRight.groupAt hj
    rw [h.groupAt parent] at hsame
    cases hsame
    exact ⟨hplaced, hj⟩

theorem not_keeps_placed (h : F.Twins p q) (hd : (Step.attach owner (.group above name)).Due p)
    (hi : q.directories.get? (above ++ [name]) = some i) :
    ¬ F.Keeps owner ∧ ¬ F.Keeps (Part.group above name).content.id := by
  obtain ⟨hplaced, howner⟩ := h.placed_other hd hi
  obtain ⟨g, hg⟩ := F.other_neat.wellFormed.groupAt howner
  obtain ⟨g', hg', -⟩ := hplaced.group
  exact ⟨not_keeps_of_group hg, hplaced.id_eq ▸ not_keeps_of_group hg'⟩

/-- The first project catches up with the second one by making a group that the other build made. -/
theorem apply_group (h : F.Twins p q) (hd : (Step.attach owner (.group above name)).Due p)
    (hf : (Step.attach owner (.group above name)).Fresh p)
    (hi : q.directories.get? (above ++ [name]) = some i) :
    F.Twins ((Step.attach owner (.group above name)).apply p) q := by
  obtain ⟨hplaced, howner⟩ := h.placed_other hd hi
  obtain ⟨hkeepsOwner, hkeepsNew⟩ := h.not_keeps_placed hd hi
  have hp := h.left.wellFormed
  have hcontent : ∀ j, F.Keeps j →
      ((Step.attach owner (.group above name)).apply p).content? j = p.content? j := by
    intro j hj
    apply Step.content?_attach_of_ne
    · rintro rfl
      exact hkeepsOwner hj
    · rintro rfl
      exact hkeepsNew hj
  have hcases := fun {j d} => Step.content?_apply_grows (i := j) (d := d) hp hd hf
  constructor
  case left => exact h.left.apply hd hf
  case right => exact h.right
  case growsLeft => exact h.growsLeft.trans (Step.grows_apply hd)
  case growsRight => exact h.growsRight
  case agree =>
    intro j hj
    rw [hcontent j hj, h.agree j hj]
  case inner =>
    intro j c hj hc
    rw [hcontent j hj] at hc
    exact h.inner j c hj hc
  case named =>
    rintro t ⟨a, ha, hname⟩
    rcases hcases ha with ⟨c, hc, hgrow⟩ | ⟨hnew, -⟩
    · exact h.keeps_of_grows hc hgrow hname
    · cases hnew
  case apart =>
    intro j c hc hbase hother
    rcases hcases hc with ⟨b, hb, hgrow⟩ | ⟨hnew, -⟩
    · exact h.isGroup_of_grows hb hgrow hbase hother
    · cases hnew
      exact ⟨_, rfl⟩
  case groups =>
    intro j g hg
    rcases hcases hg with ⟨b, hb, hgrow⟩ | ⟨hnew, rfl⟩
    · exact h.exists_group_of_grows hb hgrow
    · cases hnew
      obtain ⟨g', hg', hbare⟩ := (hplaced.grows h.growsRight).group
      exact ⟨g', hplaced.id_eq ▸ hg', hbare⟩
  case lists =>
    intro j l
    rw [Step.lists_apply hp hd hf, h.lists]
    refine ⟨by tauto, ?_⟩
    rintro ((hold | ⟨hnew, -⟩) | hother)
    · exact .inl hold
    · cases hnew
      obtain ⟨k, hk, hlists⟩ := hplaced.parent
      rw [howner] at hk
      cases hk
      exact .inr hlists
    · exact .inr hother
  case directories =>
    intro d j
    show _ ↔ (p.directories.insert (above ++ [name]) _).get? d = some j ∨ _
    rw [Table.get?_insert]
    split
    · next hsame =>
      subst hsame
      rw [hi, ← hplaced.id_eq]
      refine ⟨.inl, ?_⟩
      rintro (hj | hj)
      · exact hj
      · rw [← hi]
        exact h.growsRight.directories _ _ hj
    · exact h.directories d j
  case files =>
    intro j path hread
    rw [Step.fileIn_apply hp hd hf, h.files j path hread]
    simp [Step.newFile?, Part.content, Content.fileAt?, Content.file?]

end

end Twins
end Fork
end ProjectGraph
