import ProjectGraph.Proofs.Twins.Forks

/-! # Crossings

Two independent targets are built in one order and in the other one. What concerns one of the targets
is made by its own build, in both orders alike, and what both targets share only gets longer. -/

namespace ProjectGraph

open Project

/-! ## Projects up to the order of shared lists -/

/-- The record without its targets. -/
def ProjectRecord.bare (a : ProjectRecord) : ProjectRecord := { a with targets := [] }

/-- The projects have the same objects, schemes and directories. Their registries, the children of
their groups and their lists of targets may be in other orders. -/
structure Project.Permuted (p q : Project) : Prop where
  ids : (p.objects.map Object.id).Perm (q.objects.map Object.id)
  same : ∀ i c, ¬ c.isShared → (p.content? i = some c ↔ q.content? i = some c)
  groups : ∀ i g, p.content? i = some (.group g) →
    ∃ g', q.content? i = some (.group g') ∧ g'.bare = g.bare ∧ g'.children.Perm g.children
  record : ∃ a b, p.content? p.record = some (.project a) ∧ q.content? q.record = some (.project b) ∧
    b.bare = a.bare ∧ b.targets.Perm a.targets
  directories : ∀ d, q.directories.get? d = p.directories.get? d
  schemes : q.schemes = p.schemes

/-! ## Crossings -/

variable [IdScheme]

/-- From the first project two builds lead to `pd` and `pe`, and each of them after the other one to `x`
and `y`. -/
structure Crossing (d e : Target) (tree : FileTree) (root : PathName) (p pd pe x y : Project) :
    Prop where
  neat : p.Neat
  left : Path (BuildStep d p) p pd
  right : Path (BuildStep e p) p pe
  leftRight : Path (BuildStep e pd) pd x
  rightLeft : Path (BuildStep d pe) pe y
  twins : ∃ t, (Fork.ofBuild neat right d tree root).TwinsAt t pd y
  twins' : ∃ u, (Fork.ofBuild neat left e tree root).TwinsAt u pe x

namespace Crossing

variable {d e : Target} {tree : FileTree} {root : PathName} {p pd pe x y : Project} {i : ObjectId}
  {c : Content}

theorem symm (h : Crossing d e tree root p pd pe x y) : Crossing e d tree root p pe pd y x where
  neat := h.neat
  left := h.right
  right := h.left
  leftRight := h.rightLeft
  rightLeft := h.leftRight
  twins := h.twins'
  twins' := h.twins

/-- The fork for the build of the first target. -/
abbrev fork (h : Crossing d e tree root p pd pe x y) : Fork := .ofBuild h.neat h.right d tree root

variable (h : Crossing d e tree root p pd pe x y)

include h

/-- What the other build has nothing to do with is made by the build of the target. -/
theorem content?_of_keeps (hi : h.fork.Keeps i) :
    y.content? i = pd.content? i ∧ pe.content? i = p.content? i := by
  obtain ⟨t, htwins⟩ := h.twins
  exact ⟨htwins.agree i hi, Fork.content?_ofBuild h.neat h.right hi⟩

/-- What the other build has to do with is left as the other build has made it. -/
theorem content?_of_not_keeps (hi : ¬ h.fork.Keeps i) (hc : pe.content? i = some c)
    (hown : ¬ c.isShared) : y.content? i = some c := by
  obtain ⟨t, htwins⟩ := h.twins
  rcases h.rightLeft.extends_or_belongs (h.right.wellFormed h.neat.wellFormed) hc with
    ⟨c', hc', hextends⟩ | hbelongs
  · rw [hc', hextends.eq_of_not_isShared hown]
  · exact absurd (htwins.keeps_of_concerns (.inl hbelongs)) hi

/-- What the other build has to do with is there after it. -/
theorem exists_of_not_keeps (hi : ¬ h.fork.Keeps i) : ∃ c, pe.content? i = some c := by
  rw [← Option.ne_none_iff_exists']
  intro hnone
  cases hp : p.content? i with
  | none => exact hi (.inl ⟨hp, hnone⟩)
  | some c =>
    obtain ⟨c', hc', -⟩ := h.right.grows.content i c hp
    rw [hnone] at hc'
    cases hc'

/-- One of the builds has nothing to do with what is in none of the shared lists. -/
theorem keeps_or_keeps (hc : pd.content? i = some c) (hown : ¬ c.isShared) :
    h.fork.Keeps i ∨ h.symm.fork.Keeps i := by
  by_contra hneither
  push Not at hneither
  obtain ⟨hF, hG⟩ := hneither
  obtain ⟨t, htwins⟩ := h.twins
  cases hp : p.content? i with
  | none =>
    obtain ⟨c', hc'⟩ := h.exists_of_not_keeps hF
    obtain ⟨g, rfl⟩ := htwins.apart i c hc hp fun hnone => by
      change pe.content? i = none at hnone
      rw [hc'] at hnone
      cases hnone
    exact hown rfl
  | some c₀ =>
    obtain ⟨c', hc', hgrow⟩ := h.left.grows.content i c₀ hp
    rw [hc] at hc'
    cases hc'
    rw [hgrow.isShared_eq] at hown
    by_cases hconcerns : pd.Concerns d.name i
    · exact hF (htwins.toTwins.keeps_of_concerns hconcerns)
    · exact hG (.inr ⟨c₀, hp, hown, hconcerns⟩)

/-- What is in none of the shared lists is the same in the end, whatever was built first. -/
theorem content?_eq (hc : x.content? i = some c) (hown : ¬ c.isShared) : y.content? i = some c := by
  by_cases hG : h.symm.fork.Keeps i
  · obtain ⟨hx, hpd⟩ := h.symm.content?_of_keeps hG
    have hpe : pe.content? i = some c := hx.symm.trans hc
    by_cases hF : h.fork.Keeps i
    · obtain ⟨hy, hpe'⟩ := h.content?_of_keeps hF
      rw [hy, hpd, ← hpe', hpe]
    · exact h.content?_of_not_keeps hF hpe hown
  · -- The object was there before the second target was built.
    obtain ⟨c', hc'⟩ := h.symm.exists_of_not_keeps hG
    obtain ⟨c'', hc'', hgrow⟩ := h.leftRight.grows.content i c' hc'
    rw [hc] at hc''
    cases hc''
    rw [hgrow.isShared_eq] at hown
    have hF : h.fork.Keeps i := (h.keeps_or_keeps hc' hown).resolve_right hG
    obtain ⟨hy, -⟩ := h.content?_of_keeps hF
    rw [hy, hc', ← h.symm.content?_of_not_keeps hG hc' hown, hc]

/-! ## Shared lists -/

theorem lists_iff {l : Link} : x.Lists i l ↔ y.Lists i l := by
  obtain ⟨t, htwins⟩ := h.twins
  obtain ⟨u, htwins'⟩ := h.twins'
  rw [htwins.lists, htwins'.lists]
  exact or_comm

theorem directories_eq (directory : List String) :
    y.directories.get? directory = x.directories.get? directory := by
  obtain ⟨t, htwins⟩ := h.twins
  obtain ⟨u, htwins'⟩ := h.twins'
  refine Option.ext fun i => ?_
  rw [htwins.directories, htwins'.directories]
  exact or_comm

theorem exists_group {g : Group} (hg : x.content? i = some (.group g)) :
    ∃ g', y.content? i = some (.group g') ∧ g'.bare = g.bare := by
  obtain ⟨t, htwins⟩ := h.twins
  by_cases hG : h.symm.fork.Keeps i
  · obtain ⟨hx, -⟩ := h.symm.content?_of_keeps hG
    obtain ⟨c, hc, hgrow⟩ := h.rightLeft.grows.content i _ (hx.symm.trans hg)
    obtain ⟨g', rfl, hbare⟩ := hgrow.bare_eq
    exact ⟨g', hc, hbare⟩
  · obtain ⟨c, hc⟩ := h.symm.exists_of_not_keeps hG
    obtain ⟨c', hc', hgrow⟩ := h.leftRight.grows.content i c hc
    rw [hg] at hc'
    cases hc'
    obtain ⟨g₁, rfl, hbare⟩ := hgrow.exists_group
    obtain ⟨g', hg', hbare'⟩ := htwins.groups i g₁ hc
    exact ⟨g', hg', hbare'.trans hbare.symm⟩

theorem neat_left : x.Neat := h.leftRight.neat (h.left.neat h.neat)

theorem groups {g : Group} (hg : x.content? i = some (.group g)) :
    ∃ g', y.content? i = some (.group g') ∧ g'.bare = g.bare ∧ g'.children.Perm g.children := by
  obtain ⟨g', hg', hbare⟩ := h.exists_group hg
  refine ⟨g', hg', hbare, ?_⟩
  have hnodup : ∀ {z : Project}, z.Neat → ∀ {b : Group}, z.content? i = some (.group b) →
      b.children.Nodup := by
    intro z hz b hb
    have hids := nodup_linkedIds (hz.owned.nodup .child rfl) hb
    rw [Content.linkedIds_group, if_pos rfl] at hids
    exact hids.of_map
  refine (List.perm_ext_iff_of_nodup (hnodup h.symm.neat_left hg') (hnodup h.neat_left hg)).2 fun r => ?_
  rw [← lists_child_iff hg', ← lists_child_iff hg, h.lists_iff]

theorem record_eq : x.record = p.record := by
  rw [h.leftRight.grows.record, h.left.grows.record]

theorem record : ∃ a b, x.content? x.record = some (.project a) ∧
    y.content? y.record = some (.project b) ∧ b.bare = a.bare ∧ b.targets.Perm a.targets := by
  obtain ⟨r, hr⟩ := h.neat.wellFormed.record
  have hgrown : ∀ {z : Project}, p.Grows z → z.Neat →
      ∃ a, z.content? p.record = some (.project a) ∧ a.bare = r.bare ∧ a.targets.Nodup := by
    intro z hpz hz
    obtain ⟨c, hc, hgrow⟩ := hpz.content _ _ hr
    cases hgrow with
    | @project _ a name list main products =>
      have hids := nodup_linkedIds (hz.owned.nodup .target rfl) hc
      simp only [Content.linkedIds_project] at hids
      refine ⟨a, hc, by simp [ProjectRecord.bare, name, list, main, products], ?_⟩
      exact List.Nodup.of_map _ (by simpa using hids)
  obtain ⟨a, ha, hbare, hnodup⟩ := hgrown (h.left.grows.trans h.leftRight.grows) h.neat_left
  obtain ⟨b, hb, hbare', hnodup'⟩ := hgrown (h.right.grows.trans h.rightLeft.grows) h.symm.neat_left
  rw [h.record_eq, h.symm.record_eq]
  refine ⟨a, b, ha, hb, hbare'.trans hbare.symm, ?_⟩
  refine (List.perm_ext_iff_of_nodup hnodup' hnodup).2 fun t => ?_
  rw [← lists_target_iff hb, ← lists_target_iff ha, h.lists_iff]

/-- What is registered in the end does not depend on what was built first. -/
theorem isSome_content? (hi : (x.content? i).isSome) : (y.content? i).isSome := by
  obtain ⟨c, hc⟩ := Option.isSome_iff_exists.1 hi
  by_cases hown : c.isShared
  · cases c with
    | group g =>
      obtain ⟨g', hg', -⟩ := h.exists_group hc
      rw [hg']
      rfl
    | project a =>
      obtain ⟨_, b, -, hb, -⟩ := h.record
      rw [h.neat_left.owned.record i a hc, h.record_eq, ← h.symm.record_eq, hb]
      rfl
    | _ => cases hown
  · rw [h.content?_eq hc hown]
    rfl

/-- Both orders lead to the same project up to the order of shared lists. -/
theorem permuted : x.Permuted y where
  ids := by
    refine (List.perm_ext_iff_of_nodup h.neat_left.wellFormed.nodup_ids
      h.symm.neat_left.wellFormed.nodup_ids).2 fun i => ?_
    rw [mem_ids_iff, mem_ids_iff]
    exact ⟨h.isSome_content?, h.symm.isSome_content?⟩
  same _ _ hown := ⟨(h.content?_eq · hown), (h.symm.content?_eq · hown)⟩
  groups _ _ hg := h.groups hg
  record := h.record
  directories := h.directories_eq
  schemes := by
    rw [h.rightLeft.schemes_of_buildStep, h.right.schemes_of_buildStep,
      h.leftRight.schemes_of_buildStep, h.left.schemes_of_buildStep]

end Crossing
end ProjectGraph
