import Mathlib.Data.List.Nodup
import Mathlib.Data.List.Perm.Basic
import ProjectGraph.Proofs.Registry.Path

/-! # What contents are linked to

For each kind of link, the ids that all contents of a project together refer to, as often as they do.
A step adds the id of what it registers to one of these lists. -/

namespace ProjectGraph

open List

/-- The ids that a content refers to by links of a kind, in order. -/
def Content.linkedIds (kind : LinkKind) (c : Content) : List ObjectId :=
  (c.links.filter fun l => l.kind = kind).map fun l => l.reference.id

/-- The ids that the contents of a project refer to by links of a kind. -/
def Project.linked (p : Project) (kind : LinkKind) : List ObjectId :=
  p.objects.flatMap fun o => o.content.linkedIds kind

variable {kind : LinkKind} {i : ObjectId}

theorem Content.mem_linkedIds {c : Content} :
    i ∈ c.linkedIds kind ↔ ∃ r : Reference, ⟨kind, r⟩ ∈ c.links ∧ r.id = i := by
  constructor
  · intro h
    obtain ⟨⟨k, r⟩, hl, rfl⟩ := List.mem_map.1 h
    obtain ⟨hl, hk⟩ := List.mem_filter.1 hl
    have hk : k = kind := by simpa using hk
    exact ⟨r, hk ▸ hl, rfl⟩
  · rintro ⟨r, hl, rfl⟩
    exact List.mem_map.2 ⟨⟨kind, r⟩, List.mem_filter.2 ⟨hl, by simp⟩, rfl⟩

/-! What each type of content refers to. -/

namespace Content

theorem map_filter_links (k kind : LinkKind) (rs : List Reference) :
    ((rs.map (Link.mk k)).filter fun l => l.kind = kind).map (fun l => l.reference.id) =
      if k = kind then rs.map Reference.id else [] := by
  split
  · next h =>
    subst h
    simp [List.filter_map, Function.comp_def]
  · next h => simp [List.filter_map, Function.comp_def, h]

@[simp] theorem linkedIds_group (g : Group) :
    (group g).linkedIds kind = if .child = kind then g.children.map Reference.id else [] :=
  map_filter_links _ _ _

@[simp] theorem linkedIds_phase (q : BuildPhase) :
    (phase q).linkedIds kind = if .phaseFile = kind then q.files.map Reference.id else [] :=
  map_filter_links _ _ _

@[simp] theorem linkedIds_configurationList (l : ConfigurationList) :
    (configurationList l).linkedIds kind =
      if .configuration = kind then l.configurations.map Reference.id else [] :=
  map_filter_links _ _ _

@[simp] theorem linkedIds_target (t : NativeTarget) :
    (target t).linkedIds kind =
      (if .buildPhase = kind then t.buildPhases.map Reference.id else []) ++
        ((if .configurationList = kind then t.configurationList.toList.map Reference.id else []) ++
          if .product = kind then t.productReference.toList.map Reference.id else []) := by
  rw [linkedIds, links, List.filter_append, List.filter_append, List.map_append, List.map_append,
    map_filter_links, map_filter_links, map_filter_links]

@[simp] theorem linkedIds_project (r : ProjectRecord) :
    (project r).linkedIds kind =
      (if .configurationList = kind then r.configurationList.toList.map Reference.id else []) ++
        ((if .mainGroup = kind then [r.mainGroup.id] else []) ++
          ((if .productsGroup = kind then [r.productsGroup.id] else []) ++
            if .target = kind then r.targets.map Reference.id else [])) := by
  have hgroups : (([⟨.mainGroup, r.mainGroup⟩, ⟨.productsGroup, r.productsGroup⟩] : List Link).filter
      fun l => l.kind = kind).map (fun l => l.reference.id) =
      (if .mainGroup = kind then [r.mainGroup.id] else []) ++
        if .productsGroup = kind then [r.productsGroup.id] else [] := by
    cases kind <;> rfl
  rw [linkedIds, links, List.filter_append, List.filter_append, List.map_append, List.map_append,
    map_filter_links, map_filter_links, hgroups, List.append_assoc]

@[simp] theorem linkedIds_buildFile (f : BuildFile) :
    (buildFile f).linkedIds kind = if .file = kind then [f.file.id] else [] := by
  cases kind <;> rfl

@[simp] theorem linkedIds_file (f : FileReference) : (file f).linkedIds kind = [] := rfl

@[simp] theorem linkedIds_configuration (c : Configuration) : (configuration c).linkedIds kind = [] :=
  rfl

/-! Contents of one type only have links of these kinds. -/

theorem mem_linkedIds_child {c : Content} :
    i ∈ c.linkedIds .child ↔ ∃ g, c = .group g ∧ i ∈ g.children.map Reference.id := by
  cases c <;> simp

theorem mem_linkedIds_targets {c : Content} :
    i ∈ c.linkedIds .target ↔ ∃ r, c = .project r ∧ i ∈ r.targets.map Reference.id := by
  cases c <;> simp

theorem mem_linkedIds_buildPhase {c : Content} :
    i ∈ c.linkedIds .buildPhase ↔ ∃ t, c = .target t ∧ i ∈ t.buildPhases.map Reference.id := by
  cases c <;> simp

theorem mem_linkedIds_phaseFile {c : Content} :
    i ∈ c.linkedIds .phaseFile ↔ ∃ q, c = .phase q ∧ i ∈ q.files.map Reference.id := by
  cases c <;> simp

theorem mem_linkedIds_configuration {c : Content} :
    i ∈ c.linkedIds .configuration ↔
      ∃ l, c = .configurationList l ∧ i ∈ l.configurations.map Reference.id := by
  cases c <;> simp

theorem linkedIds_append_child (g : Group) (r : Reference) :
    ((group g).append .child r).linkedIds kind =
      (group g).linkedIds kind ++ if .child = kind then [r.id] else [] := by
  cases kind <;> simp [append, linkedIds_group]

theorem linkedIds_append_target (a : ProjectRecord) (r : Reference) :
    ((project a).append .target r).linkedIds kind =
      (project a).linkedIds kind ++ if .target = kind then [r.id] else [] := by
  cases kind <;> simp [append, linkedIds_project]

theorem linkedIds_append_buildPhase (t : NativeTarget) (r : Reference) :
    ((target t).append .buildPhase r).linkedIds kind =
      (target t).linkedIds kind ++ if .buildPhase = kind then [r.id] else [] := by
  cases kind <;> simp [append, linkedIds_target]

theorem linkedIds_append_phaseFile (q : BuildPhase) (r : Reference) :
    ((phase q).append .phaseFile r).linkedIds kind =
      (phase q).linkedIds kind ++ if .phaseFile = kind then [r.id] else [] := by
  cases kind <;> simp [append, linkedIds_phase]

end Content

namespace Project

variable {p : Project}

theorem mem_linked (hn : (p.objects.map Object.id).Nodup) :
    i ∈ p.linked kind ↔ ∃ j c, p.content? j = some c ∧ i ∈ c.linkedIds kind := by
  constructor
  · intro h
    obtain ⟨o, ho, hi⟩ := List.mem_flatMap.1 h
    exact ⟨o.id, o.content, content?_of_mem hn ho, hi⟩
  · rintro ⟨j, c, hc, hi⟩
    obtain ⟨o, ho, -, rfl⟩ := exists_mem_of_content? hc
    exact List.mem_flatMap.2 ⟨o, ho, hi⟩

/-- What is linked is registered. -/
theorem exists_content?_of_mem_linked [IdScheme] (hp : p.WellFormed) (h : i ∈ p.linked kind) :
    ∃ c, p.content? i = some c ∧ kind.fits c := by
  obtain ⟨j, c, hc, hi⟩ := (mem_linked hp.nodup_ids).1 h
  obtain ⟨r, hl, rfl⟩ := Content.mem_linkedIds.1 hi
  exact hp.resolves j c hc _ hl

/-- An id that is linked once is linked from one place only. -/
theorem linked_unique [IdScheme] (hp : p.WellFormed) (hn : (p.linked kind).Nodup)
    {j j' : ObjectId} {c c' : Content} (hc : p.content? j = some c) (hc' : p.content? j' = some c')
    (hi : i ∈ c.linkedIds kind) (hi' : i ∈ c'.linkedIds kind) : j = j' := by
  obtain ⟨o, ho, rfl, rfl⟩ := exists_mem_of_content? hc
  obtain ⟨o', ho', rfl, rfl⟩ := exists_mem_of_content? hc'
  unfold linked at hn
  have hids := hp.nodup_ids
  clear hc hc' hp
  generalize p.objects = os at hn ho ho' hids
  induction os with
  | nil => cases ho
  | cons a os ih =>
    rw [List.flatMap_cons, List.nodup_append] at hn
    rw [List.map_cons, List.nodup_cons] at hids
    obtain ⟨-, hrest, hdisjoint⟩ := hn
    rcases List.mem_cons.1 ho with rfl | hmem
    · rcases List.mem_cons.1 ho' with rfl | hmem'
      · rfl
      · exact absurd rfl (hdisjoint i hi i (List.mem_flatMap.2 ⟨o', hmem', hi'⟩))
    · rcases List.mem_cons.1 ho' with rfl | hmem'
      · exact absurd rfl (hdisjoint i hi' i (List.mem_flatMap.2 ⟨o, hmem, hi⟩))
      · exact ih hrest hmem hmem' hids.2

/-- What one content refers to is a part of what all refer to. -/
theorem nodup_linkedIds (hn : (p.linked kind).Nodup) {c : Content} (hc : p.content? i = some c) :
    (c.linkedIds kind).Nodup := by
  obtain ⟨o, ho, -, rfl⟩ := exists_mem_of_content? hc
  exact (List.nodup_flatMap.1 hn).1 o ho

end Project

/-! ## After a step -/

/-- Is this a link from an owner to what it owns? -/
def LinkKind.isOwning : LinkKind → Bool
  | child | target | buildPhase | phaseFile | configurationList | configuration => true
  | file | product | mainGroup | productsGroup => false

/-- The ids that are added to a list when one object among many changes. -/
theorem flatMap_map_perm {os : List Object} {f : Object → Object} {g : Object → List ObjectId}
    {extra : List ObjectId} (hn : (os.map Object.id).Nodup) {o : Object} (ho : o ∈ os)
    (hf : g (f o) ~ g o ++ extra) (hrest : ∀ o' ∈ os, o'.id ≠ o.id → g (f o') = g o') :
    (os.map f).flatMap g ~ os.flatMap g ++ extra := by
  induction os with
  | nil => cases ho
  | cons a os ih =>
    rw [List.map_cons, List.nodup_cons] at hn
    rw [List.map_cons, List.flatMap_cons, List.flatMap_cons]
    rcases List.mem_cons.1 ho with rfl | ho
    · have hsame : (os.map f).flatMap g = os.flatMap g := by
        rw [List.flatMap_map]
        apply List.flatMap_congr
        intro o' ho'
        refine hrest o' (List.mem_cons_of_mem o ho') fun hid => hn.1 ?_
        exact hid ▸ List.mem_map_of_mem ho'
      rw [hsame, List.append_assoc]
      refine (hf.append_right _).trans ?_
      rw [List.append_assoc]
      exact List.perm_append_comm.append_left _
    · have hne : a.id ≠ o.id := fun hid => hn.1 (hid ▸ List.mem_map_of_mem ho)
      rw [hrest a (by simp) hne, List.append_assoc]
      refine (ih hn.2 ho fun o' ho' => hrest o' (List.mem_cons_of_mem a ho')).append_left _

namespace Step

variable [IdScheme] {p : Project} {s : Step} {c : Content}

/-- The ids that a step adds to those that old contents are linked to. -/
def addedIds (s : Step) (kind : LinkKind) (i : ObjectId) : List ObjectId :=
  match s.newLink? with
  | some (j, l) => if j = i ∧ l.kind = kind then [l.reference.id] else []
  | none => []

/-- What is attached comes into the list of its kind, and into no other one. -/
theorem linkedIds_append {x : Part} (hp : p.WellFormed) (hd : (attach i x).Due p)
    (hc : p.content? i = some c) :
    (c.append x.home x.reference).linkedIds kind =
      c.linkedIds kind ++ if x.home = kind then [x.reference.id] else [] := by
  cases hd with
  | target owner record =>
    rw [record] at hc
    cases hc
    exact Content.linkedIds_append_target _ _
  | phase target =>
    rw [target] at hc
    cases hc
    exact Content.linkedIds_append_buildPhase _ _
  | buildFile phase =>
    rw [phase] at hc
    cases hc
    exact Content.linkedIds_append_phaseFile _ _
  | group parent =>
    obtain ⟨g, hg⟩ := hp.groupAt parent
    rw [hg] at hc
    cases hc
    exact Content.linkedIds_append_child _ _
  | source group =>
    rw [group] at hc
    cases hc
    exact Content.linkedIds_append_child _ _
  | product owner group =>
    rw [group] at hc
    cases hc
    exact Content.linkedIds_append_child _ _

theorem linkedIds_reviseContent (hp : p.WellFormed) (hk : kind.isOwning) (hd : s.Due p)
    (hc : p.content? i = some c) :
    (s.reviseContent i c).linkedIds kind = c.linkedIds kind ++ s.addedIds kind i := by
  have hother : ∀ {j l}, s.newLink? = some (j, l) → i ≠ j →
      (s.reviseContent i c).linkedIds kind = c.linkedIds kind →
      (s.reviseContent i c).linkedIds kind = c.linkedIds kind ++ s.addedIds kind i := by
    intro j l hl hj hsame
    rw [hsame, addedIds, hl]
    simp [Ne.symm hj]
  cases s with
  | attach owner x =>
    by_cases howner : i = owner
    · subst howner
      simp only [reviseContent, if_true, addedIds, newLink?, true_and]
      exact linkedIds_append hp hd hc
    · refine hother rfl howner ?_
      simp only [reviseContent, if_neg howner]
  | configurationList t l =>
    by_cases ht : i = t
    · subst ht
      cases hd with
      | configurationList target absent =>
        rw [target] at hc
        cases hc
        simp only [reviseContent, if_true, addedIds, newLink?, true_and,
          Content.withConfigurationList, Content.linkedIds_target, absent]
        cases kind <;> simp
    · refine hother rfl ht ?_
      simp only [reviseContent, if_neg ht]
  | product t r =>
    by_cases ht : i = t
    · subst ht
      cases hd with
      | productReference target =>
        rw [target] at hc
        cases hc
        simp only [reviseContent, if_true, addedIds, newLink?, true_and,
          Content.withProductReference, Content.linkedIds_target]
        cases kind with
        | product => exact absurd hk (by decide)
        | _ => simp
    · refine hother rfl ht ?_
      simp only [reviseContent, if_neg ht]
  | settings j new =>
    simp only [reviseContent, addedIds, newLink?, List.append_nil]
    split
    · rw [Content.linkedIds, Content.links_withSettings, Content.linkedIds]
    · rfl
  | script t j slot new =>
    simp only [reviseContent, addedIds, newLink?, List.append_nil]
    split
    · rw [Content.linkedIds, Content.links_withRole, Content.linkedIds]
    · rfl
  | configuration | scheme | schemeChange => exact (List.append_nil _).symm

/-- The ids that a step adds to the list of a kind. -/
def newIds (s : Step) (kind : LinkKind) : List ObjectId :=
  (match s.newLink? with
  | some (_, l) => if l.kind = kind then [l.reference.id] else []
  | none => []) ++ s.new?.toList.flatMap (Content.linkedIds kind)

theorem exists_content?_of_newLink? (hp : p.WellFormed) (hd : s.Due p) {l : Link}
    (hl : s.newLink? = some (i, l)) : ∃ c, p.content? i = some c := by
  cases hd with
  | target owner record => cases hl; exact ⟨_, record⟩
  | phase target => cases hl; exact ⟨_, target⟩
  | buildFile phase => cases hl; exact ⟨_, phase⟩
  | group parent =>
    cases hl
    obtain ⟨g, hg⟩ := hp.groupAt parent
    exact ⟨_, hg⟩
  | source group => cases hl; exact ⟨_, group⟩
  | product owner group => cases hl; exact ⟨_, group⟩
  | configurationList target => cases hl; exact ⟨_, target⟩
  | productReference target => cases hl; exact ⟨_, target⟩
  | _ => cases hl

/-- What is linked after a step is what was linked before, and what the step adds. -/
theorem linked_apply (hp : p.WellFormed) (hk : kind.isOwning) (hd : s.Due p) (hf : s.Fresh p) :
    (s.apply p).linked kind ~ p.linked kind ++ s.newIds kind := by
  have hnew : ((s.new?.toList.map Content.object).map s.revise).flatMap
      (fun o => o.content.linkedIds kind) = s.new?.toList.flatMap (Content.linkedIds kind) := by
    cases hc : s.new? with
    | none => rfl
    | some c =>
      have hsame : (s.revise c.object).content = c := by
        rw [content_revise]
        exact reviseContent_new hp hd hf hc
      simp [hsame]
  have hold : (p.objects.map s.revise).flatMap (fun o => o.content.linkedIds kind) ~
      p.linked kind ++ match s.newLink? with
        | some (_, l) => if l.kind = kind then [l.reference.id] else []
        | none => [] := by
    have hcontent : ∀ o ∈ p.objects, (s.revise o).content.linkedIds kind =
        o.content.linkedIds kind ++ s.addedIds kind o.id := by
      intro o ho
      rw [content_revise]
      exact linkedIds_reviseContent hp hk hd (Project.content?_of_mem hp.nodup_ids ho)
    cases hl : s.newLink? with
    | none =>
      simp only [addedIds, hl, List.append_nil] at hcontent ⊢
      rw [List.flatMap_map, Project.linked, List.flatMap_congr hcontent]
    | some jl =>
      obtain ⟨j, l⟩ := jl
      obtain ⟨c, hc⟩ := exists_content?_of_newLink? hp hd hl
      obtain ⟨o, ho, rfl, -⟩ := Project.exists_mem_of_content? hc
      refine flatMap_map_perm hp.nodup_ids ho ?_ ?_
      · rw [hcontent o ho]
        simp [addedIds, hl]
      · intro o' ho' hne
        rw [hcontent o' ho']
        simp [addedIds, hl, Ne.symm hne]
  have hobjects : (s.apply p).linked kind = (p.objects.map s.revise).flatMap
      (fun o => o.content.linkedIds kind) ++ s.new?.toList.flatMap (Content.linkedIds kind) := by
    rw [← hnew, ← List.flatMap_append, ← List.map_append]
    rfl
  rw [hobjects, newIds, ← List.append_assoc]
  exact hold.append_right _

end Step
end ProjectGraph
