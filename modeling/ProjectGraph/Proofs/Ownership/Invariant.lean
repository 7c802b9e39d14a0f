import Mathlib.Logic.Relation
import ProjectGraph.Proofs.Ownership.Linked

/-! # Ownership

Each content that belongs to another one is linked from its owner and from nowhere else, and the groups
make a tree below the main group. No step breaks this. -/

namespace ProjectGraph

open List Relation

/-- The kind of the link from an owner, for contents of a type that always has one. -/
def Content.home? : Content → Option LinkKind
  | file _ | group _ => some .child
  | buildFile _ => some .phaseFile
  | phase _ => some .buildPhase
  | target _ => some .target
  | configuration _ | configurationList _ | project _ => none

theorem Content.Grows.home?_eq {c d : Content} (h : c.Grows d) : d.home? = c.home? := by
  cases h <;> rfl

theorem Part.home?_content (x : Part) : x.content.home? = some x.home := by
  cases x <;> rfl

namespace Project

/-- The first id is one of the children of the group under the second one. -/
def Parent (p : Project) (i j : ObjectId) : Prop :=
  ∃ g, p.content? j = some (.group g) ∧ i ∈ g.children.map Reference.id

/-- Each owned content has one owner, and the groups make a tree. -/
structure Owned (p : Project) : Prop where
  nodup : ∀ kind, kind.isOwning → (p.linked kind).Nodup
  listed : ∀ i c kind, p.content? i = some c → c.home? = some kind → i ≠ p.mainGroup →
    i ∈ p.linked kind
  mainGroup : p.mainGroup ∉ p.linked .child
  rooted : ∀ i c, p.content? i = some c → c.home? = some .child →
    ReflTransGen p.Parent i p.mainGroup
  record : ∀ i r, p.content? i = some (.project r) → i = p.record

theorem Parent.grows {p q : Project} {i j : ObjectId} (h : p.Parent i j) (hpq : p.Grows q) :
    q.Parent i j := by
  obtain ⟨g, hg, hi⟩ := h
  obtain ⟨b, hb, -, -, -, hbegins⟩ := hpq.group hg
  exact ⟨b, hb, (hbegins.map Reference.id).subset hi⟩

end Project

/-! ## After a step -/

namespace Step

variable [IdScheme] {p : Project} {s : Step} {i : ObjectId} {kind : LinkKind}

theorem newIds_attach (hk : kind.isOwning) (owner : ObjectId) (x : Part) :
    (attach owner x).newIds kind = if x.home = kind then [x.content.id] else [] := by
  have hlinks : x.content.linkedIds kind = [] := by
    cases x with
    | buildFile f =>
      cases kind with
      | file => exact absurd hk (by decide)
      | _ => rfl
    | _ => cases kind <;> rfl
  simp only [newIds, newLink?, new?, Option.toList_some, List.flatMap_cons, List.flatMap_nil, hlinks,
    List.append_nil]
  rfl

/-- What a step adds to a list is not in it, and is added once. -/
theorem newIds_spec (hp : p.WellFormed) (hk : kind.isOwning) (hd : s.Due p) (hf : s.Fresh p) :
    (s.newIds kind).Nodup ∧ ∀ i ∈ s.newIds kind, i ∉ p.linked kind := by
  have hfree : ∀ c, s.new? = some c → c.id ∉ p.linked kind := by
    intro c hc hmem
    obtain ⟨d, hd, -⟩ := Project.exists_content?_of_mem_linked hp hmem
    rw [hf c hc] at hd
    cases hd
  cases s with
  | attach owner x =>
    rw [newIds_attach hk]
    split
    · refine ⟨by simp, ?_⟩
      intro i hi
      rw [List.mem_singleton.1 hi]
      exact hfree _ rfl
    · exact ⟨.nil, by simp⟩
  | configurationList t l =>
    cases hd with
    | configurationList target absent nodup registered unlisted =>
      simp only [newIds, newLink?, new?, Option.toList_some, List.flatMap_cons, List.flatMap_nil,
        List.append_nil, Content.linkedIds_configurationList]
      cases kind with
      | configurationList =>
        refine ⟨by simp, ?_⟩
        intro i hi
        have hi : i = (Content.configurationList l).id := by simpa using hi
        exact hi ▸ hfree _ rfl
      | configuration =>
        refine ⟨by simpa using nodup, ?_⟩
        intro i hi hlinked
        have hi : i ∈ l.configurations.map Reference.id := by simpa using hi
        obtain ⟨r, hr, rfl⟩ := List.mem_map.1 hi
        obtain ⟨j, c, hc, hmem⟩ := (Project.mem_linked hp.nodup_ids).1 hlinked
        -- Only lists are linked to configurations.
        obtain ⟨k, rfl, hlisted⟩ := Content.mem_linkedIds_configuration.1 hmem
        exact unlisted r hr j k hc hlisted
      | _ => simp
  | product t r =>
    cases kind with
    | product => exact absurd hk (by decide)
    | _ => exact ⟨.nil, by simp [newIds, newLink?, new?]⟩
  | configuration c => exact ⟨.nil, by simp [newIds, newLink?, new?, Content.linkedIds, Content.links]⟩
  | settings | script | scheme | schemeChange => exact ⟨.nil, by simp [newIds, newLink?, new?]⟩

theorem exists_group_of_attach (hp : p.WellFormed) {x : Part} (hd : (attach i x).Due p)
    (hx : x.home = .child) : ∃ g, p.content? i = some (.group g) := by
  cases hd with
  | group parent => exact hp.groupAt parent
  | source group => exact ⟨_, group⟩
  | product owner group => exact ⟨_, group⟩
  | target | phase | buildFile => cases hx

/-- What is attached to a group is one of its children. -/
theorem parent_attach (hp : p.WellFormed) {x : Part} (hd : (attach i x).Due p)
    (hx : x.home = .child) : ((attach i x).apply p).Parent x.content.id i := by
  obtain ⟨g, hg⟩ := exists_group_of_attach hp hd hx
  refine ⟨{ g with children := g.children ++ [x.reference] }, ?_, by simp [Part.reference]⟩
  rw [content?_apply_of_some hg]
  simp [reviseContent, hx, Content.append]

theorem owned_apply (hp : p.WellFormed) (ho : p.Owned) (hd : s.Due p) (hf : s.Fresh p) :
    (s.apply p).Owned where
  nodup kind hk := by
    rw [(linked_apply hp hk hd hf).nodup_iff]
    obtain ⟨hnodup, hnew⟩ := newIds_spec hp hk hd hf
    refine List.nodup_append.2 ⟨ho.nodup kind hk, hnodup, ?_⟩
    rintro i hi j hj rfl
    exact hnew i hj hi
  listed i d kind h hhome hmain := by
    have hk : kind.isOwning := by
      cases d <;> cases hhome <;> rfl
    rw [(linked_apply hp hk hd hf).mem_iff, List.mem_append]
    rcases content?_apply_grows hp hd hf h with ⟨c, hc, hgrow⟩ | ⟨hnew, rfl⟩
    · exact .inl (ho.listed i c kind hc (hgrow.home?_eq ▸ hhome) hmain)
    · cases s with
      | attach owner x =>
        cases hnew
        rw [Part.home?_content] at hhome
        cases hhome
        exact .inr (by simp [newIds_attach hk])
      | configuration | configurationList => cases hnew; cases hhome
      | _ => cases hnew
  mainGroup := by
    show p.mainGroup ∉ (s.apply p).linked .child
    rw [(linked_apply hp rfl hd hf).mem_iff, List.mem_append, not_or]
    refine ⟨ho.mainGroup, ?_⟩
    obtain ⟨g, hg⟩ := hp.mainGroup
    intro hmem
    cases s with
    | attach owner x =>
      rw [newIds_attach rfl] at hmem
      split at hmem
      · rw [List.mem_singleton.1 hmem, hf _ rfl] at hg
        cases hg
      · cases hmem
    | configurationList t l =>
      simp [newIds, newLink?, new?, Content.linkedIds_configurationList] at hmem
    | configuration c => simp [newIds, newLink?, new?, Content.linkedIds, Content.links] at hmem
    | _ => simp [newIds, newLink?, new?] at hmem
  rooted i d h hhome := by
    have hmono : ∀ {a b}, ReflTransGen p.Parent a b → ReflTransGen (s.apply p).Parent a b :=
      ReflTransGen.mono (fun _ _ hab => Project.Parent.grows hab (grows_apply hd)) _ _
    show ReflTransGen (s.apply p).Parent i p.mainGroup
    rcases content?_apply_grows hp hd hf h with ⟨c, hc, hgrow⟩ | ⟨hnew, rfl⟩
    · exact hmono (ho.rooted i c hc (hgrow.home?_eq ▸ hhome))
    · cases s with
      | attach owner x =>
        cases hnew
        rw [Part.home?_content] at hhome
        have hchild : x.home = .child := Option.some.inj hhome
        obtain ⟨g, hg⟩ := exists_group_of_attach hp hd hchild
        -- The new child stands below its owner, which is below the main group.
        exact .head (parent_attach hp hd hchild) (hmono (ho.rooted owner _ hg rfl))
      | configuration | configurationList => cases hnew; cases hhome
      | _ => cases hnew
  record i r h := by
    rcases content?_apply_grows hp hd hf h with ⟨c, hc, hgrow⟩ | ⟨hnew, -⟩
    · cases hgrow with
      | project => exact ho.record i _ hc
    · cases s with
      | attach owner x => cases x <;> cases hnew
      | _ => cases hnew

end Step

theorem Path.owned [IdScheme] {A : Project → Step → Prop} {p q : Project} (hpq : Path A p q)
    (hp : p.WellFormed) (ho : p.Owned) : q.Owned := by
  induction hpq with
  | refl => exact ho
  | step path due fresh _ ih => exact Step.owned_apply (path.wellFormed hp) ih due fresh

/-! ## What ownership says -/

namespace Project

variable {p : Project} {i j : ObjectId}

theorem mem_linkedIds_child_of_parent (h : p.Parent i j) :
    ∃ c, p.content? j = some c ∧ i ∈ c.linkedIds .child := by
  obtain ⟨g, hg, hi⟩ := h
  exact ⟨_, hg, Content.mem_linkedIds_child.2 ⟨g, rfl, hi⟩⟩

namespace Owned

variable [IdScheme]

/-- A child has one parent. -/
theorem parent_unique (hp : p.WellFormed) (ho : p.Owned) {k : ObjectId} (hj : p.Parent i j)
    (hk : p.Parent i k) : j = k := by
  obtain ⟨c, hc, hi⟩ := mem_linkedIds_child_of_parent hj
  obtain ⟨d, hd, hi'⟩ := mem_linkedIds_child_of_parent hk
  exact linked_unique hp (ho.nodup .child rfl) hc hd hi hi'

/-- From nowhere on a way to the main group does following parents lead back. -/
theorem not_cycle_of_rooted (hp : p.WellFormed) (ho : p.Owned)
    (h : ReflTransGen p.Parent i p.mainGroup) : ¬ TransGen p.Parent i i := by
  induction h using ReflTransGen.head_induction_on with
  | refl =>
    intro hcycle
    obtain ⟨j, hj, -⟩ := TransGen.head'_iff.1 hcycle
    obtain ⟨c, hc, hi⟩ := mem_linkedIds_child_of_parent hj
    exact ho.mainGroup ((mem_linked hp.nodup_ids).2 ⟨j, c, hc, hi⟩)
  | head hstep _ ih =>
    intro hcycle
    obtain ⟨k, hstep', hrest⟩ := TransGen.head'_iff.1 hcycle
    obtain rfl := ho.parent_unique hp hstep hstep'
    exact ih (TransGen.tail' hrest hstep)

/-- Following parents never leads back. -/
theorem not_cycle (hp : p.WellFormed) (ho : p.Owned) (i : ObjectId) : ¬ TransGen p.Parent i i := by
  intro hcycle
  obtain ⟨j, ⟨g, hg, hi⟩, -⟩ := TransGen.head'_iff.1 hcycle
  obtain ⟨r, hr, rfl⟩ := List.mem_map.1 hi
  obtain ⟨c, hc, hfits⟩ := hp.resolves j _ hg ⟨.child, r⟩ (by simp [Content.links, hr])
  have hhome : c.home? = some .child := by
    cases c <;> cases hfits <;> rfl
  exact ho.not_cycle_of_rooted hp (ho.rooted _ c hc hhome) hcycle

end Owned
end Project
end ProjectGraph
