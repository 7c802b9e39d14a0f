import ProjectGraph.Proofs.Operations.Products
import ProjectGraph.Proofs.Ownership.Invariant

/-! # Products and directories

The group of products is the group of no directory, so the products of a project are what has been
registered as a product. -/

namespace ProjectGraph

namespace Project

variable {p : Project} {n : String}

/-- No directory has the group of products. -/
def Apart (p : Project) : Prop := ∀ directory, p.groupAt directory ≠ some p.productsGroup

/-- The group of products lists every product. -/
def Stocked (p : Project) : Prop :=
  ∀ i path type, p.content? i = some (.file (.product path type)) → p.Parent i p.productsGroup

theorem Apart.fileGroup_ne (h : p.Apart) (path : String) : p.fileGroup path ≠ some p.productsGroup := by
  unfold fileGroup directoryGroup
  simp only
  split
  · simp
  · exact h _

/-- A project whose products stand among the products, and nowhere else. -/
structure Tidy [IdScheme] (p : Project) : Prop where
  wellFormed : p.WellFormed
  owned : p.Owned
  apart : p.Apart
  stocked : p.Stocked

/-- There is a product with a path if a child of the group of products has it. -/
theorem product?_ne_none_iff [IdScheme] (hp : p.WellFormed) :
    p.product? n ≠ none ↔
      ∃ i f, p.Parent i p.productsGroup ∧ p.content? i = some (.file f) ∧ f.path = n := by
  obtain ⟨g, hg⟩ := hp.productsGroup
  rw [product?, products_of_group hg]
  constructor
  · intro h
    obtain ⟨f, hf⟩ := Option.ne_none_iff_exists'.1 h
    obtain ⟨r, hr, hid, -⟩ := exists_of_first hf
    obtain ⟨hfile, hpath⟩ := content?_of_first_file hf
    exact ⟨f.id, f.content, ⟨g, hg, hid ▸ List.mem_map_of_mem hr⟩, hfile, hpath⟩
  · rintro ⟨i, f, ⟨g', hg', hi⟩, hf, hpath⟩
    rw [hg] at hg'
    cases hg'
    obtain ⟨r, hr, rfl⟩ := List.mem_map.1 hi
    have hview : Content.fileAt? n (.file f) = some f := Content.fileAt?_eq_some.2 ⟨rfl, hpath⟩
    obtain ⟨x, hx⟩ := first_of_mem hr hf hview
    simp [hx]

end Project

namespace Step

variable [IdScheme] {p : Project} {s : Step} {i j : ObjectId} {n : String}

/-- A child after a step was one before, or the step has attached it. -/
theorem parent_apply (hp : p.WellFormed) (hd : s.Due p) (hf : s.Fresh p)
    (h : (s.apply p).Parent i j) : p.Parent i j ∨ ∃ x, s = .attach j x ∧ i = x.content.id := by
  obtain ⟨b, hb, hi⟩ := h
  obtain ⟨r, hr, rfl⟩ := List.mem_map.1 hi
  have hl : ⟨.child, r⟩ ∈ (Content.group b).links := by simp [Content.links, hr]
  rcases link_apply_cases hp hd hf hb hl with ⟨c, hc, hgrow, hold | hnew⟩ | hnew
  · cases hgrow with
    | @group a => exact .inl ⟨a, hc, List.mem_map_of_mem (by simpa [Content.links] using hold)⟩
  · cases s with
    | attach owner x =>
      simp only [newLink?, Option.some.injEq, Prod.mk.injEq, Link.mk.injEq] at hnew
      obtain ⟨rfl, -, rfl⟩ := hnew
      exact .inr ⟨x, rfl, rfl⟩
    | configurationList | product => cases hnew
    | _ => cases hnew
  · cases hd with
    | group =>
      cases hnew
      cases hr
    | _ => cases hnew

/-- A product after a step was one before, or the step has put a file among the products. -/
theorem product?_apply (hp : p.WellFormed) (hd : s.Due p) (hf : s.Fresh p)
    (h : (s.apply p).product? n ≠ none) :
    p.product? n ≠ none ∨ (∃ type, s = .attach p.productsGroup (.product n type)) ∨
      s = .attach p.productsGroup (.source n) := by
  obtain ⟨i, f, hparent, hfile, rfl⟩ :=
    (Project.product?_ne_none_iff (wellFormed_apply hp hd hf)).1 h
  change (s.apply p).Parent i p.productsGroup at hparent
  rcases parent_apply hp hd hf hparent with hold | ⟨x, rfl, rfl⟩
  · rcases content?_apply_grows hp hd hf hfile with ⟨c, hc, hgrow⟩ | ⟨hnew, rfl⟩
    · cases hgrow
      exact .inl ((Project.product?_ne_none_iff hp).2 ⟨i, f, hold, hc, rfl⟩)
    · -- What is new has not been a child of anything.
      obtain ⟨g, hg, hi⟩ := hold
      obtain ⟨r, hr, hid⟩ := List.mem_map.1 hi
      obtain ⟨c, hc, -⟩ := hp.resolves _ _ hg ⟨.child, r⟩ (by simp [Content.links, hr])
      rw [hid, hf _ hnew] at hc
      cases hc
  · rw [content?_apply_new hp hd hf rfl] at hfile
    cases x with
    | product path type =>
      cases hfile
      exact .inr (.inl ⟨type, rfl⟩)
    | source path =>
      cases hfile
      exact .inr (.inr rfl)
    | _ => cases hfile

theorem apart_apply (hp : p.WellFormed) (hd : s.Due p) (hf : s.Fresh p) (h : p.Apart) :
    (s.apply p).Apart := by
  intro directory hgroup
  have hgrow := grows_apply hd
  change (s.apply p).groupAt directory = some p.productsGroup at hgroup
  cases hd with
  | @group owner above name =>
    by_cases hsame : directory = above ++ [name]
    · subst hsame
      rw [Project.groupAt, if_neg (by simp)] at hgroup
      change (p.directories.insert (above ++ [name]) _).get? _ = _ at hgroup
      rw [Table.get?_insert, if_pos rfl] at hgroup
      obtain ⟨g, hg⟩ := hp.productsGroup
      rw [← Option.some.inj hgroup, hf _ rfl] at hg
      cases hg
    · apply h directory
      unfold Project.groupAt at hgroup ⊢
      split
      · next hnil => rwa [if_pos hnil] at hgroup
      · next hne =>
        rw [if_neg hne] at hgroup
        change (p.directories.insert (above ++ [name]) _).get? _ = _ at hgroup
        rwa [Table.get?_insert, if_neg (Ne.symm hsame)] at hgroup
  | _ => exact h directory hgroup

theorem stocked_apply (hp : p.WellFormed) (hd : s.Due p) (hf : s.Fresh p) (h : p.Stocked) :
    (s.apply p).Stocked := by
  intro i path type hi
  show (s.apply p).Parent i p.productsGroup
  rcases content?_apply_grows hp hd hf hi with ⟨c, hc, hgrow⟩ | ⟨hnew, rfl⟩
  · cases hgrow
    exact (h i path type hc).grows (grows_apply hd)
  · have hdue := hd
    cases hd with
    | product owner =>
      cases hnew
      rw [← owner]
      exact parent_attach hp hdue rfl
    | _ => cases hnew

end Step

theorem Path.apart [IdScheme] {A : Project → Step → Prop} {p q : Project} (hpq : Path A p q)
    (hp : p.WellFormed) (h : p.Apart) : q.Apart := by
  induction hpq with
  | refl => exact h
  | step path due fresh _ ih => exact Step.apart_apply (path.wellFormed hp) due fresh ih

theorem Path.stocked [IdScheme] {A : Project → Step → Prop} {p q : Project} (hpq : Path A p q)
    (hp : p.WellFormed) (h : p.Stocked) : q.Stocked := by
  induction hpq with
  | refl => exact h
  | step path due fresh _ ih => exact Step.stocked_apply (path.wellFormed hp) due fresh ih

theorem Path.tidy [IdScheme] {A : Project → Step → Prop} {p q : Project} (hpq : Path A p q)
    (h : p.Tidy) : q.Tidy where
  wellFormed := hpq.wellFormed h.wellFormed
  owned := hpq.owned h.wellFormed h.owned
  apart := hpq.apart h.wellFormed h.apart
  stocked := hpq.stocked h.wellFormed h.stocked

end ProjectGraph
