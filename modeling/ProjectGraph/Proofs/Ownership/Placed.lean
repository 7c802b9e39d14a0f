import ProjectGraph.Proofs.Ownership.Shared
import ProjectGraph.Proofs.Ownership.Start

/-! # The groups of directories

A directory has the group that is made for it, and that group is in the group of the directory above.
So a directory has the same group in all projects in which it has one. -/

namespace ProjectGraph

namespace Project

variable [IdScheme] {p q : Project} {above : List String} {name : String} {i : ObjectId}

/-- The group under this id is the one of a directory, and the group of the directory above lists it. -/
structure PlacedAt (p : Project) (above : List String) (name : String) (i : ObjectId) : Prop where
  id_eq : i = (Part.group above name).content.id
  group : ∃ g, p.content? i = some (.group g) ∧ g.bare = newGroup above name
  parent : ∃ j, p.groupAt above = some j ∧ p.Lists j ⟨.child, (Part.group above name).reference⟩

/-- Every directory has its own group, in the group of the directory above. -/
def Placed (p : Project) : Prop :=
  ∀ above name i, p.directories.get? (above ++ [name]) = some i → p.PlacedAt above name i

theorem PlacedAt.grows (h : p.PlacedAt above name i) (hpq : p.Grows q) : q.PlacedAt above name i where
  id_eq := h.id_eq
  group := by
    obtain ⟨g, hg, hbare⟩ := h.group
    obtain ⟨d, hd, hgrow⟩ := hpq.content i _ hg
    obtain ⟨b, rfl, hb⟩ := hgrow.bare_eq
    exact ⟨b, hd, hb.trans hbare⟩
  parent := by
    obtain ⟨j, hj, hlists⟩ := h.parent
    exact ⟨j, hpq.groupAt hj, hlists.grows hpq⟩

end Project

namespace Step

variable [IdScheme] {p : Project} {s : Step}

theorem placed_apply (hp : p.WellFormed) (hd : s.Due p) (hf : s.Fresh p) (h : p.Placed) :
    (s.apply p).Placed := by
  have hdue := hd
  have hgrow := grows_apply hd
  intro above name i hi
  cases hd with
  | @group owner above' name' parent absent =>
    change (p.directories.insert (above' ++ [name']) _).get? _ = _ at hi
    rw [Table.get?_insert] at hi
    split at hi
    · next hsame =>
      obtain ⟨rfl, rfl⟩ : above' = above ∧ name' = name := by simpa using hsame
      cases hi
      exact ⟨rfl, ⟨_, content?_apply_new hp hdue hf rfl, rfl⟩, owner, hgrow.groupAt parent,
        (lists_apply hp hdue hf).2 (.inr ⟨rfl, rfl⟩)⟩
    · exact (h above name i hi).grows hgrow
  | _ => exact (h above name i hi).grows hgrow

end Step

theorem Path.placed [IdScheme] {A : Project → Step → Prop} {p q : Project} (hpq : Path A p q)
    (hp : p.WellFormed) (h : p.Placed) : q.Placed := by
  induction hpq with
  | refl => exact h
  | step path due fresh _ ih => exact Step.placed_apply (path.wellFormed hp) due fresh ih

/-- A new project has no directories. -/
theorem Project.placed_of_create [IdScheme] {p : Project} {name : String} {names : List String}
    (h : create name names = .ok p) : p.Placed := by
  obtain ⟨hne, rfl, -⟩ := eq_of_create h
  intro above name i hi
  cases hi

end ProjectGraph
