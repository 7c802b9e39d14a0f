import Mathlib.Data.List.Induction
import ProjectGraph.Proofs.Ownership.Placed

/-! # Ways to groups

The names on a way are those of the groups that it goes down through, from the main group to the group
that it leads to. A group has one parent, so one way leads to it. To the group of a directory leads a
way with the components of the directory as its names. -/

namespace ProjectGraph.Project

variable {p q : Project} {i j : ObjectId} {names names' directory above : List String}

/-- A way with these names leads from the main group down to the group. -/
inductive Way (p : Project) : List String → ObjectId → Prop
  | main : Way p [] p.mainGroup
  | child {names i j g} (way : Way p names i) (parent : p.Parent j i)
      (group : p.content? j = some (.group g)) : Way p (names ++ [g.name]) j

theorem Way.grows (h : p.Way names i) (hpq : p.Grows q) : q.Way names i := by
  induction h with
  | main =>
    rw [← hpq.mainGroup]
    exact .main
  | child _ parent group ih =>
    obtain ⟨b, hb, hname, -⟩ := hpq.group group
    rw [← hname]
    exact .child ih (parent.grows hpq) hb

section

variable [IdScheme]

/-- The main group is in no group. -/
theorem Owned.not_parent_mainGroup (hp : p.WellFormed) (ho : p.Owned) : ¬ p.Parent p.mainGroup j := by
  intro h
  obtain ⟨c, hc, hi⟩ := mem_linkedIds_child_of_parent h
  exact ho.mainGroup ((mem_linked hp.nodup_ids).2 ⟨j, c, hc, hi⟩)

/-- One way leads to a group. -/
theorem Way.unique (hp : p.WellFormed) (ho : p.Owned) (h : p.Way names i) (h' : p.Way names' i) :
    names = names' := by
  induction h generalizing names' with
  | main =>
    cases h' with
    | main => rfl
    | child _ parent => exact (ho.not_parent_mainGroup hp parent).elim
  | child _ parent group ih =>
    cases h' with
    | main => exact (ho.not_parent_mainGroup hp parent).elim
    | child way' parent' group' =>
      obtain rfl := ho.parent_unique hp parent parent'
      rw [group] at group'
      cases group'
      rw [ih way']

/-! ## Groups of directories -/

/-- Directories above one with a group have groups. -/
theorem Placed.exists_groupAt (h : p.Placed) (hi : p.groupAt directory = some i)
    (hbegins : above <+: directory) : ∃ j, p.groupAt above = some j := by
  induction directory using List.reverseRecOn generalizing i with
  | nil =>
    obtain rfl := List.prefix_nil.1 hbegins
    exact ⟨i, hi⟩
  | append_singleton front name ih =>
    rcases List.prefix_concat_iff.1 hbegins with rfl | hbegins
    · exact ⟨i, hi⟩
    · rw [groupAt_append] at hi
      obtain ⟨j, hj, -⟩ := (h front name i hi).parent
      exact ih hj hbegins

/-- The names on the way to the group of a directory are the components of the directory. -/
theorem Placed.way (h : p.Placed) (hi : p.groupAt directory = some i) : p.Way directory i := by
  induction directory using List.reverseRecOn generalizing i with
  | nil =>
    cases hi
    exact .main
  | append_singleton above name ih =>
    rw [groupAt_append] at hi
    have hplaced := h above name i hi
    obtain ⟨g, hg, hbare⟩ := hplaced.group
    obtain ⟨j, hj, hlists⟩ := hplaced.parent
    have hname : g.name = name := congrArg Group.name hbare
    have hparent : p.Parent i j := parent_iff.2 ⟨_, hplaced.id_eq.symm, hlists⟩
    rw [← hname]
    exact .child (ih hj) hparent hg

end
end ProjectGraph.Project
