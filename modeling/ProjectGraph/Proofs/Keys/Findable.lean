import ProjectGraph.Proofs.Keys.Parts
import ProjectGraph.Proofs.Ownership.Apart
import ProjectGraph.Proofs.Ownership.Start

/-! # Where objects are found

Each file, each group and each script of a project stands where it is looked for before another one is
made: a file in the group of its directory, a group in the table of directories, a product among the
products, and a script in a slot of builds. Steps keep this up if sources and scripts are put where
builds put them. -/

namespace ProjectGraph

namespace Project

/-- Objects are found where they are looked for. -/
structure Findable [IdScheme] (p : Project) : Prop where
  group : ∀ i g, p.content? i = some (.group g) →
    (Content.group g).keyRest = (Content.group newMainGroup).keyRest ∨
      (Content.group g).keyRest = (Content.group newProductsGroup).keyRest ∨
        ∃ above name, p.directories.get? (above ++ [name]) = some i ∧
          (∀ n ∈ above ++ [name], '/' ∉ n.toList) ∧
          (Content.group g).keyRest = (Content.group (newGroup above name)).keyRest
  source : ∀ i path, p.content? i = some (.file (.source path)) →
    ∃ j, p.fileGroup path = some j ∧ p.Parent i j
  product : ∀ i path type, p.content? i = some (.file (.product path type)) →
    p.Parent i p.productsGroup
  script : ∀ i q slot, p.content? i = some (.phase q) → q.role.place = .inr slot → IsBuildSlot slot

end Project

namespace Step

variable [IdScheme] {p : Project} {s : Step}

/-- The step puts sources and scripts where builds put them. -/
structure Orderly (p : Project) (s : Step) : Prop where
  source : ∀ i path, s = .attach i (.source path) →
    p.fileGroup path = some i ∧ ∀ f, ¬ p.Filed path f
  script : ∀ i owner slot script, s = .attach i (.phase owner (.script slot script)) →
    IsBuildSlot slot

theorem findable_apply (hp : p.WellFormed) (hd : s.Due p) (hf : s.Fresh p) (hs : s.Orderly p)
    (h : p.Findable) : (s.apply p).Findable where
  group i b hb := by
    rcases content?_apply_grows hp hd hf hb with ⟨c, hc, hgrow⟩ | ⟨hnew, rfl⟩
    · obtain ⟨-, hrest⟩ := Content.objectClass_eq_of_key_eq hgrow.key_eq
      cases hgrow with
      | @group a =>
        rw [hrest]
        refine (h.group i a hc).imp_right (Or.imp_right ?_)
        rintro ⟨above, name, hi, hproper, hkey⟩
        exact ⟨above, name, (grows_apply hd).directories _ _ hi, hproper, hkey⟩
    · cases hd with
      | @group j above name parent absent proper =>
        cases hnew
        refine .inr (.inr ⟨above, name, ?_, proper, rfl⟩)
        show (p.directories.insert (above ++ [name]) _).get? _ = _
        rw [Table.get?_insert, if_pos rfl]
        rfl
      | _ => cases hnew
  source i path hi := by
    have hgrows := grows_apply hd
    rcases content?_apply_grows hp hd hf hi with ⟨c, hc, hgrow⟩ | ⟨hnew, rfl⟩
    · cases hgrow
      obtain ⟨j, hj, hparent⟩ := h.source i path hc
      exact ⟨j, Project.directoryGroup_of_grows hj hgrows, hparent.grows hgrows⟩
    · have hdue := hd
      cases hd with
      | @source j g _ group =>
        cases hnew
        obtain ⟨hj, -⟩ := hs.source j path rfl
        exact ⟨j, Project.directoryGroup_of_grows hj hgrows, parent_attach hp hdue rfl⟩
      | _ => cases hnew
  product := stocked_apply hp hd hf h.product
  script i q slot hq hslot := by
    rcases content?_apply_grows hp hd hf hq with ⟨c, hc, hgrow⟩ | ⟨hnew, rfl⟩
    · cases hgrow with
      | phase target place => exact h.script i _ slot hc (place.symm.trans hslot)
    · cases hd with
      | @phase j t role target =>
        cases hnew
        cases role with
        | files kind => cases hslot
        | script slot' script =>
          cases hslot
          exact hs.script j t.name slot script rfl
      | _ => cases hnew

end Step

theorem Path.findable [IdScheme] {p q : Project} (hpq : Path (fun q s => s.Orderly q) p q)
    (hp : p.WellFormed) (h : p.Findable) : q.Findable := by
  induction hpq with
  | refl => exact h
  | step path due fresh allowed ih =>
    exact Step.findable_apply (path.wellFormed hp) due fresh allowed ih

/-- In a new project there is nothing that can be looked for in vain. -/
theorem Project.findable_of_create [IdScheme] {p : Project} {name : String} {names : List String}
    (h : create name names = .ok p) : p.Findable := by
  constructor
  · intro i g hg
    obtain ⟨hne, hp, hn⟩ := eq_of_create h
    have hmem := ((content?_initial hp hn).1 hg).1
    rcases mem_initialContents.1 hmem with h | h | ⟨n, -, h⟩ | h | h <;> cases h
    · exact .inl rfl
    · exact .inr (.inl rfl)
  · exact fun i path hi => (isInitial_of_create h hi).elim
  · exact fun i path type hi => (isInitial_of_create h hi).elim
  · exact fun i q slot hq => (isInitial_of_create h hq).elim

end ProjectGraph
