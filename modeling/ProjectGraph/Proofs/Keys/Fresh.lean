import ProjectGraph.Proofs.Keys.Findable
import ProjectGraph.Proofs.Ownership.Unique

/-! # Fresh keys

What has been looked for and is not there has a key that no registered object has. Configurations and
their lists are left out: nothing looks for them. -/

namespace ProjectGraph

/-- The content is a configuration or a list of configurations. -/
def Content.IsConfigurational (c : Content) : Prop :=
  c.configuration?.isSome ∨ c.configurationList?.isSome

/-- The key of a content tells whether it is a configuration or a list. -/
theorem Content.IsConfigurational.of_key_eq {c d : Content} (h : c.IsConfigurational)
    (hkey : c.key = d.key) : d.IsConfigurational := by
  obtain ⟨hclass, -⟩ := Content.objectClass_eq_of_key_eq hkey
  cases c with
  | configuration =>
    cases d with
    | configuration => exact .inl rfl
    | _ => cases hclass
  | configurationList =>
    cases d with
    | configurationList => exact .inr rfl
    | _ => cases hclass
  | _ => rcases h with h | h <;> cases h

namespace Project

variable [IdScheme] {p : Project} {i j : ObjectId} {c : Content}

theorem WellFormed.colon_not_mem (hp : p.WellFormed) (hc : p.content? i = some c) :
    ':' ∉ i.text.toList := by
  rw [hp.id_eq i c hc]
  exact IdScheme.colonFree c.key

omit [IdScheme] in
/-- A child with the path of a file is found by the search for the path. -/
theorem exists_first_of_parent {g : Group} {f : FileReference} (hg : p.content? j = some (.group g))
    (hchild : p.Parent i j) (hf : p.content? i = some (.file f)) :
    ∃ x, p.first (Content.fileAt? f.path) g.children = some x := by
  obtain ⟨g', hg', hi⟩ := hchild
  rw [hg] at hg'
  cases hg'
  obtain ⟨r, hr, rfl⟩ := List.mem_map.1 hi
  exact first_of_mem hr hf (Content.fileAt?_eq_some.2 ⟨rfl, rfl⟩)

variable {d : Content}

theorem key_ne_of_target (hp : p.WellFormed) (ho : p.Owned) {r : ProjectRecord} {name : String}
    {kind : TargetKind} (hr : p.content? p.record = some (.project r))
    (habsent : ∀ ref ∈ r.targets, ∀ t, p.content? ref.id = some (.target t) → t.name ≠ name)
    (hd : p.content? i = some d) : d.key ≠ (Part.target name kind).content.key := by
  intro h
  obtain ⟨t, rfl, hname⟩ := Content.exists_of_key_eq_target h
  obtain ⟨ref, href, rfl⟩ := List.mem_map.1 (ho.mem_targets hp hr hd)
  exact habsent ref href t hd hname

theorem key_ne_of_phase (hp : p.WellFormed) (ho : p.Owned) (hfind : p.Findable) {t : NativeTarget}
    {role : PhaseRole} (ht : p.content? j = some (.target t))
    (habsent : ∀ ref ∈ t.buildPhases, ∀ q, p.content? ref.id = some (.phase q) →
      q.role.place ≠ role.place)
    (hslot : ∀ slot, role.place = .inr slot → IsBuildSlot slot) (hd : p.content? i = some d) :
    d.key ≠ (Part.phase t.name role).content.key := by
  intro h
  obtain ⟨q, rfl, htarget, hplace⟩ := Content.exists_of_key_eq_phase hslot
    (fun q slot hq => by
      cases hq
      exact hfind.script i q slot hd) h
  -- The phase belongs to the only target of this name.
  obtain ⟨t', a, ha, hmem, hname⟩ := ho.exists_target_of_phase hp hd
  obtain rfl := hp.target_unique ha ht (hname.trans htarget)
  rw [ht] at ha
  cases ha
  obtain ⟨ref, href, rfl⟩ := List.mem_map.1 hmem
  exact habsent ref href q hd hplace

/-- A phase of files has a key of its own wherever scripts stand. -/
theorem key_ne_of_filesPhase (hp : p.WellFormed) (ho : p.Owned) {t : NativeTarget} {kind : PhaseKind}
    (ht : p.content? j = some (.target t)) (habsent : ¬ p.HasPhase j kind)
    (hd : p.content? i = some d) : d.key ≠ (Part.phase t.name (.files kind)).content.key := by
  intro h
  obtain ⟨q, rfl, htarget, hrole⟩ := Content.exists_of_key_eq_filesPhase rfl h
  have hin := ho.phaseIn hp ht hd htarget
  rw [hrole] at hin
  exact habsent ⟨_, hin⟩

theorem key_ne_of_buildFile (hp : p.WellFormed) (ho : p.Owned) {q : BuildPhase} {f : BuildFile}
    (hq : p.content? j = some (.phase q)) (hrole : q.role = .files f.phase)
    (htarget : f.target = q.target) (hfile : ∃ g, p.content? f.file.id = some (.file g))
    (habsent : ∀ ref ∈ q.files, ∀ b, p.content? ref.id = some (.buildFile b) →
      b.file.id ≠ f.file.id) (hd : p.content? i = some d) :
    d.key ≠ (Part.buildFile f).content.key := by
  intro h
  obtain ⟨g, hg⟩ := hfile
  obtain ⟨b, rfl, hid, hbtarget, hbphase⟩ := Content.exists_of_key_eq_buildFile (hp.colon_not_mem hg)
    (fun b hb => by
      cases hb
      obtain ⟨g', hg'⟩ := hp.file_of_buildFile hd
      exact hp.colon_not_mem hg') h
  -- The build file is listed by a phase with the key of this one, which is this one.
  have hmain : i ≠ p.mainGroup := Owned.ne_mainGroup hp hd (by simp [Content.home?])
  obtain ⟨k, e, he, hlink⟩ := ho.exists_owner hp hd rfl hmain
  obtain ⟨q', rfl, hmem⟩ := Content.mem_linkedIds_phaseFile.1 hlink
  obtain ⟨ref, href, rfl⟩ := List.mem_map.1 hmem
  obtain ⟨hqtarget, hplace⟩ := hp.buildFiles k q' he ref href b hd
  have hkey : q'.key = q.key := by
    rw [BuildPhase.key_eq_placeKey, BuildPhase.key_eq_placeKey, hplace, hrole, ← hqtarget, hbtarget,
      htarget, hbphase]
    rfl
  obtain rfl := hp.eq_of_key_eq he hq hkey
  rw [hq] at he
  cases he
  exact habsent ref href b hd hid

theorem key_ne_of_group (hfind : p.Findable) {above : List String} {name : String}
    (habsent : p.directories.get? (above ++ [name]) = none)
    (hproper : ∀ n ∈ above ++ [name], '/' ∉ n.toList) (hd : p.content? i = some d) :
    d.key ≠ (Part.group above name).content.key := by
  intro h
  obtain ⟨g, rfl, hrest⟩ := Content.exists_of_key_eq_group h
  obtain ⟨hmain, hproducts⟩ := keyRest_newGroup_ne above name
  rcases hfind.group i g hd with hkey | hkey | ⟨above', name', hi, hproper', hkey⟩
  · exact hmain (hrest.symm.trans hkey)
  · exact hproducts (hrest.symm.trans hkey)
  · rw [← directory_inj hproper' hproper (hkey.symm.trans hrest), hi] at habsent
    cases habsent

theorem key_ne_of_source (hp : p.WellFormed) (hfind : p.Findable) {path : String}
    (habsent : ∀ f, ¬ p.Filed path f) (hd : p.content? i = some d) :
    d.key ≠ (Part.source path).content.key := by
  intro h
  obtain ⟨f, rfl, htree, hpath⟩ := Content.exists_of_key_eq_file h
  cases f with
  | product => exact absurd htree (by decide : "BUILT_PRODUCTS_DIR" ≠ "SOURCE_ROOT")
  | source path' =>
    obtain rfl : path' = path := hpath
    obtain ⟨j, hj, hparent⟩ := hfind.source i path' hd
    obtain ⟨g, hg⟩ := hp.fileGroup hj
    obtain ⟨f, hf⟩ := exists_first_of_parent hg hparent hd
    exact habsent f ⟨j, g, hj, hg, hf⟩

theorem key_ne_of_product (hfind : p.Findable) {g : Group} {path : String} {type : FileType}
    (hg : p.content? p.productsGroup = some (.group g))
    (habsent : ∀ ref ∈ g.children, ∀ f, p.content? ref.id = some (.file f) → f.path ≠ path)
    (hd : p.content? i = some d) : d.key ≠ (Part.product path type).content.key := by
  intro h
  obtain ⟨f, rfl, htree, hpath⟩ := Content.exists_of_key_eq_file h
  cases f with
  | source => exact absurd htree (by decide : "SOURCE_ROOT" ≠ "BUILT_PRODUCTS_DIR")
  | product path' type' =>
    obtain ⟨g', hg', hi⟩ := hfind.product i path' type' hd
    rw [hg] at hg'
    cases hg'
    obtain ⟨ref, href, rfl⟩ := List.mem_map.1 hi
    exact habsent ref href _ hd hpath

end Project

/-- A due and orderly step registers a content with a key of its own, unless that is a configuration
or a list of configurations. -/
theorem Step.key_ne_of_due [IdScheme] {p : Project} {s : Step} {i : ObjectId} {c d : Content}
    (hp : p.WellFormed) (ho : p.Owned) (hfind : p.Findable) (hdue : s.Due p) (hs : s.Orderly p)
    (hnew : s.new? = some c) (hc : ¬ c.IsConfigurational) (hd : p.content? i = some d) :
    d.key ≠ c.key := by
  cases hdue with
  | target owner record absent =>
    cases hnew
    subst owner
    exact Project.key_ne_of_target hp ho record absent hd
  | @phase j t role target absent =>
    cases hnew
    refine Project.key_ne_of_phase hp ho hfind target absent (fun slot hslot => ?_) hd
    cases role with
    | files kind => cases hslot
    | script slot' script =>
      cases hslot
      exact hs.script j t.name slot script rfl
  | buildFile phase role target file absent =>
    cases hnew
    exact Project.key_ne_of_buildFile hp ho phase role target file absent hd
  | group parent absent proper =>
    cases hnew
    exact Project.key_ne_of_group hfind absent proper hd
  | @source j g path group =>
    cases hnew
    exact Project.key_ne_of_source hp hfind (hs.source j path rfl).2 hd
  | product owner group absent =>
    cases hnew
    subst owner
    exact Project.key_ne_of_product hfind group absent hd
  | configuration =>
    cases hnew
    exact absurd (.inl rfl) hc
  | configurationList =>
    cases hnew
    exact absurd (.inr rfl) hc
  | settings | productReference | script | scheme | schemeChange => cases hnew

end ProjectGraph
