import ProjectGraph.Proofs.Builds.Filing
import ProjectGraph.Proofs.Twins.Builds

/-! # Forks

Before a target is built, a project and what the build of an independent target has made of it are
twins. What concerns a target leads to nothing that concerns another one. -/

namespace ProjectGraph

open Project

variable [IdScheme] {p q : Project} {i : ObjectId} {name : String}

/-! ## What concerns a target -/

omit [IdScheme] in
theorem Content.Extends.eq_of_not_isShared {a b : Content} (h : a.Extends b) (ha : ¬ a.isShared) :
    b = a := by
  cases h with
  | same => rfl
  | group | project => exact absurd rfl ha

/-- The kind of the links inside of a target that lead to such a content. -/
def Content.innerKind? : Content → Option LinkKind
  | phase _ => some .buildPhase
  | buildFile _ => some .phaseFile
  | configurationList _ => some .configurationList
  | configuration _ => some .configuration
  | _ => none

omit [IdScheme] in
theorem LinkKind.innerKind?_of_fits {kind : LinkKind} (hkind : kind.isInner) {c : Content}
    (h : kind.fits c) : c.innerKind? = some kind := by
  cases kind with
  | buildPhase | phaseFile | configurationList | configuration =>
    cases c <;> first | rfl | exact absurd h Bool.false_ne_true
  | _ => exact absurd hkind Bool.false_ne_true

omit [IdScheme] in
theorem LinkKind.not_isShared_of_fits {kind : LinkKind} (hkind : kind.isInner) {c : Content}
    (h : kind.fits c) : ¬ c.isShared := by
  have hinner := innerKind?_of_fits hkind h
  cases c with
  | group | project => cases hinner
  | _ => exact Bool.false_ne_true

/-- A part of a target that concerns a target name is linked from what concerns the name. -/
theorem Project.Concerns.of_link (hp : p.WellFormed) (ho : p.Owned) {c : Content}
    (hc : p.content? i = some c) (hown : ¬ c.isShared) {l : Link} (hl : l ∈ c.links)
    (hkind : l.kind.isInner) (h : p.Concerns name l.reference.id) : p.Concerns name i := by
  obtain ⟨d, hd, hfits⟩ := hp.resolves i c hc l hl
  obtain ⟨kind, r⟩ := l
  have hinner := LinkKind.innerKind?_of_fits hkind hfits
  have hlinked : r.id ∈ c.linkedIds kind := Content.mem_linkedIds.2 ⟨r, hl, rfl⟩
  simp only at hd h
  -- What `r` leads to settles the kind of the link.
  rcases h with hbelongs | ⟨t, a, r', ha, hname, hlist, hid⟩
  · cases hbelongs with
    | target named =>
      obtain ⟨b, hb, -⟩ := named
      rw [hb] at hd
      cases hd
      cases hinner
    | phase hphase howner =>
      rw [hphase] at hd
      cases hd
      cases hinner
      obtain ⟨t, rfl, hmem⟩ := Content.mem_linkedIds_buildPhase.1 hlinked
      obtain ⟨r', hr', hid⟩ := List.mem_map.1 hmem
      exact .inl (.target ⟨t, hc, (hp.phases i t hc r' hr' _ (hid ▸ hphase)).symm.trans howner⟩)
    | configuration named configures =>
      obtain ⟨e, he⟩ := configures.exists_configuration hp
      rw [he] at hd
      cases hd
      cases hinner
      obtain ⟨a, r', k, ha, hr', hk, hmem⟩ := configures.exists_list
      obtain ⟨b, hb, hname⟩ := named
      rw [ha] at hb
      cases hb
      have hsame := linked_unique hp (ho.nodup .configuration rfl) hc hk hlinked
        (Content.mem_linkedIds_configuration.2 ⟨k, rfl, hmem⟩)
      exact .inr ⟨_, a, r', ha, hname, hr', hsame.symm⟩
  · obtain ⟨k, hk⟩ := hp.configurationList_of_target ha hlist
    rw [hid, hd] at hk
    cases hk
    cases hinner
    cases c with
    | target b =>
      have hr : b.configurationList = some r := by simpa [Content.links] using hl
      exact .inl (.target (ho.list_unique hp ha hc hlist hr hid ▸ ⟨a, ha, hname⟩))
    | project => exact absurd rfl hown
    | _ => simp [Content.links] at hl

namespace Fork

variable {F : Fork} {t : ObjectId}

/-- What concerns the target that is built now has nothing to do with the other build, provided that
this is so for the target itself and for what it leads to. -/
theorem keeps_of_concerns (hp : p.WellFormed) (ho : p.Owned)
    (hnamed : ∀ t, p.IsNamed t F.name → F.Keeps t)
    (hinner : ∀ i c, F.Keeps i → p.content? i = some c → ∀ l ∈ c.links, l.kind.isInner →
      F.Keeps l.reference.id) (h : p.Concerns F.name i) : F.Keeps i := by
  have hlist : ∀ {t a r}, p.content? t = some (.target a) → a.name = F.name →
      a.configurationList = some r → F.Keeps r.id := by
    intro t a r ha hname hr
    exact hinner t _ (hnamed t ⟨a, ha, hname⟩) ha ⟨.configurationList, r⟩
      (by simp [Content.links, hr]) rfl
  rcases h with hbelongs | ⟨t, a, r, ha, hname, hr, rfl⟩
  · cases hbelongs with
    | target named => exact hnamed i named
    | phase hphase howner =>
      obtain ⟨t, a, ha, hmem, hname⟩ := ho.exists_target_of_phase hp hphase
      obtain ⟨r, hr, rfl⟩ := List.mem_map.1 hmem
      refine hinner t _ (hnamed t ⟨a, ha, hname.trans howner⟩) ha ⟨.buildPhase, r⟩ ?_ rfl
      simp [Content.links, hr]
    | configuration named configures =>
      obtain ⟨a, r, l, ha, hr, hl, hmem⟩ := configures.exists_list
      obtain ⟨b, hb, hname⟩ := named
      rw [ha] at hb
      cases hb
      obtain ⟨r', hr', rfl⟩ := List.mem_map.1 hmem
      exact hinner r.id _ (hlist ha hname hr) hl ⟨.configuration, r'⟩ (List.mem_map_of_mem hr') rfl
  · exact hlist ha hname hr

theorem Twins.keeps_of_concerns (h : F.Twins p q) (hi : p.Concerns F.name i) : F.Keeps i :=
  Fork.keeps_of_concerns h.left.wellFormed h.left.owned h.named h.inner hi

/-- The second project has no other target of the name either. -/
theorem TwinsAt.keeps_of_concerns (h : F.TwinsAt t p q) (hi : q.Concerns F.name i) : F.Keeps i := by
  refine Fork.keeps_of_concerns h.right.wellFormed h.right.owned ?_ ?_ hi
  · rintro u ⟨b, hb, hname⟩
    obtain ⟨a, -, ha, hname'⟩ := h.exists_target
    exact h.right.wellFormed.target_unique ha hb (hname'.trans hname.symm) ▸ h.keeps
  · exact fun j c hj hc => h.inner j c hj ((h.agree j hj).symm.trans hc)

end Fork

/-! ## Independent targets -/

/-- The targets differ in their names and their products, neither depends on the product of the other
one, and they file different paths. -/
structure Target.Independent (d e : Target) (tree : FileTree) (root : PathName) : Prop where
  name : d.name ≠ e.name
  product : d.productPath ≠ e.productPath
  dependency : e.productPath ∉ frameworkNames d.dependencies
  dependent : d.productPath ∉ frameworkNames e.dependencies
  paths : ∀ path ∈ (d.filings tree root).map Prod.fst, path ∉ (e.filings tree root).map Prod.fst

omit [IdScheme] in
theorem Target.Independent.symm {d e : Target} {tree : FileTree} {root : PathName}
    (h : d.Independent e tree root) : e.Independent d tree root where
  name := h.name.symm
  product := h.product.symm
  dependency := h.dependent
  dependent := h.dependency
  paths path he hd := h.paths path hd he

theorem Path.neat {A : Project → Step → Prop} (hpq : Path A p q) (h : p.Neat) : q.Neat where
  toTidy := hpq.tidy h.toTidy
  placed := hpq.placed h.wellFormed h.placed

namespace Fork

variable {d e : Target} {tree : FileTree} {root : PathName}

/-- The fork at the build of another target, for the build of a target. -/
def ofBuild (hp : p.Neat) (hpq : Path (BuildStep e p) p q) (d : Target) (tree : FileTree)
    (root : PathName) : Fork where
  base := p
  other := q
  other_neat := hpq.neat hp
  grows := hpq.grows
  name := d.name
  otherName := e.name
  Reads i path :=
    (i = p.productsGroup ∧ (path = d.productPath ∨ path ∈ frameworkNames d.dependencies)) ∨
      i ≠ p.productsGroup ∧ path ∈ (d.filings tree root).map Prod.fst

section

variable (hp : p.Neat) (hpq : Path (BuildStep e p) p q)

theorem readsFor_ofBuild : (ofBuild hp hpq d tree root).ReadsFor d tree root where
  name := rfl
  paths _ hpath _ hi := .inr ⟨hi, hpath⟩
  product := .inl ⟨rfl, .inl rfl⟩
  dependencies _ hn := .inl ⟨rfl, .inr hn⟩

/-- The other build leaves as it is what it has nothing to do with. -/
theorem content?_ofBuild (hi : (ofBuild hp hpq d tree root).Keeps i) : q.content? i = p.content? i := by
  rcases hi with ⟨hbase, hother⟩ | ⟨c, hc, hown, hconcerns⟩
  · exact hother.trans hbase.symm
  · change p.content? i = some c at hc
    rcases hpq.extends_or_belongs hp.wellFormed hc with ⟨c', hc', hextends⟩ | hbelongs
    · rw [hc, hc', hextends.eq_of_not_isShared hown]
    · exact absurd (.inl hbelongs) hconcerns

end

/-! ## The twins at a fork -/

/-- Outside of the products the same file is found unless a source of its path has been made. -/
theorem fileIn_eq_of_sources (hp : p.Neat) (hq : q.Neat) (hpq : p.Grows q) {path : String}
    (hi : i ≠ p.productsGroup) (hsource : ∀ j, q.Source path j → p.Source path j) :
    q.fileIn i path = p.fileIn i path := by
  cases hf : q.fileIn i path with
  | none =>
    cases hf' : p.fileIn i path with
    | none => rfl
    | some f =>
      rw [fileIn_of_grows hp.wellFormed hpq hf'] at hf
      cases hf
  | some f =>
    obtain ⟨r, hid, hlists, hfile, hpath⟩ := exists_lists_of_fileIn hf
    have hparent : q.Parent f.id i := parent_iff.2 ⟨r, hid, hlists⟩
    obtain ⟨id, c⟩ := f
    cases c with
    | product path' type =>
      have hproducts := hq.owned.parent_unique hq.wellFormed hparent (hq.stocked id path' type hfile)
      exact absurd (hproducts.trans hpq.productsGroup) hi
    | source path' =>
      obtain rfl : path' = path := hpath
      -- The source has its place in a group of the first project, which is this one.
      have hold : p.content? id = some (.file (.source path')) := hsource id hfile
      have hmain : id ≠ p.mainGroup := by
        rintro rfl
        obtain ⟨g, hg⟩ := hp.wellFormed.mainGroup
        rw [hold] at hg
        cases hg
      obtain ⟨j, d, hd, hmem⟩ := hp.owned.exists_owner hp.wellFormed hold rfl hmain
      obtain ⟨g, rfl, hchild⟩ := Content.mem_linkedIds_child.1 hmem
      have hold' : p.Parent id j := ⟨g, hd, hchild⟩
      obtain rfl := hq.owned.parent_unique hq.wellFormed hparent (hold'.grows hpq)
      obtain ⟨x, hx⟩ := exists_first_of_parent hd hold' hold
      have hfound : p.fileIn i path' = some x := (fileIn_of_group hd path').trans hx
      rw [hfound, ← hf, fileIn_of_grows hp.wellFormed hpq hfound]

/-- A product of another path than the one of the build is found as before. -/
theorem product?_of_buildStep (hp : p.Neat) (hpq : Path (BuildStep e p) p q) {path : String}
    (hpath : path ≠ e.productPath) : q.product? path = p.product? path := by
  cases hf : p.product? path with
  | some f => exact product?_of_grows hp.wellFormed hf hpq.grows
  | none =>
    by_contra hnew
    rcases (hpq.mono fun _ _ hs => hs.inBuild).product?_of_inBuild hp.wellFormed hp.apart hnew with h | h
    · exact h hf
    · exact hpath h

theorem keeps_of_named (hp : p.Neat) (hpq : Path (BuildStep e p) p q) (hne : d.name ≠ e.name)
    (ht : p.IsNamed t d.name) : (ofBuild hp hpq d tree root).Keeps t := by
  have hq := hpq.neat hp
  have ht' := ht.grows hpq.grows
  obtain ⟨a, ha, hname⟩ := ht
  refine .inr ⟨_, ha, Bool.false_ne_true, ?_⟩
  rintro (hbelongs | ⟨u, b, r, hb, -, hr, rfl⟩)
  · exact hne (Belongs.unique hq.wellFormed hq.owned (.target ht') hbelongs)
  · obtain ⟨l, hl⟩ := hq.wellFormed.configurationList_of_target hb hr
    obtain ⟨a', ha', -⟩ := ht'
    rw [ha'] at hl
    cases hl

theorem keeps_of_link (hp : p.Neat) (hpq : Path (BuildStep e p) p q)
    (hi : (ofBuild hp hpq d tree root).Keeps i) {c : Content} (hc : p.content? i = some c) {l : Link}
    (hl : l ∈ c.links) (hkind : l.kind.isInner) :
    (ofBuild hp hpq d tree root).Keeps l.reference.id := by
  have hq := hpq.neat hp
  have hc' := (content?_ofBuild hp hpq hi).trans hc
  rcases hi with ⟨hnone, -⟩ | ⟨b, hb, hown, hconcerns⟩
  · exact absurd (hc.symm.trans hnone) nofun
  · obtain rfl : c = b := Option.some.inj (hc.symm.trans hb)
    obtain ⟨d', hd', hfits⟩ := hp.wellFormed.resolves i c hc l hl
    refine .inr ⟨d', hd', LinkKind.not_isShared_of_fits hkind hfits, fun h => hconcerns ?_⟩
    exact h.of_link hq.wellFormed hq.owned hc' hown hl hkind

theorem twins_ofBuild (hp : p.Neat) (hpq : Path (BuildStep e p) p q) (hind : d.Independent e tree root)
    (hgains : p.Gains q (e.filings tree root)) : (ofBuild hp hpq d tree root).Twins p q where
  left := hp
  right := hpq.neat hp
  growsLeft := .refl p
  growsRight := .refl q
  agree _ hi := content?_ofBuild hp hpq hi
  inner _ _ hi hc _ hl hkind := keeps_of_link hp hpq hi hc hl hkind
  named _ ht := keeps_of_named hp hpq hind.name ht
  apart _ _ hc hnone := absurd (hc.symm.trans hnone) nofun
  groups i g hg := by
    obtain ⟨c, hc, hgrow⟩ := hpq.grows.content i _ hg
    obtain ⟨g', rfl, hbare⟩ := hgrow.bare_eq
    exact ⟨g', hc, hbare⟩
  lists i l := ⟨.inr, fun h => h.elim (Lists.grows · hpq.grows) id⟩
  directories d i := ⟨.inr, fun h => h.elim (hpq.grows.directories d i) id⟩
  files i path hread := by
    rcases hread with ⟨rfl, hpath⟩ | ⟨hi, hpath⟩
    · have hproduct : q.product? path = p.product? path := by
        refine product?_of_buildStep hp hpq ?_
        rintro rfl
        rcases hpath with hpath | hpath
        · exact hind.product hpath.symm
        · exact hind.dependency hpath
      rwa [product?_eq_fileIn, product?_eq_fileIn, hpq.grows.productsGroup] at hproduct
    · exact fileIn_eq_of_sources hp (hpq.neat hp) hpq.grows hi fun j hj =>
        (hgains.sources path j hj).resolve_right (hind.paths path hpath)

/-- A build of the target after the other build does what a build before it does. -/
theorem twins_of_builds {s s₁ u u₁ : BuildState} {t' : ObjectId} (hp : s.project.Neat)
    (hb : s.builder.scriptsDirectory = none)
    (hpath : Path (BuildStep e s.project) s.project u.project) (hfiles : s.SameFiles u)
    (hgains : s.project.Gains u.project (e.filings s.workspace.tree s.builder.root))
    (hind : d.Independent e s.workspace.tree s.builder.root)
    (hs : Build.build d s = .ok t s₁) (hu : Build.build d u = .ok t' u₁) :
    t' = t ∧ (ofBuild hp hpath d s.workspace.tree s.builder.root).TwinsAt t s₁.project u₁.project := by
  have htwins : s.Beside (ofBuild hp hpath d s.workspace.tree s.builder.root).Twins s u :=
    ⟨twins_ofBuild hp hpath hind hgains, .refl s, hfiles⟩
  have hnew : ∀ v, u.project.IsNamed v d.name → s.project.IsNamed v d.name := by
    rintro v ⟨b, hv, hname⟩
    obtain ⟨a, ha⟩ := (hpath.mono fun _ _ hs => hs.inBuild).exists_target_of_inBuild hp.wellFormed hv
      (hname ▸ hind.name)
    obtain ⟨b', hb', hname', -⟩ := hpath.grows.target ha
    rw [hv] at hb'
    cases hb'
    exact ⟨a, ha, hname'.symm.trans hname⟩
  obtain ⟨rfl, h⟩ := Twins.inStep_build htwins hb (readsFor_ofBuild hp hpath) hnew t s₁ t' u₁ hs hu
  obtain ⟨-, names, hbuilt⟩ := Leads.of_ok (Build.performs_build hp.wellFormed d) hs
  exact ⟨rfl, h.projects, hbuilt.prepared.entered.isNamed⟩

end Fork
end ProjectGraph
