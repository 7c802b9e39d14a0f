import ProjectGraph.Proofs.Keys.Fresh
import ProjectGraph.Proofs.Ownership.Apart
import ProjectGraph.Proofs.Operations.Dependencies
import ProjectGraph.Proofs.Ownership.PhaseFiles

/-! # Linking a target

If ids tell keys apart, a target can always be linked: its phase of frameworks and the build files in
it have keys of their own. What is known comes to the end of the phase, and nothing else changes. -/

namespace ProjectGraph

/-- Adding an item, and then each of the others that is new, is adding each one of all that is new. -/
theorem append_eraseDups_filter {α : Type} [DecidableEq α] {xs zs : List α} {y : α} (ys : List α)
    (h : zs = if y ∈ xs then xs else xs ++ [y]) :
    zs ++ (ys.filter (· ∉ zs)).eraseDups = xs ++ ((y :: ys).filter (· ∉ xs)).eraseDups := by
  by_cases hy : y ∈ xs
  · rw [if_pos hy] at h
    rw [h, List.filter_cons_of_neg (by simpa using hy)]
  · rw [if_neg hy] at h
    have hfilter : ys.filter (· ∉ zs) = (ys.filter (· ∉ xs)).filter fun x => !x == y := by
      rw [h, List.filter_filter]
      apply List.filter_congr
      intro x _
      by_cases hx : x = y <;> simp [hx]
    rw [List.filter_cons_of_pos (by simpa using hy), List.eraseDups_cons, hfilter, h, List.append_assoc]
    rfl

namespace Project

variable [IdScheme] {p q : Project} {t : ObjectId} {a : NativeTarget} {kind : PhaseKind}

/-! ## Nothing stands in the way -/

/-- The id of a key that no object has is free. -/
theorem content?_eq_none_of_key_ne (hinj : Function.Injective IdScheme.ofKey) (hp : p.WellFormed)
    {c : Content} (h : ∀ i d, p.content? i = some d → d.key ≠ c.key) : p.content? c.id = none := by
  by_contra htaken
  obtain ⟨d, hd⟩ := Option.ne_none_iff_exists'.1 htaken
  exact h _ d hd (hinj (hp.id_eq _ d hd)).symm

theorem exists_phaseOfKind (hinj : Function.Injective IdScheme.ofKey) (hp : p.WellFormed)
    (ho : p.Owned) (ha : p.content? t = some (.target a)) (kind : PhaseKind) :
    ∃ x q, phaseOfKind t kind p = .ok x q := by
  cases hx : p.first (Content.phaseAt? (.inl kind)) a.buildPhases with
  | some x => exact ⟨x, p, phaseOfKind_of_phaseIn hp ⟨a, ha, hx⟩⟩
  | none =>
    have habsent : ¬ p.HasPhase t kind := by
      rintro ⟨x, b, hb, hx'⟩
      rw [ha] at hb
      cases hb
      rw [hx] at hx'
      cases hx'
    have hfree : p.content? (Content.phase { target := a.name, role := .files kind }).id = none :=
      content?_eq_none_of_key_ne hinj hp fun i d => key_ne_of_filesPhase hp ho ha habsent
    rw [phaseOfKind_of_none hp ha hx]
    unfold appendPhase
    rw [bind_assoc, bind_of_ok (register_of_free hfree)]
    exact ⟨_, _, rfl⟩

/-- A file can be added to any phase of files. -/
theorem exists_addFileToPhase (hinj : Function.Injective IdScheme.ofKey) (hp : p.WellFormed)
    (ho : p.Owned) (ha : p.content? t = some (.target a)) (kind : PhaseKind)
    {file : Identified FileReference} (hfile : p.content? file.id = some (.file file.content))
    (settings : Option Settings) : ∃ q, addFileToPhase t kind file settings p = .ok () q := by
  obtain ⟨x, q, hphase⟩ := exists_phaseOfKind hinj hp ho ha kind
  obtain ⟨hpq, hx⟩ := Leads.of_ok (performs_phaseOfKind hp ha kind) hphase
  have hq := hpq.wellFormed hp
  obtain ⟨b, hb, -⟩ := hpq.grows.target ha
  obtain ⟨hcontent, hplace⟩ := hx.content?
  rw [addFileToPhase, bind_of_ok hphase, bind_of_ok (holdsFile_of_phaseIn hq hx file.id)]
  cases hf : q.first (Content.buildFileOf? file.id) x.content.files with
  | some f => exact ⟨q, rfl⟩
  | none =>
    let f : BuildFile :=
      { file := ⟨file.id, some file.content.name⟩, name := file.content.name, target := b.name,
        phase := kind, settings := settings }
    have habsent : ∀ r ∈ x.content.files, ∀ g, q.content? r.id = some (.buildFile g) →
        g.file.id ≠ f.file.id := by
      intro r hr g hg hid
      have hview := first_eq_none_iff.1 hf r hr _ hg
      rw [Content.buildFileOf?_eq_some.2 ⟨rfl, hid⟩] at hview
      cases hview
    have hfree : q.content? (Content.buildFile f).id = none :=
      content?_eq_none_of_key_ne hinj hq fun i d => key_ne_of_buildFile hq (hpq.owned hp ho) hcontent
        (PhaseRole.place_eq_inl.1 hplace) (hx.target hq hb).symm ⟨_, hpq.grows.file hfile⟩ habsent
    simp only [Option.isSome_none, Bool.false_eq_true, if_false]
    rw [bind_of_ok (target_of_content? hb), bind_of_ok (register_of_free hfree)]
    exact ⟨_, rfl⟩

/-- Adding files in order puts those that the phase does not hold at its end, each of them once. -/
theorem exists_forM_addFileToPhase {β : Type} (hinj : Function.Injective IdScheme.ofKey)
    (hp : p.WellFormed) (ho : p.Owned) (ha : p.content? t = some (.target a)) (kind : PhaseKind)
    (file : β → Identified FileReference) (xs : List β)
    (hfiles : ∀ x ∈ xs, p.content? (file x).id = some (.file (file x).content)) :
    ∃ q, xs.forM (fun x => addFileToPhase t kind (file x)) p = .ok ⟨⟩ q ∧
      q.filesIn t kind = p.filesIn t kind ++
        ((xs.map fun x => (file x).id).filter (· ∉ p.filesIn t kind)).eraseDups := by
  induction xs generalizing p a with
  | nil => exact ⟨p, rfl, by simp⟩
  | cons x xs ih =>
    have hx := hfiles x (by simp)
    obtain ⟨q, hadd⟩ := exists_addFileToPhase hinj hp ho ha kind hx none
    obtain ⟨hpq, hholds⟩ := Leads.of_ok (performs_addFileToPhase hp ha kind hx none) hadd
    obtain ⟨b, hb, -⟩ := hpq.grows.target ha
    obtain ⟨r, hrest, hlist⟩ := ih (hpq.wellFormed hp) (hpq.owned hp ho) hb fun y hy =>
      hpq.grows.file (hfiles y (List.mem_cons_of_mem x hy))
    refine ⟨r, (bind_of_ok hadd).trans hrest, ?_⟩
    rw [hlist]
    exact append_eraseDups_filter _ (hpq.filesIn_of_fileSteps hp ho hholds)

/-! ## Nothing else happens -/

/-- Linking registers no products. -/
theorem product?_of_linkingSteps {owner path : String} {names : List String}
    {f : Identified FileReference} (hpq : Path (LinkingSteps t owner names) p q) (hp : p.WellFormed)
    (hf : q.product? path = some f) : p.product? path = some f := by
  have hregistered : p.product? path ≠ none := by
    have hq : q.product? path ≠ none := by simp [hf]
    clear hf
    induction hpq with
    | refl => exact hq
    | @step q s hpath due fresh allowed ih =>
      refine ih ((Step.product?_apply (hpath.wellFormed hp) due fresh hq).resolve_right ?_)
      obtain ⟨n, -, g, -, rfl | ⟨i, b, rfl, -⟩⟩ := allowed <;> simp
  obtain ⟨g, hg⟩ := Option.ne_none_iff_exists'.1 hregistered
  rw [product?_of_grows hp hg hpq.grows] at hf
  rw [hg, hf]

/-- A phase of frameworks of the target with this name, or a build file in such a phase for a product
with one of these paths. -/
def IsLink (p : Project) (owner : String) (names : List String) : Content → Prop
  | .phase x => x.target = owner ∧ x.role = .files .frameworks
  | .buildFile f => f.target = owner ∧ f.phase = .frameworks ∧
      ∃ n ∈ names, ∃ g, p.product? n = some g ∧ g.id = f.file.id
  | _ => False

omit [IdScheme] in
theorem IsLink.append {owner : String} {names : List String} {c : Content}
    (h : p.IsLink owner names c) (linkKind : LinkKind) (r : Reference) :
    p.IsLink owner names (c.append linkKind r) := by
  cases c with
  | phase | buildFile => cases linkKind <;> exact h
  | _ => cases h

/-- From the first project to the second one, the target may have got a phase of frameworks, and its
phase of frameworks build files for products with these paths. Nothing else has happened. -/
structure OnlyLinks (p q : Project) (t : ObjectId) (a : NativeTarget) (names : List String) : Prop where
  target : q.content? t = some (.target a) ∨ ¬ p.HasPhase t .frameworks ∧ q.HasPhase t .frameworks ∧
    q.content? t = some (.target { a with
      buildPhases := a.buildPhases ++ [Part.reference (.phase a.name (.files .frameworks))] })
  phase : ∀ x, p.PhaseIn t (.inl .frameworks) x → ∃ more,
    q.content? x.id = some (.phase { x.content with files := x.content.files ++ more })
  others : ∀ i c, i ≠ t → (∀ x, p.PhaseIn t (.inl .frameworks) x → x.id ≠ i) →
    p.content? i = some c → q.content? i = some c
  new : ∀ i c, p.content? i = none → q.content? i = some c → p.IsLink a.name names c
  /-- New objects come last. -/
  order : p.objects.map Object.id <+: q.objects.map Object.id
  rest : q = { p with objects := q.objects }

theorem OnlyLinks.refl (ha : p.content? t = some (.target a)) (names : List String) :
    p.OnlyLinks p t a names where
  target := .inl ha
  phase x hx := ⟨[], by rw [List.append_nil]; exact hx.content?.1⟩
  others _ _ _ _ h := h
  new i c hnone h := by
    rw [hnone] at h
    cases h
  order := List.prefix_refl _
  rest := rfl

namespace OnlyLinks

section

variable {names : List String} {s : Step} {owner : ObjectId} {x : Part}
  (h : p.OnlyLinks q t a names) (hp : p.WellFormed) (hq : q.WellFormed) (hd : s.Due q) (hf : s.Fresh q)

include h hq hd hf

theorem new_apply (hs : s = .attach owner x) (hx : p.IsLink a.name names x.content) {i : ObjectId}
    {c : Content} (hnone : p.content? i = none) (hc : (s.apply q).content? i = some c) :
    p.IsLink a.name names c := by
  rcases Step.content?_apply_cases hc with ⟨d, hd', rfl⟩ | ⟨d, hnew, rfl, rfl⟩
  · have hlink := h.new i d hnone hd'
    rw [hs, Step.reviseContent]
    split
    · exact hlink.append _ _
    · exact hlink
  · rw [Step.reviseContent_new hq hd hf hnew]
    subst hs
    cases hnew
    exact hx

omit hd hf in
theorem rest_apply (hs : s = .attach owner x) (hx : x.home ≠ .child) :
    s.apply q = { p with objects := (s.apply q).objects } := by
  have hrest := h.rest
  have hnone : p.detached = [] := (congrArg detached hrest).symm.trans hq.detached
  subst hs
  cases x with
  | group | source | product => exact absurd rfl hx
  | _ =>
    unfold Step.apply
    rw [hrest]
    simp [hnone]

omit hq hd hf in
theorem order_apply (s : Step) : p.objects.map Object.id <+: (s.apply q).objects.map Object.id := by
  rw [Step.ids_apply]
  exact h.order.trans (List.prefix_append _ _)

/-- The target gets its phase of frameworks. -/
theorem phase_step (hpq : p.Grows q) (hp : p.WellFormed) (ho : q.Owned)
    (hs : s = .attach t (.phase a.name (.files .frameworks))) :
    p.OnlyLinks (s.apply q) t a names := by
  have habsent : ¬ q.HasPhase t .frameworks := not_hasPhase_of_due (hs ▸ hd)
  have hbefore : ¬ p.HasPhase t .frameworks := fun hphase => habsent (hphase.grows hp hpq)
  have hlast : q.content? t = some (.target a) := h.target.resolve_right fun hnew => habsent hnew.2.1
  subst hs
  obtain ⟨htarget, hphase⟩ := hasPhase_attached hq ho hlast hd hf
  refine ⟨.inr ⟨hbefore, hphase, htarget⟩, fun x hx => absurd ⟨x, hx⟩ hbefore, ?_,
    fun i c => h.new_apply hq hd hf rfl ⟨rfl, rfl⟩, h.order_apply _, h.rest_apply hq rfl (by simp [Part.home])⟩
  intro i c hi hother hc
  rw [Step.content?_apply_of_some (h.others i c hi hother hc), Step.reviseContent, if_neg hi]

/-- The phase of frameworks gets a file. -/
theorem file_step (hp : p.WellFormed) (ho : p.Owned)
    (ha : p.content? t = some (.target a)) {f : BuildFile} (hs : s = .attach owner (.buildFile f))
    (hlink : p.IsLink a.name names (.buildFile f)) : p.OnlyLinks (s.apply q) t a names := by
  -- The owner is a phase of frameworks of the target.
  have howner : ∃ y, q.content? owner = some (.phase y) ∧ y.target = a.name ∧
      y.role = .files .frameworks := by
    rw [hs] at hd
    obtain ⟨hname, hkind, -⟩ := hlink
    cases hd with
    | buildFile phase role target => exact ⟨_, phase, target.symm.trans hname, hkind ▸ role⟩
  obtain ⟨y, hy, hname, hrole⟩ := howner
  have hkept : ∀ i c, i ≠ owner → q.content? i = some c → (s.apply q).content? i = some c := by
    intro i c hi hc
    rw [Step.content?_apply_of_some hc, hs, Step.reviseContent, if_neg hi]
  have htarget : ∀ b, q.content? t = some (.target b) → (s.apply q).content? t = some (.target b) := by
    refine fun b hb => hkept t _ ?_ hb
    rintro rfl
    rw [hy] at hb
    cases hb
  have hq' := Step.grows_apply hd
  refine ⟨?_, ?_, ?_, fun i c => h.new_apply hq hd hf hs hlink, h.order_apply s,
    h.rest_apply hq hs (by simp [Part.home])⟩
  · rcases h.target with hold | ⟨hbefore, hphase, hnew⟩
    · exact .inl (htarget _ hold)
    · exact .inr ⟨hbefore, hphase.grows hq hq', htarget _ hnew⟩
  · intro x hx
    obtain ⟨more, hmore⟩ := h.phase x hx
    by_cases hi : x.id = owner
    · refine ⟨more ++ [Part.reference (.buildFile f)], ?_⟩
      rw [Step.content?_apply_of_some hmore, hs, Step.reviseContent, if_pos hi, ← List.append_assoc]
      rfl
    · exact ⟨more, hkept _ _ hi hmore⟩
  · intro i c hi hother hc
    refine hkept i c ?_ (h.others i c hi hother hc)
    rintro rfl
    rw [h.others i c hi hother hc] at hy
    cases hy
    have hin := ho.phaseIn hp ha hc hname
    rw [hrole] at hin
    exact hother _ hin rfl

end

end OnlyLinks

/-- What linking does. -/
theorem onlyLinks_of_path {names : List String} (hpq : Path (LinkingSteps t a.name names) p q)
    (hp : p.WellFormed) (ho : p.Owned) (ha : p.content? t = some (.target a)) :
    p.OnlyLinks q t a names := by
  induction hpq with
  | refl => exact .refl ha names
  | @step q s hpath due fresh allowed ih =>
    have hq := hpath.wellFormed hp
    obtain ⟨n, hn, g, hg, hphase | ⟨owner, f, hs, hname, hkind, hid, -⟩⟩ := allowed
    · exact ih.phase_step hq due fresh hpath.grows hp (hpath.owned hp ho) hphase
    · have hbefore := product?_of_linkingSteps hpath hp hg
      exact ih.file_step hq due fresh hp ho ha hs
        ⟨hname, hkind, n, hn, g, hbefore, hid.symm⟩

/-! ## Linking -/

/-- The products that the names name, in order. -/
def productsNamed (p : Project) (names : List String) : List ObjectId :=
  names.filterMap fun n => (p.product? n).map Identified.id

omit [IdScheme] in
theorem map_known (names : List String) :
    (p.known names).map (fun x => x.2.id) = p.productsNamed names := by
  rw [known, productsNamed, List.map_filterMap]
  refine List.filterMap_congr fun n _ => ?_
  cases p.product? n <;> rfl

/-- What has become of a project where a target has been linked with the frameworks of these names. -/
structure Linked (p q : Project) (t : ObjectId) (a : NativeTarget) (names : List String) : Prop where
  /-- What is known and not linked yet comes last, each product once, by its first name. -/
  files : q.filesIn t .frameworks = p.filesIn t .frameworks ++
    ((p.productsNamed names).filter (· ∉ p.filesIn t .frameworks)).eraseDups
  /-- The phase is made only if something is known. -/
  hasPhase : q.HasPhase t .frameworks ↔ p.HasPhase t .frameworks ∨ ∃ n ∈ names, p.product? n ≠ none
  onlyLinks : p.OnlyLinks q t a names

/-- The list says all that there is to link. -/
theorem Linked.holds {names : List String} (h : p.Linked q t a names) {n : String} (hn : n ∈ names)
    {f : Identified FileReference} (hf : p.product? n = some f) : f.id ∈ q.filesIn t .frameworks := by
  rw [h.files, List.mem_append]
  by_cases hbefore : f.id ∈ p.filesIn t .frameworks
  · exact .inl hbefore
  · refine .inr (List.mem_eraseDups.2 (List.mem_filter.2 ⟨?_, by simpa using hbefore⟩))
    exact List.mem_filterMap.2 ⟨n, hn, by rw [hf]; rfl⟩

/-- A target can be linked with any dependencies. -/
theorem exists_linkDependencies (hinj : Function.Injective IdScheme.ofKey) (hp : p.WellFormed)
    (ho : p.Owned) (ha : p.content? t = some (.target a)) (dependencies : Option (List String)) :
    ∃ q, linkDependencies t dependencies p = .ok (p.thirdParty (frameworkNames dependencies)) q ∧
      p.Linked q t a (frameworkNames dependencies) ∧
      ((∀ n ∈ frameworkNames dependencies, p.product? n = none) → q = p) := by
  have hregistered : ∀ x ∈ p.known (frameworkNames dependencies),
      p.content? x.2.id = some (.file x.2.content) := fun x hx =>
    (content?_of_product? (mem_known.1 hx).2).1
  obtain ⟨q, hloop, hfiles⟩ := exists_forM_addFileToPhase hinj hp ho ha .frameworks Prod.snd
    (p.known (frameworkNames dependencies)) hregistered
  have hlink : linkDependencies t dependencies p =
      .ok (p.thirdParty (frameworkNames dependencies)) q := by
    have hpartition : partitionDependencies dependencies p =
        .ok ⟨p.known (frameworkNames dependencies), p.thirdParty (frameworkNames dependencies)⟩ p :=
      partitionNames_eq hp _
    rw [linkDependencies, bind_of_ok hpartition, bind_of_ok hloop]
    rfl
  obtain ⟨hpq, -, hholds⟩ := Leads.of_ok (performs_linkDependencies hp ha dependencies) hlink
  have hnone : (∀ n ∈ frameworkNames dependencies, p.product? n = none) → q = p := by
    intro hall
    have hknown : p.known (frameworkNames dependencies) = [] :=
      List.filterMap_eq_nil_iff.2 fun n hn => by rw [hall n hn]; rfl
    rw [hknown] at hloop
    cases hloop
    rfl
  refine ⟨q, hlink, ⟨map_known (p := p) _ ▸ hfiles, ?_, onlyLinks_of_path hpq hp ho ha⟩, hnone⟩
  constructor
  · intro hphase
    by_cases hall : ∀ n ∈ frameworkNames dependencies, p.product? n = none
    · exact .inl (hnone hall ▸ hphase)
    · push Not at hall
      exact .inr hall
  · rintro (hphase | ⟨n, hn, hproduct⟩)
    · exact hphase.grows hp hpq.grows
    · obtain ⟨f, hf⟩ := Option.ne_none_iff_exists'.1 hproduct
      obtain ⟨x, -, hx, -⟩ := hholds n hn f hf
      exact ⟨x, hx⟩

end Project
end ProjectGraph
