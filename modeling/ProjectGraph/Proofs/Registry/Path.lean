import ProjectGraph.Proofs.Registry.Growth

/-! # Paths

A path leads from one project to another through steps that are due and fresh. Along a path a
well-formed project stays well-formed, and its contents only grow. -/

namespace ProjectGraph
namespace Step

variable [IdScheme] {p : Project} {s : Step} {i : ObjectId} {c d : Content}
/-! ## Well-formedness after a step -/

/-- A link after a step has been there before, or the step has added it, or it is one of the new
content. -/
theorem link_apply_cases (hp : p.WellFormed) (hd : s.Due p) (hf : s.Fresh p)
    (h : (s.apply p).content? i = some d) {l : Link} (hl : l ∈ d.links) :
    (∃ c, p.content? i = some c ∧ c.Grows d ∧ (l ∈ c.links ∨ s.newLink? = some (i, l))) ∨
      s.new? = some d := by
  rcases content?_apply_cases h with ⟨c, hc, rfl⟩ | ⟨c, hc, rfl, rfl⟩
  · exact .inl ⟨c, hc, grows_reviseContent hd hc, mem_links_reviseContent hl⟩
  · rw [reviseContent_new hp hd hf hc]
    exact .inr hc

theorem resolves_of_newLink? (hp : p.WellFormed) (hd : s.Due p) (hf : s.Fresh p) {l : Link}
    (hl : s.newLink? = some (i, l)) : (s.apply p).Resolves l := by
  cases s with
  | attach owner x =>
    cases hl
    exact ⟨x.content, content?_apply_new hp hd hf rfl, x.home_fits⟩
  | configurationList j k =>
    cases hl
    exact ⟨.configurationList k, content?_apply_new hp hd hf rfl, rfl⟩
  | product j r =>
    cases hl
    have hgrow := grows_apply hd
    cases hd with
    | productReference target product => exact ⟨_, hgrow.file product, rfl⟩
  | _ => cases hl

theorem resolves_of_mem_new (hd : s.Due p) (hc : s.new? = some c) {l : Link} (hl : l ∈ c.links) :
    (s.apply p).Resolves l := by
  refine (grows_apply hd).resolves ?_
  cases hd with
  | target | phase | group | source | product | configuration => cases hc; cases hl
  | buildFile phase role target file =>
    cases hc
    obtain ⟨g, hg⟩ := file
    rw [List.mem_singleton.1 hl]
    exact ⟨_, hg, rfl⟩
  | configurationList target absent nodup registered =>
    cases hc
    obtain ⟨r, hr, rfl⟩ := List.mem_map.1 hl
    obtain ⟨k, hk⟩ := registered r hr
    exact ⟨_, hk, rfl⟩
  | settings | productReference | script | scheme | schemeChange => cases hc

theorem ids_apply (s : Step) (p : Project) :
    (s.apply p).objects.map Object.id = p.objects.map Object.id ++ s.new?.toList.map Content.id := by
  unfold apply
  simp [Function.comp_def, id_revise, Content.object]

/-- No step gives an object a part that its type has no place for. -/
theorem attached_revise {o : Object} (hd : s.Due p)
    (ho : ∀ c, p.content? o.id = some c → o.content = c) : (s.revise o).attached = o.attached := by
  obtain ⟨j, c, a⟩ := o
  have hupdate : ∀ {i : ObjectId} {f : Object → Object},
      (j = i → (f ⟨j, c, a⟩).attached = a) → (Object.updateAt i f ⟨j, c, a⟩).attached = a := by
    intro i f h
    unfold Object.updateAt
    split
    · next hj => exact h hj
    · rfl
  cases hd with
  | target | phase | buildFile | group | source | product | script => exact hupdate fun _ => rfl
  | configurationList target =>
    refine hupdate ?_
    rintro rfl
    obtain rfl := ho _ target
    rfl
  | settings configuration =>
    refine hupdate ?_
    rintro rfl
    obtain rfl := ho _ configuration
    rfl
  | productReference target =>
    refine hupdate ?_
    rintro rfl
    obtain rfl := ho _ target
    rfl
  | configuration | scheme | schemeChange => rfl

/-- A content after a step was there before, or is new. -/
theorem content?_apply_grows (hp : p.WellFormed) (hd : s.Due p) (hf : s.Fresh p) {d : Content}
    (h : (s.apply p).content? i = some d) :
    (∃ c, p.content? i = some c ∧ c.Grows d) ∨ (s.new? = some d ∧ d.id = i) := by
  rcases content?_apply_cases h with ⟨c, hc, rfl⟩ | ⟨c, hc, rfl, rfl⟩
  · exact .inl ⟨c, hc, grows_reviseContent hd hc⟩
  · rw [reviseContent_new hp hd hf hc]
    exact .inr ⟨hc, rfl⟩

theorem nodup_ids_apply (hp : p.WellFormed) (hf : s.Fresh p) :
    ((s.apply p).objects.map Object.id).Nodup := by
  rw [ids_apply]
  cases hn : s.new? with
  | none => simpa using hp.nodup_ids
  | some c =>
    have hfree : c.id ∉ p.objects.map Object.id := by
      intro h
      obtain ⟨o, ho, hid⟩ := List.mem_map.1 h
      exact Project.content?_eq_none_iff.1 (hf c hn) o ho hid
    refine List.nodup_append.2 ⟨hp.nodup_ids, by simp, ?_⟩
    rintro a ha b hb rfl
    simp only [Option.toList_some, List.map_cons, List.map_nil, List.mem_singleton] at hb
    exact hfree (hb ▸ ha)

theorem directories_apply (hp : p.WellFormed) (hd : s.Due p) (hf : s.Fresh p) {directory : List String}
    (h : (s.apply p).directories.get? directory = some i) :
    ∃ g, (s.apply p).content? i = some (.group g) := by
  have hold : p.directories.get? directory = some i → ∃ g, (s.apply p).content? i = some (.group g) := by
    intro h
    obtain ⟨g, hg⟩ := hp.directories directory i h
    obtain ⟨b, hb, -⟩ := (grows_apply hd).group hg
    exact ⟨b, hb⟩
  have hdue := hd
  cases hd with
  | @group j above name parent absent proper =>
    change (p.directories.insert (above ++ [name]) _).get? directory = some i at h
    rw [Table.get?_insert] at h
    split at h
    · cases h
      exact ⟨_, content?_apply_new hp hdue hf rfl⟩
    · exact hold h
  | _ => exact hold h

/-- A product that a target refers to after a step is one of the products before it. -/
theorem listed_of_productReference (hp : p.WellFormed) (hd : s.Due p) (hf : s.Fresh p)
    {t : NativeTarget} {r : Reference} (h : (s.apply p).content? i = some (.target t))
    (hr : t.productReference = some r) :
    ∃ g, p.content? p.productsGroup = some (.group g) ∧ r.id ∈ g.children.map Reference.id := by
  have hl : ⟨.product, r⟩ ∈ (Content.target t).links := by simp [Content.links, hr]
  rcases link_apply_cases hp hd hf h hl with ⟨c, hc, hgrow, hl | hl⟩ | hnew
  · cases hgrow with
    | @target a => exact hp.products i a r hc (by simpa [Content.links] using hl)
  · cases hd with
    | productReference target product group listed =>
      cases hl
      exact ⟨_, group, listed⟩
    | target | phase | buildFile | group | source | product | configurationList => cases hl
    | _ => cases hl
  · cases hd with
    | target =>
      cases hnew
      cases hr
    | _ => cases hnew

theorem target_of_listed_phase (hp : p.WellFormed) (hd : s.Due p) (hf : s.Fresh p) {t : NativeTarget}
    {r : Reference} {q : BuildPhase} (h : (s.apply p).content? i = some (.target t))
    (hr : r ∈ t.buildPhases) (hq : (s.apply p).content? r.id = some (.phase q)) :
    q.target = t.name := by
  have hl : ⟨.buildPhase, r⟩ ∈ (Content.target t).links := by simp [Content.links, hr]
  rcases link_apply_cases hp hd hf h hl with ⟨c, hc, hgrow, hl | hl⟩ | hnew
  · cases hgrow with
    | @target a _ hname =>
      obtain ⟨e, he, hfits⟩ := hp.resolves i _ hc _ hl
      cases e <;> cases hfits
      next q₀ =>
      obtain ⟨q', hq', htarget, -⟩ := (grows_apply hd).phase he
      rw [hq] at hq'
      cases hq'
      rw [htarget, hname]
      exact hp.phases i a hc r (by simpa [Content.links] using hl) q₀ he
  · have hnew : ∀ c, s.new? = some c → (s.apply p).content? c.id = some c := fun c hc =>
      content?_apply_new hp hd hf hc
    cases hd with
    | @phase j a role target =>
      cases hl
      rw [target] at hc
      cases hc
      have hphase := hnew _ rfl
      change (Step.apply _ p).content? (Part.phase a.name role).reference.id = _ at hphase
      rw [hq] at hphase
      cases hphase
      cases hgrow with
      | target hname => exact hname.symm
    | _ => cases hl
  · cases hd with
    | target =>
      cases hnew
      cases hr
    | _ => cases hnew

theorem place_of_listed_file (hp : p.WellFormed) (hd : s.Due p) (hf : s.Fresh p) {q : BuildPhase}
    {r : Reference} {f : BuildFile} (h : (s.apply p).content? i = some (.phase q)) (hr : r ∈ q.files)
    (hf' : (s.apply p).content? r.id = some (.buildFile f)) :
    f.target = q.target ∧ q.role.place = .inl f.phase := by
  have hl : ⟨.phaseFile, r⟩ ∈ (Content.phase q).links := by simp [Content.links, hr]
  rcases link_apply_cases hp hd hf h hl with ⟨c, hc, hgrow, hl | hl⟩ | hnew
  · cases hgrow with
    | @phase a _ htarget hplace =>
      obtain ⟨e, he, hfits⟩ := hp.resolves i _ hc _ hl
      cases e <;> cases hfits
      next f₀ =>
      have hf₀ := (grows_apply hd).buildFile he
      rw [hf'] at hf₀
      cases hf₀
      rw [htarget, hplace]
      exact hp.buildFiles i a hc r (by simpa [Content.links] using hl) _ he
  · have hnew : ∀ c, s.new? = some c → (s.apply p).content? c.id = some c := fun c hc =>
      content?_apply_new hp hd hf hc
    cases hd with
    | @buildFile j a b phase role target =>
      cases hl
      rw [phase] at hc
      cases hc
      have hfile := hnew _ rfl
      change (Step.apply _ p).content? (Part.buildFile b).reference.id = _ at hfile
      rw [hf'] at hfile
      cases hfile
      cases hgrow with
      | phase htarget hplace =>
        rw [htarget, hplace, role]
        exact ⟨target, rfl⟩
    | _ => cases hl
  · cases hd with
    | phase =>
      cases hnew
      cases hr
    | _ => cases hnew

theorem wellFormed_apply (hp : p.WellFormed) (hd : s.Due p) (hf : s.Fresh p) :
    (s.apply p).WellFormed where
  nodup_ids := nodup_ids_apply hp hf
  id_eq i d h := by
    rcases content?_apply_grows hp hd hf h with ⟨c, hc, hgrow⟩ | ⟨-, rfl⟩
    · rw [hgrow.id_eq]
      exact hp.id_eq i c hc
    · rfl
  resolves i d h l hl := by
    rcases link_apply_cases hp hd hf h hl with ⟨c, hc, -, hl | hl⟩ | hnew
    · exact (grows_apply hd).resolves (hp.resolves i c hc l hl)
    · exact resolves_of_newLink? hp hd hf hl
    · exact resolves_of_mem_new hd hnew hl
  mainGroup := by
    obtain ⟨g, hg⟩ := hp.mainGroup
    obtain ⟨b, hb, -⟩ := (grows_apply hd).group hg
    exact ⟨b, hb⟩
  productsGroup := by
    obtain ⟨g, hg⟩ := hp.productsGroup
    obtain ⟨b, hb, -⟩ := (grows_apply hd).group hg
    exact ⟨b, hb⟩
  record := by
    obtain ⟨r, hr⟩ := hp.record
    obtain ⟨b, hb, -⟩ := (grows_apply hd).projectRecord hr
    exact ⟨b, hb⟩
  directories directory i h := directories_apply hp hd hf h
  products i t r h hr := by
    obtain ⟨g, hg, hmem⟩ := listed_of_productReference hp hd hf h hr
    obtain ⟨b, hb, -, -, -, hchildren⟩ := (grows_apply hd).group hg
    exact ⟨b, hb, (hchildren.map Reference.id).subset hmem⟩
  phases i t h r hr q hq := target_of_listed_phase hp hd hf h hr hq
  buildFiles i q h r hr f hf' := place_of_listed_file hp hd hf h hr hf'
  detached := by
    show p.detached.map s.revise = []
    rw [hp.detached]
    rfl
  attached o' ho' := by
    obtain ⟨o, ho, rfl⟩ := List.mem_map.1 ho'
    rcases List.mem_append.1 ho with ho | ho
    · rw [attached_revise hd fun c hc => ?_]
      · exact hp.attached o ho
      · rw [Project.content?_of_mem hp.nodup_ids ho] at hc
        exact Option.some.inj hc
    · obtain ⟨c, hc, rfl⟩ := List.mem_map.1 ho
      rw [attached_revise hd fun d hd => ?_]
      · rfl
      · have hfree := hf c (Option.mem_toList.1 hc)
        rw [show c.object.id = c.id from rfl, hfree] at hd
        cases hd

end Step

/-! ## Paths -/

/-- The second project is reached from the first one by steps that are due, fresh and allowed. -/
inductive Path [IdScheme] (A : Project → Step → Prop) (p : Project) : Project → Prop
  | refl : Path A p p
  | step {q s} (path : Path A p q) (due : s.Due q) (fresh : s.Fresh q) (allowed : A q s) :
      Path A p (s.apply q)

namespace Path

variable [IdScheme] {A B : Project → Step → Prop} {p q r : Project}

theorem single {s : Step} (hd : s.Due p) (hf : s.Fresh p) (ha : A p s) : Path A p (s.apply p) :=
  .step .refl hd hf ha

theorem trans (hpq : Path A p q) (hqr : Path A q r) : Path A p r := by
  induction hqr with
  | refl => exact hpq
  | step _ due fresh allowed ih => exact .step ih due fresh allowed

/-- A condition that all steps of a path have may make use of how far the path has come. -/
theorem restrict (hpq : Path A p q) (h : ∀ q s, Path A p q → s.Due q → A q s → B q s) :
    Path B p q := by
  induction hpq with
  | refl => exact .refl
  | step path due fresh allowed ih => exact .step ih due fresh (h _ _ path due allowed)

theorem mono (h : ∀ q s, A q s → B q s) (hpq : Path A p q) : Path B p q :=
  hpq.restrict fun q s _ _ => h q s

theorem wellFormed (hpq : Path A p q) (hp : p.WellFormed) : q.WellFormed := by
  induction hpq with
  | refl => exact hp
  | step _ due fresh _ ih => exact Step.wellFormed_apply ih due fresh

theorem grows (hpq : Path A p q) : p.Grows q := by
  induction hpq with
  | refl => exact .refl p
  | step _ due _ _ ih => exact ih.trans (Step.grows_apply due)

/-- Projects register at the end. -/
theorem prefix_ids (hpq : Path A p q) : p.objects.map Object.id <+: q.objects.map Object.id := by
  induction hpq with
  | refl => exact List.prefix_refl _
  | step _ _ _ _ ih =>
    rw [Step.ids_apply]
    exact ih.trans (List.prefix_append _ _)

end Path
end ProjectGraph
