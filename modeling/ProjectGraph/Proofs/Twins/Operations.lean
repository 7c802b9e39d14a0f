import ProjectGraph.Proofs.InStep
import ProjectGraph.Proofs.Twins.Basic

/-! # Operations on twins

On twins, what a build does to its target is done in step. -/

namespace ProjectGraph

open Project

variable [IdScheme]

section

variable {p q : Project} {s : Step} {c : Content} {β : Type} {f : ObjectId → Edit β} {b : β}

/-- Registering what a step makes new and doing the rest of the step is taking the step. -/
theorem Edit.eq_of_register (hd : s.Due p) (hc : s.new? = some c)
    (hf : f c.id { p with objects := p.objects ++ [c.object] } = .ok b (s.apply p)) {b' : β}
    {p' : Project} (h : (Project.register c >>= f) p = .ok b' p') :
    b' = b ∧ p' = s.apply p ∧ s.Fresh p := by
  have hstep : Edit.Performs (fun _ _ => True) (Project.register c >>= f) p fun b' p' =>
      b' = b ∧ p' = s.apply p ∧ s.Fresh p :=
    Edit.performs_register hd trivial hc hf fun hfresh => ⟨rfl, rfl, hfresh⟩
  exact (Leads.of_ok hstep h).2

/-- Where both projects can take a step, registering and doing the rest of the step is in step. -/
theorem Edit.inStep_register {J : Project → Project → Prop} (hdp : s.Due p) (hdq : s.Due q)
    (hc : s.new? = some c)
    (hfp : f c.id { p with objects := p.objects ++ [c.object] } = .ok b (s.apply p))
    (hfq : f c.id { q with objects := q.objects ++ [c.object] } = .ok b (s.apply q))
    (hJ : s.Fresh p → s.Fresh q → J (s.apply p) (s.apply q)) :
    InStep J (Project.register c >>= f) p q := by
  intro a p' a' q' hxp hxq
  obtain ⟨rfl, rfl, hfreshp⟩ := Edit.eq_of_register hdp hc hfp hxp
  obtain ⟨rfl, rfl, hfreshq⟩ := Edit.eq_of_register hdq hc hfq hxq
  exact ⟨rfl, hJ hfreshp hfreshq⟩

end

/-- A project lists its targets. -/
theorem Project.IsNamed.hasTarget {p : Project} {t : ObjectId} {name : String} (hp : p.Neat)
    (h : p.IsNamed t name) : p.HasTarget name t := by
  obtain ⟨a, ha, hname⟩ := h
  obtain ⟨r, hr⟩ := hp.wellFormed.record
  obtain ⟨ref, href, hid⟩ := List.mem_map.1 (Owned.mem_targets hp.wellFormed hp.owned hr ha)
  obtain ⟨x, hx⟩ := first_of_mem href (hid ▸ ha) (Content.targetNamed?_eq_some.2 ⟨rfl, hname⟩)
  have htarget : p.HasTarget name x.id := ⟨r, x, hr, hx, rfl⟩
  obtain ⟨b, hb, hname'⟩ := htarget.exists_target
  exact hp.wellFormed.target_unique ha hb (hname.trans hname'.symm) ▸ htarget

namespace Fork

variable {F : Fork} {p q : Project} {t i : ObjectId} {s : Step}

/-! ## Targets -/

theorem Twins.inStep_newNativeTarget (h : F.Twins p q)
    (hnew : ∀ t, q.IsNamed t F.name → p.IsNamed t F.name) (kind : TargetKind) :
    InStep F.Twins (newNativeTarget F.name kind) p q := by
  have hp := h.left.wellFormed
  have hq := h.right.wellFormed
  by_cases hexists : ∃ t, p.IsNamed t F.name
  · obtain ⟨t, ht⟩ := hexists
    have ht' : q.IsNamed t F.name := by
      obtain ⟨a, ha, hname⟩ := ht
      exact ⟨a, (h.agree t (h.named t ⟨a, ha, hname⟩)).trans ha, hname⟩
    exact .of_ok (newNativeTarget_of_hasTarget hp (ht.hasTarget h.left) kind)
      (newNativeTarget_of_hasTarget hq (ht'.hasTarget h.right) kind) h
  · obtain ⟨a, ha⟩ := hp.record
    obtain ⟨b, hb⟩ := hq.record
    have hfirst := first_targetNamed?_eq_none (p := p) (a := a) fun t c hc hname =>
      hexists ⟨t, c, hc, hname⟩
    have hfirst' := first_targetNamed?_eq_none (p := q) (a := b) fun t c hc hname =>
      hexists ⟨t, hnew t ⟨c, hc, hname⟩⟩
    have hread := targetNamed?_eq hp ha F.name
    have hread' := targetNamed?_eq hq hb F.name
    rw [hfirst] at hread
    rw [hfirst'] at hread'
    refine .bind_read hread hread' ?_
    have hdue := due_target ha hfirst kind
    have hdue' := due_target hb hfirst' kind
    rw [h.record] at hdue'
    refine Edit.inStep_register hdue hdue' rfl rfl ?_ fun hf hf' => ?_
    · rw [← h.record]
      rfl
    · exact h.apply hdue hdue' hf hf' (by rintro t l ⟨⟩)

/-- Twins in which the target that is built now is in place. -/
structure TwinsAt (F : Fork) (t : ObjectId) (p q : Project) : Prop extends F.Twins p q where
  target : p.IsNamed t F.name

namespace TwinsAt

theorem keeps (h : F.TwinsAt t p q) : F.Keeps t := h.named t h.target

theorem exists_target (h : F.TwinsAt t p q) :
    ∃ a, p.content? t = some (.target a) ∧ q.content? t = some (.target a) ∧ a.name = F.name := by
  obtain ⟨a, ha, hname⟩ := h.target
  exact ⟨a, ha, (h.agree t h.keeps).trans ha, hname⟩

theorem apply (h : F.TwinsAt t p q) (hdp : s.Due p) (hdq : s.Due q) (hfp : s.Fresh p)
    (hfq : s.Fresh q)
    (hlist : ∀ t l, s = .configurationList t l → ∀ r ∈ l.configurations, F.Keeps r.id) :
    F.TwinsAt t (s.apply p) (s.apply q) where
  toTwins := h.toTwins.apply hdp hdq hfp hfq hlist
  target := h.target.grows (Step.grows_apply hdp)

/-- A search among references that the other build keeps has one result. -/
theorem first_eq (h : F.TwinsAt t p q) {α : Type} (view : Content → Option α) {rs : List Reference}
    (hrs : ∀ r ∈ rs, F.Keeps r.id) : q.first view rs = p.first view rs := by
  unfold Project.first
  induction rs with
  | nil => rfl
  | cons r rs ih =>
    rw [List.findSome?_cons, List.findSome?_cons, h.agree r.id (hrs r (by simp)),
      ih fun r' hr' => hrs r' (List.mem_cons_of_mem r hr')]

theorem keeps_phase (h : F.TwinsAt t p q) {a : NativeTarget} (ha : p.content? t = some (.target a)) :
    ∀ r ∈ a.buildPhases, F.Keeps r.id := by
  intro r hr
  refine h.inner t _ h.keeps ha ⟨.buildPhase, r⟩ ?_ rfl
  simp [Content.links, hr]

/-- A step that registers nothing keeps twins twins. -/
theorem apply_of_new?_eq_none (h : F.TwinsAt t p q) (hdp : s.Due p) (hdq : s.Due q)
    (hnew : s.new? = none) : F.TwinsAt t (s.apply p) (s.apply q) := by
  have hfresh : ∀ r, s.Fresh r := by
    intro r c hc
    rw [hnew] at hc
    cases hc
  refine h.apply hdp hdq (hfresh p) (hfresh q) ?_
  rintro u l rfl
  cases hnew

/-- Twins that are in step stay so with the target in place. -/
theorem of_twins {α : Type} {x : Edit α} (h : F.TwinsAt t p q) (hx : InStep F.Twins x p q)
    (hgrows : ∀ a p', x p = .ok a p' → p.Grows p') : InStep (F.TwinsAt t) x p q :=
  hx.mono fun a p' _ hs _ htwins => ⟨htwins, h.target.grows (hgrows a p' hs)⟩

/-! ## Configurations -/

theorem inStep_registerConfigurations (h : F.TwinsAt t p q) (cs : List Configuration) :
    InStep (F.TwinsAt t) (cs.forM fun c => discard <| register (.configuration c)) p q := by
  refine .forM (fun c _ p q h => ?_) h
  have hdue : ∀ r, (Step.configuration c).Due r := fun _ => .configuration c
  show InStep _ (register (.configuration c) >>= fun _ => Pure.pure ()) p q
  refine Edit.inStep_register (b := ()) (hdue p) (hdue q) rfl ?_ ?_ fun hf hf' => ?_
  · rw [configuration_apply]
    rfl
  · rw [configuration_apply]
    rfl
  · exact h.apply (hdue p) (hdue q) hf hf' (by rintro u l ⟨⟩)

theorem inStep_registerList (h : F.TwinsAt t p q) {a : NativeTarget}
    (ha : p.content? t = some (.target a)) (habsent : a.configurationList = none)
    (cs : List Configuration) {l : ConfigurationList}
    (hl : l.configurations = cs.map configurationReference) :
    InStep (F.TwinsAt t) (registerList t cs l) p q := by
  refine (h.inStep_registerConfigurations cs).bind fun _ p' q' hs hu h' => ?_
  obtain ⟨-, hregistered⟩ := Leads.of_ok (performs_registerConfigurations cs) hs
  obtain ⟨-, hregistered'⟩ := Leads.of_ok (performs_registerConfigurations cs) hu
  have ha' := (h.agree t h.keeps).trans ha
  have hdue := due_configurationList h.left.wellFormed ha habsent hregistered hl
  have hdue' := due_configurationList h.right.wellFormed ha' habsent hregistered' hl
  refine Edit.inStep_register (b := ()) hdue hdue' rfl rfl rfl fun hf hf' =>
    h'.apply hdue hdue' hf hf' ?_
  -- The configurations have just been registered in both projects.
  rintro u k ⟨⟩ r hr
  rw [hl] at hr
  obtain ⟨c, hc, rfl⟩ := List.mem_map.1 hr
  exact h.keeps_of_fresh (hregistered.free c hc) (hregistered'.free c hc)

theorem inStep_newConfigurationList (h : F.TwinsAt t p q) (platform : PlatformKind)
    (language : LanguageKind) (kind : TargetKind) :
    InStep (F.TwinsAt t) (newConfigurationList t platform language kind) p q := by
  obtain ⟨a, ha, ha', -⟩ := h.exists_target
  cases habsent : a.configurationList with
  | some r =>
    exact .of_ok (newConfigurationList_of_hasList ⟨a, r, ha, habsent⟩ platform language kind)
      (newConfigurationList_of_hasList ⟨a, r, ha', habsent⟩ platform language kind) h
  | none =>
    have hlist : ∀ cs, q.listFor a cs = p.listFor a cs := by
      intro cs
      unfold listFor
      simp only [h.configurationNames]
    have heq := newConfigurationList_eq ha' habsent platform language kind
    rw [h.configurationNames, hlist] at heq
    exact .congr (newConfigurationList_eq ha habsent platform language kind) heq
      (h.inStep_registerList ha habsent _ rfl)

/-! ## Phases -/

theorem inStep_appendPhase (h : F.TwinsAt t p q) {a : NativeTarget}
    (ha : p.content? t = some (.target a)) (role : PhaseRole)
    (hnone : p.first (Content.phaseAt? role.place) a.buildPhases = none) :
    InStep (F.TwinsAt t) (appendPhase t { target := a.name, role := role } (phaseComment role)) p q := by
  have hdue := due_phase ha hnone
  have hdue' : (Step.attach t (.phase a.name role)).Due q :=
    due_phase ((h.agree t h.keeps).trans ha) ((h.first_eq _ (h.keeps_phase ha)).trans hnone)
  have hcomment : (Part.phase a.name role).comment = phaseComment role := by
    cases role <;> rfl
  rw [← hcomment]
  exact Edit.inStep_register (b := (Part.phase a.name role).content.id) hdue hdue' rfl rfl rfl
    fun hf hf' => h.apply hdue hdue' hf hf' (by rintro u l ⟨⟩)

/-- A phase that one project finds in a place, the other one finds there too. -/
theorem phaseIn (h : F.TwinsAt t p q) {place : PhaseKind ⊕ String} {x : Identified BuildPhase}
    (hx : p.PhaseIn t place x) : q.PhaseIn t place x := by
  obtain ⟨a, ha, hfirst⟩ := hx
  exact ⟨a, (h.agree t h.keeps).trans ha, (h.first_eq _ (h.keeps_phase ha)).trans hfirst⟩

theorem inStep_phaseOfKind (h : F.TwinsAt t p q) (kind : PhaseKind) :
    InStep (F.TwinsAt t) (phaseOfKind t kind) p q := by
  obtain ⟨a, ha, ha', -⟩ := h.exists_target
  cases hx : p.first (Content.phaseAt? (.inl kind)) a.buildPhases with
  | some x =>
    have hin : p.PhaseIn t (.inl kind) x := ⟨a, ha, hx⟩
    exact .of_ok (phaseOfKind_of_phaseIn h.left.wellFormed hin)
      (phaseOfKind_of_phaseIn h.right.wellFormed (h.phaseIn hin)) h
  | none =>
    refine .congr (phaseOfKind_of_none h.left.wellFormed ha hx)
      (phaseOfKind_of_none h.right.wellFormed ha' ((h.first_eq _ (h.keeps_phase ha)).trans hx)) ?_
    exact (h.inStep_appendPhase ha (.files kind) hx).bind fun _ _ _ _ _ h' => .pure _ h'

theorem inStep_addBuildPhase (h : F.TwinsAt t p q) (kind : PhaseKind) :
    InStep (F.TwinsAt t) (addBuildPhase t kind) p q :=
  (h.inStep_phaseOfKind kind).discard

/-- What the other build keeps of a phase of the target it keeps of the build files in it. -/
theorem keeps_file (h : F.TwinsAt t p q) {place : PhaseKind ⊕ String} {x : Identified BuildPhase}
    (hx : p.PhaseIn t place x) : ∀ r ∈ x.content.files, F.Keeps r.id := by
  intro r hr
  obtain ⟨a, ha, r', hr', hid⟩ := hx.exists_mem
  refine h.inner x.id _ (hid ▸ h.keeps_phase ha r' hr') hx.content?.1 ⟨.phaseFile, r⟩ ?_ rfl
  simp [Content.links, hr]

theorem inStep_addFileToPhase (h : F.TwinsAt t p q) (kind : PhaseKind)
    {file : Identified FileReference} (hfile : p.content? file.id = some (.file file.content))
    (hfile' : q.content? file.id = some (.file file.content)) (settings : Option Settings) :
    InStep (F.TwinsAt t) (addFileToPhase t kind file settings) p q := by
  obtain ⟨a, ha, ha', -⟩ := h.exists_target
  refine (h.inStep_phaseOfKind kind).bind fun x p' q' hs hu h' => ?_
  obtain ⟨hpath, hx⟩ := Leads.of_ok (performs_phaseOfKind h.left.wellFormed ha kind) hs
  obtain ⟨hpath', -⟩ := Leads.of_ok (performs_phaseOfKind h.right.wellFormed ha' kind) hu
  have hholds := holdsFile_of_phaseIn h'.left.wellFormed hx file.id
  have hholds' := holdsFile_of_phaseIn h'.right.wellFormed (h'.phaseIn hx) file.id
  have hsame := h'.first_eq (Content.buildFileOf? file.id) (h'.keeps_file hx)
  rw [hsame] at hholds'
  refine .bind_read hholds hholds' ?_
  cases hf : p'.first (Content.buildFileOf? file.id) x.content.files with
  | some f => exact .pure _ h'
  | none =>
    obtain ⟨b, hb, hb', -⟩ := h'.exists_target
    refine .bind_read (target_of_content? hb) (target_of_content? hb') ?_
    let f : BuildFile :=
      { file := ⟨file.id, some file.content.name⟩, name := file.content.name, target := b.name,
        phase := kind, settings := settings }
    have hdue : (Step.attach x.id (.buildFile f)).Due p' :=
      due_buildFile h'.left.wellFormed hx hb rfl rfl (hpath.grows.file hfile) rfl rfl hf
    have hdue' : (Step.attach x.id (.buildFile f)).Due q' :=
      due_buildFile h'.right.wellFormed (h'.phaseIn hx) hb' rfl rfl (hpath'.grows.file hfile') rfl
        rfl (hsame.trans hf)
    exact Edit.inStep_register (b := ()) hdue hdue' rfl rfl rfl fun hfresh hfresh' =>
      h'.apply hdue hdue' hfresh hfresh' (by rintro u l ⟨⟩)

/-! ## Scripts -/

theorem inStep_addScriptPhase (h : F.TwinsAt t p q) (slot : String) (script : Script) :
    InStep (F.TwinsAt t) (addScriptPhase t slot script) p q := by
  obtain ⟨a, ha, ha', -⟩ := h.exists_target
  cases hx : p.first (Content.phaseAt? (.inr slot)) a.buildPhases with
  | some x =>
    have hin : p.PhaseIn t (.inr slot) x := ⟨a, ha, hx⟩
    have hdue : ∀ {r : Project}, r.PhaseIn t (.inr slot) x →
        (Step.script t x.id slot script).Due r := by
      intro r hr
      obtain ⟨b, hb, hmem⟩ := hr.exists_mem
      exact .script hb hmem hr.content?.1 hr.content?.2
    exact .of_ok (addScriptPhase_of_phaseIn h.left.wellFormed hin script)
      (addScriptPhase_of_phaseIn h.right.wellFormed (h.phaseIn hin) script)
      (h.apply_of_new?_eq_none (hdue hin) (hdue (h.phaseIn hin)) rfl)
  | none =>
    exact .congr (addScriptPhase_of_none h.left.wellFormed ha hx script)
      (addScriptPhase_of_none h.right.wellFormed ha' ((h.first_eq _ (h.keeps_phase ha)).trans hx)
        script) (h.inStep_appendPhase ha (.script slot script) hx).discard

theorem inStep_addScriptsFrom (h : F.TwinsAt t p q) (stage : Stage) (index : Nat)
    (scripts : List Script) : InStep (F.TwinsAt t) (addScriptsFrom t stage index scripts) p q := by
  induction scripts generalizing p q index with
  | nil => exact .pure _ h
  | cons script scripts ih =>
    exact (h.inStep_addScriptPhase _ script).bind fun _ _ _ _ _ h' => ih h' (index + 1)

theorem inStep_addBuildScripts (h : F.TwinsAt t p q) (stage : Stage) (scripts : Option (List Script)) :
    InStep (F.TwinsAt t) (addBuildScripts t stage scripts) p q := by
  cases scripts with
  | none => exact .pure _ h
  | some scripts => exact h.inStep_addScriptsFrom stage 0 scripts

/-! ## Settings -/

/-- Both projects have the same configurations for the target. -/
theorem configurations (h : F.TwinsAt t p q) {a : NativeTarget}
    (ha : p.content? t = some (.target a)) :
    q.configurationsOf a = p.configurationsOf a ∧ ∀ r ∈ p.configurationsOf a, F.Keeps r.id := by
  unfold configurationsOf
  cases hlist : a.configurationList with
  | none => simp
  | some r =>
    have hkeeps : F.Keeps r.id :=
      h.inner t _ h.keeps ha ⟨.configurationList, r⟩ (by simp [Content.links, hlist]) rfl
    rw [Option.bind_some, h.agree r.id hkeeps]
    refine ⟨rfl, ?_⟩
    obtain ⟨l, hl⟩ := h.left.wellFormed.configurationList_of_target ha hlist
    rw [Option.bind_some, hl]
    intro r' hr'
    exact h.inner r.id _ hkeeps hl ⟨.configuration, r'⟩ (List.mem_map_of_mem hr') rfl

theorem inStep_composeSettings (h : F.TwinsAt t p q) (d : Target) :
    InStep (F.TwinsAt t) (Build.composeSettings t d) p q := by
  obtain ⟨a, ha, ha', -⟩ := h.exists_target
  have hp := h.left.wellFormed
  obtain ⟨hsame, hkeeps⟩ := h.configurations ha
  have hobjects : q.objectsAt (q.configurationsOf a) = p.objectsAt (p.configurationsOf a) := by
    rw [hsame]
    exact List.filterMap_congr fun r hr =>
      hp.find?_eq h.right.wellFormed (h.agree r.id (hkeeps r hr))
  have hread' := buildConfigurations_eq h.right.wellFormed ha'
  rw [hobjects] at hread'
  refine .bind_read (buildConfigurations_eq hp ha) hread' ?_
  have hloop : InStep (fun p' q' => F.TwinsAt t p' q' ∧ p.Grows p' ∧ q.Grows q')
      ((p.objectsAt (p.configurationsOf a)).forM fun o => do
        let settings ← partOf Object.settings? o
        setBuildSettings o.id (Settings.compose d settings.plain)) p q := by
    refine .forM (fun o ho p' q' ⟨h', hpp', hqq'⟩ => ?_) ⟨h, .refl p, .refl q⟩
    obtain ⟨⟨b, hb, hmem⟩, hfound, c, hc⟩ := mem_configurations hp ha ho
    rw [ha] at hb
    cases hb
    obtain ⟨r, hr, hid⟩ := List.mem_map.1 hmem
    have hsettings : ∀ p, partOf Object.settings? o p = .ok c.settings p := by
      intro p
      apply partOf_of_eq_some
      rw [Object.settings?, hc]
    have hregistered : p.content? o.id = some (.configuration c) := by
      rw [content?_of_find? hfound, hc]
    obtain ⟨b, hb⟩ := hpp'.configuration hregistered
    obtain ⟨b', hb'⟩ := hqq'.configuration ((h.agree o.id (hid ▸ hkeeps r hr)).trans hregistered)
    let s : Step := .settings o.id (Settings.compose d c.settings.plain)
    have hdue : s.Due p' := .settings hb
    have hdue' : s.Due q' := .settings hb'
    refine .bind_read (hsettings p') (hsettings q') ?_
    exact .of_ok (setBuildSettings_eq o.id _ p') (setBuildSettings_eq o.id _ q')
      ⟨h'.apply_of_new?_eq_none hdue hdue' rfl, hpp'.trans (Step.grows_apply hdue),
        hqq'.trans (Step.grows_apply hdue')⟩
  exact hloop.mono fun _ _ _ _ _ h' => h'.1

end TwinsAt
end Fork
end ProjectGraph
