import ProjectGraph.Proofs.Builds.Built
import ProjectGraph.Proofs.Indifferent.Builds
import ProjectGraph.Proofs.Settings.Reordered

/-! # Building a target with its platforms in another order

Up to the settings, a build is the same in any order of the platforms. The settings that it composes differ
in one value, and the rest of the build is indifferent to it. So both builds end alike, and one end is the
other one with this value put into the configurations of the target. -/

namespace ProjectGraph

/-- Puts the platforms of the target into the settings of the objects with these ids. -/
def Target.supporting (d : Target) (ids : List ObjectId) (i : ObjectId) (s : Settings) : Settings :=
  if i ∈ ids then s.insert "SUPPORTED_PLATFORMS" (.text (supportedPlatforms d.platforms)) else s

namespace Project

variable {p : Project} {d e : Target} {t i : ObjectId} {ids : List ObjectId}

theorem mapSettings_supporting_nil (e : Target) (p : Project) :
    p.mapSettings (e.supporting []) = p :=
  mapSettings_of_fixed (fun _ _ => if_neg List.not_mem_nil) p

/-! ## Composing settings -/

theorem updateAt_supporting (h : d.Reorders e) (i : ObjectId) (s : Settings) (ids : List ObjectId)
    (o : Object) :
    Object.updateAt i (Object.withSettings (Settings.compose e s)) (o.mapSettings (e.supporting ids)) =
      (Object.updateAt i (Object.withSettings (Settings.compose d s)) o).mapSettings
        (e.supporting (i :: ids)) := by
  rw [Object.updateAt, Object.updateAt, Object.id_mapSettings]
  split
  · next hid =>
    rw [Object.withSettings_mapSettings, Object.mapSettings_withSettings, Target.supporting, hid,
      if_pos List.mem_cons_self, Settings.compose_of_reorders h]
  · next hid =>
    refine Object.mapSettings_congr (funext fun s => ?_)
    simp [Target.supporting, hid]

/-- One configuration after the other gets another value. -/
theorem setBuildSettings_supporting (h : d.Reorders e) (i : ObjectId) (s : Settings)
    (ids : List ObjectId) (p : Project) :
    setBuildSettings i (Settings.compose e s) (p.mapSettings (e.supporting ids)) =
      mapResult (fun a => a) (mapSettings (e.supporting (i :: ids)))
        (setBuildSettings i (Settings.compose d s) p) := by
  refine congrArg (EStateM.Result.ok ()) ?_
  simp only [mapSettings, List.map_map, Function.comp_def, updateAt_supporting h]

/-- Puts the settings of a target over those of a configuration. -/
def composeAt (d : Target) (o : Object) : Edit Unit := do
  let settings ← partOf Object.settings? o
  setBuildSettings o.id (Settings.compose d settings.plain)

/-- How far the loop gets does not depend on the order of the platforms. -/
theorem exists_forM_composeAt (d : Target) (os : List Object) (ids : List ObjectId) (p : Project) :
    ∃ ids', (∀ i ∈ ids', i ∈ os.map Object.id ∨ i ∈ ids) ∧ ∀ e, d.Reorders e →
      os.forM (composeAt e) (p.mapSettings (e.supporting ids)) =
        mapResult (fun a => a) (mapSettings (e.supporting ids')) (os.forM (composeAt d) p) := by
  induction os generalizing ids p with
  | nil => exact ⟨ids, fun i hi => .inr hi, fun e _ => rfl⟩
  | cons o os ih =>
    have hcons : ∀ (d : Target) p, (o :: os).forM (composeAt d) p =
        (composeAt d o >>= fun _ => os.forM (composeAt d)) p := fun _ _ => rfl
    cases hsettings : o.settings? with
    | none =>
      have hfails : ∀ (d : Target) p, composeAt d o p = .error (.unsuitableObject o.id) p := by
        intro d p
        rw [composeAt, partOf, hsettings]
        rfl
      refine ⟨ids, fun i hi => .inr hi, fun e _ => ?_⟩
      rw [hcons, hcons, bind_of_error (hfails e _), bind_of_error (hfails d _)]
      rfl
    | some s =>
      have hcompose : ∀ (d : Target) p,
          composeAt d o p = setBuildSettings o.id (Settings.compose d s.plain) p := by
        intro d p
        rw [composeAt, partOf, hsettings]
        rfl
      obtain ⟨q, hq⟩ : ∃ q, setBuildSettings o.id (Settings.compose d s.plain) p = .ok () q := ⟨_, rfl⟩
      obtain ⟨ids', hids', hrest⟩ := ih (o.id :: ids) q
      refine ⟨ids', fun i hi => ?_, fun e he => ?_⟩
      · rcases hids' i hi with hi | hi
        · exact .inl (List.mem_cons_of_mem _ hi)
        · rcases List.mem_cons.1 hi with rfl | hi
          · exact .inl List.mem_cons_self
          · exact .inr hi
      · have hfirst : composeAt e o (p.mapSettings (e.supporting ids)) =
            .ok () (q.mapSettings (e.supporting (o.id :: ids))) := by
          rw [hcompose, setBuildSettings_supporting he, hq]
          rfl
        have hfirst' : composeAt d o p = .ok () q := by rw [hcompose, hq]
        rw [hcons, hcons, bind_of_ok hfirst, bind_of_ok hfirst']
        exact hrest e he

variable [IdScheme]

theorem exists_composeSettings (hp : p.WellFormed) {a : NativeTarget}
    (ha : p.content? t = some (.target a)) (d : Target) :
    ∃ ids, (∀ i ∈ ids, p.Configures t i) ∧ ∀ e, d.Reorders e →
      Build.composeSettings t e p = mapResult (fun a => a) (mapSettings (e.supporting ids))
        (Build.composeSettings t d p) := by
  have hloop : ∀ d, Build.composeSettings t d p =
      (p.objectsAt (p.configurationsOf a)).forM (composeAt d) p := fun d =>
    bind_of_ok (buildConfigurations_eq hp ha)
  obtain ⟨ids, hids, hcompose⟩ := exists_forM_composeAt d (p.objectsAt (p.configurationsOf a)) [] p
  refine ⟨ids, fun i hi => ?_, fun e he => ?_⟩
  · obtain ⟨o, ho, rfl⟩ := List.mem_map.1 ((hids i hi).resolve_right List.not_mem_nil)
    exact (mem_configurations hp ha ho).1
  · have hcompose := hcompose e he
    rw [mapSettings_supporting_nil] at hcompose
    rw [hloop, hloop, hcompose]

/-! ## The rest of the build -/

/-- Gives a target its product, two of its phases and its last scripts. -/
def furnish (t : ObjectId) (d : Target) : Edit Unit := do
  discard <| newProductReference t d.name d.kind
  addBuildPhase t .resources
  addBuildPhase t .frameworks
  addBuildScripts t .post d.postBuildScripts

theorem indifferent_furnish {f : ObjectId → Settings → Settings} (t : ObjectId) (d : Target) :
    Edit.Indifferent f (furnish t d) :=
  (indifferent_newProductReference t d.name d.kind).discard.bind_id fun _ =>
    (indifferent_addBuildPhase t _).bind_id fun _ => (indifferent_addBuildPhase t _).bind_id fun _ =>
      indifferent_addBuildScripts t _ _

end Project

namespace Build

open Project

variable [IdScheme] {d e : Target} {t : ObjectId} {s : BuildState}

/-- What a build does after it has composed the settings. -/
def settle (t : ObjectId) (d : Target) : Build ObjectId := do
  edit (furnish t d)
  discard <| complete t d
  return t

theorem build_eq_settle (d : Target) :
    build d = place d >>= fun t => edit (composeSettings t d) >>= fun _ => settle t d := by
  rw [build_eq, reportedBuild, prepare_eq]
  unfold settle
  simp only [equip, furnish, edit_bind, map_bind, bind_assoc, pure_bind, map_pure, discard_eq_bind]

theorem indifferent_complete {f : ObjectId → Settings → Settings} (t : ObjectId) (d : Target) :
    Build.Indifferent f (complete t d) := by
  refine (indifferent_edit (indifferent_linkDependencies t _)).bind_id fun names => ?_
  refine (indifferent_addResourceFiles t _).bind_id fun _ => ?_
  dsimp only
  split
  · exact (indifferent_addCopyFrameworksPhase t names).bind_id fun _ => .pure names
  · exact .pure names

theorem indifferent_settle {f : ObjectId → Settings → Settings} (t : ObjectId) (d : Target) :
    Build.Indifferent f (settle t d) :=
  (indifferent_edit (indifferent_furnish t d)).bind_id fun _ =>
    (indifferent_complete t d).discard.bind_id fun _ => .pure t

theorem place_of_reorders (h : d.Reorders e) : place e = place d := by
  have hplatform := configurationPlatform_of_perm h.perm
  obtain ⟨platforms, hn, rfl⟩ := h.exists_eq
  unfold place enter
  rw [hplatform]
  rfl

theorem settle_of_reorders (h : d.Reorders e) (t : ObjectId) : settle t e = settle t d := by
  obtain ⟨platforms, hn, rfl⟩ := h.exists_eq
  rfl

theorem performs_settle (hs : s.project.WellFormed) (ht : s.project.Entered d t) {p₀ : Project}
    (hsound : p₀.Sound → s.project.Sound) :
    Build.Performs (BuildStep d p₀) (edit (composeSettings t d) >>= fun _ => settle t d) s
      fun _ _ => True := by
  have hequip : (edit (composeSettings t d) >>= fun _ => settle t d) =
      edit (equip t d) >>= fun _ => complete t d >>= fun _ => pure t := by
    unfold settle
    simp only [equip, furnish, edit_bind, bind_assoc, pure_bind, discard_eq_bind]
  rw [hequip]
  refine ((performs_equip hs ht hsound).edit.widen fun _ _ h => h.toBuildStep).bind ?_
  rintro _ s₁ h₁ -
  have hcomplete := performs_complete (h₁.wellFormed hs) (ht.isNamed.grows h₁.grows) p₀
  exact (hcomplete.weaken fun _ _ h => h.toBuildStep).bind fun names s₂ h₂ _ => .of_ok rfl trivial

/-- The build in another order of the platforms ends alike, with the platforms in that order put into
configurations of the target. -/
theorem exists_build_of_reorders (hs : s.project.WellFormed) (d : Target) :
    ∃ ids, (∀ i ∈ ids, ∃ t, (stateAfter (build d) s).project.IsNamed t d.name ∧
        (stateAfter (build d) s).project.Configures t i) ∧
      ∀ e, d.Reorders e → build e s =
        mapResult (fun a => a) (BuildState.mapSettings (e.supporting ids)) (build d s) := by
  have hbuild : ∀ e, d.Reorders e → build e =
      place d >>= fun t => edit (composeSettings t e) >>= fun _ => settle t d := by
    intro e he
    rw [build_eq_settle, place_of_reorders he]
    exact bind_congr fun t => bind_congr fun _ => settle_of_reorders he t
  cases hplace : place d s with
  | error e s' =>
    refine ⟨[], by simp, fun e he => ?_⟩
    rw [hbuild e he, hbuild d (.refl d), bind_of_error hplace, bind_of_error hplace]
    refine congrArg (EStateM.Result.error _) ?_
    rw [BuildState.mapSettings, mapSettings_supporting_nil]
  | ok t s₁ =>
    obtain ⟨h₁, -, hentered, -⟩ := Leads.of_ok (performs_place hs d) hplace
    have hs₁ := h₁.wellFormed hs
    obtain ⟨a, ha, -⟩ := hentered.isNamed
    obtain ⟨ids, hids, hcompose⟩ := exists_composeSettings hs₁ ha d
    have hsound : s.project.Sound → s₁.project.Sound :=
      (h₁.mono fun _ _ h => h.toBuildStep).sound_of_buildStep hs
    have hpath := (performs_settle hs₁ hentered hsound).outcome.1
    have hafter : stateAfter (build d) s =
        stateAfter (edit (composeSettings t d) >>= fun _ => settle t d) s₁ := by
      rw [stateAfter, stateAfter, hbuild d (.refl d), bind_of_ok hplace]
    refine ⟨ids, fun i hi => ⟨t, ?_, ?_⟩, fun e he => ?_⟩
    · exact hafter ▸ hentered.isNamed.grows hpath.grows
    · exact hafter ▸ (hids i hi).grows hs₁ hpath.grows
    · rw [hbuild e he, hbuild d (.refl d), bind_of_ok hplace, bind_of_ok hplace]
      have hfirst := edit_mapSettings (u := s₁) (fun _ => rfl) (hcompose e he)
      cases hd : edit (composeSettings t d) s₁ with
      | error e' s₂ =>
        rw [hd] at hfirst
        rw [bind_of_error hd, bind_of_error hfirst]
        rfl
      | ok u s₂ =>
        rw [hd] at hfirst
        rw [bind_of_ok hd, bind_of_ok hfirst]
        exact indifferent_settle t d s₂

end Build
end ProjectGraph
