import ProjectGraph.Proofs.Builds.Reordered
import ProjectGraph.Proofs.Digest
import ProjectGraph.Proofs.Runs.Linking

/-! # The order in which platforms are declared

Two targets that declare the same platforms in different orders are built alike. Both builds complete, or
both fail with one error, and they leave the same project, file tree and lines. Only the value of
`SUPPORTED_PLATFORMS` in the configurations of the target follows the declared order. -/

namespace ProjectGraph

/-- The same settings, in one order, but for the order in which supported platforms are listed. -/
structure Settings.SameButPlatforms (d e : Target) (s u : Settings) : Prop where
  keys : u.keys = s.keys
  others : ∀ key, key ≠ "SUPPORTED_PLATFORMS" → u.get? key = s.get? key
  first : s.get? "SUPPORTED_PLATFORMS" = some (.text (supportedPlatforms d.platforms))
  second : u.get? "SUPPORTED_PLATFORMS" = some (.text (supportedPlatforms e.platforms))
  names : (Text.split ' ' (supportedPlatforms d.platforms)).Perm
    (Text.split ' ' (supportedPlatforms e.platforms))

/-- The same objects, or configurations of the target that are the same but for their settings. -/
inductive Object.SameButPlatforms (d e : Target) (p : Project) (o : Object) : Object → Prop
  | same : SameButPlatforms d e p o o
  | configuration {t : ObjectId} {c : Configuration} {u : Settings} (named : p.IsNamed t d.name)
      (configures : p.Configures t o.id) (content : o.content = .configuration c)
      (settings : c.settings.SameButPlatforms d e u) :
      SameButPlatforms d e p o { o with content := .configuration { c with settings := u } }

/-- The states differ in nothing but settings of configurations of the target. -/
structure BuildState.SameButPlatforms (d e : Target) (s u : BuildState) : Prop where
  rest : u = { s with workspace.project := { s.project with objects := u.project.objects } }
  objects : List.Forall₂ (Object.SameButPlatforms d e s.project) s.project.objects u.project.objects

section

variable {d e : Target} {s : Settings}

/-- Settings that list the platforms of one target, with those of the other one put over them. -/
theorem Settings.sameButPlatforms_insert (h : d.Reorders e)
    (hs : s.insert "SUPPORTED_PLATFORMS" (.text (supportedPlatforms d.platforms)) = s) :
    s.SameButPlatforms d e
      (s.insert "SUPPORTED_PLATFORMS" (.text (supportedPlatforms e.platforms))) := by
  have hfirst : s.get? "SUPPORTED_PLATFORMS" = some (.text (supportedPlatforms d.platforms)) := by
    rw [← hs, Table.get?_insert, if_pos rfl]
  constructor
  case keys =>
    rw [Table.keys_insert, if_pos (Table.mem_keys.2 ⟨_, Table.get?_eq_some_iff.1 hfirst⟩)]
  case others =>
    intro key hkey
    rw [Table.get?_insert, if_neg (Ne.symm hkey)]
  case first => exact hfirst
  case second => rw [Table.get?_insert, if_pos rfl]
  case names => exact perm_supportedPlatforms h.perm

variable [IdScheme] {p : Project} {ids : List ObjectId}

/-- A project that lists the platforms of one target in some of its configurations, with those of the
other one put into them. -/
theorem Project.sameButPlatforms_mapSettings (hp : p.WellFormed) (h : d.Reorders e)
    (hids : ∀ i ∈ ids, ∃ t, p.IsNamed t d.name ∧ p.Configures t i)
    (hd : p.mapSettings (d.supporting ids) = p) :
    List.Forall₂ (Object.SameButPlatforms d e p) p.objects
      (p.mapSettings (e.supporting ids)).objects := by
  have hfixed : ∀ o ∈ p.objects, o.mapSettings (d.supporting ids) = o := by
    have hobjects := congrArg Project.objects hd
    exact List.map_inj_left.1 (hobjects.trans (List.map_id _).symm)
  show List.Forall₂ _ _ (p.objects.map _)
  rw [List.forall₂_map_right_iff, List.forall₂_same]
  intro o ho
  by_cases hmem : o.id ∈ ids
  · obtain ⟨t, hnamed, hconfigures⟩ := hids o.id hmem
    obtain ⟨a, ha, hlisted⟩ := hconfigures
    obtain ⟨r, hr, hid⟩ := List.mem_map.1 hlisted
    obtain ⟨c, hc⟩ := hp.configuration_of_mem_configurationsOf ha hr
    rw [hid, content?_of_find? (find?_of_mem hp.nodup_ids ho)] at hc
    have hcontent : o.content = .configuration c := Option.some.inj hc
    have hsettings := hfixed o ho
    rw [Object.mapSettings_of_eq hcontent] at hsettings ⊢
    refine .configuration hnamed ⟨a, ha, hlisted⟩ hcontent ?_
    rw [Target.supporting, if_pos hmem]
    refine Settings.sameButPlatforms_insert h ?_
    have hsame := congrArg Object.content hsettings
    rw [hcontent, Target.supporting, if_pos hmem] at hsame
    exact congrArg Configuration.settings (Content.configuration.inj hsame)
  · rw [Object.mapSettings_of_fixed fun s => if_neg hmem]
    exact .same

end

/-- The order in which platforms are declared only shows in the settings that list them. -/
theorem Reachable.build_of_reorders [IdScheme] {s : BuildState} {d e : Target}
    (h : Reachable s.project) (hde : d.Reorders e) :
    EndsAlike (BuildState.SameButPlatforms d e) (Build.build d s) (Build.build e s) := by
  obtain ⟨ids, hids, hbuild⟩ := Build.exists_build_of_reorders h.wellFormed d
  have hpath := (Build.performs_build h.wellFormed d).outcome.1
  have hwellFormed := hpath.wellFormed h.wellFormed
  -- The first target's platforms are in place, since its build is one in another order of itself.
  have hfixed : (stateAfter (Build.build d) s).mapSettings (d.supporting ids) =
      stateAfter (Build.build d) s := (stateAfter_of_mapResult (hbuild d (.refl d))).symm
  rw [hbuild e hde]
  refine endsAlike_mapResult ⟨?_, ?_⟩
  · have hproject := Project.mapSettings_of_detached (f := e.supporting ids) hwellFormed.detached
    exact congrArg (fun p => { stateAfter (Build.build d) s with workspace.project := p }) hproject
  · exact Project.sameButPlatforms_mapSettings hwellFormed hde hids
      (congrArg BuildState.project hfixed)

/-- A framework for two platforms. -/
def twofoldFramework : Target :=
  { bareFramework "Kit" [] with
    platforms := [⟨.ios, "12.0", ["$(inherited)"]⟩, ⟨.macos, "10.14", ["$(inherited)"]⟩]
    platforms_nodup := by decide }

/-- The same framework, with its platforms declared the other way around. -/
def turnedFramework : Target :=
  { twofoldFramework with
    platforms := twofoldFramework.platforms.reverse
    platforms_nodup := by decide }

/-- The builds of the framework in both orders complete, and list its platforms in different orders. -/
theorem build_of_turnedFramework :
    ∃ (p : Project) (s : BuildState), Project.ofValue "App" (.text "Debug") = .ok p ∧
      s = (firstBuild twofoldFramework p).before ∧ twofoldFramework.Reorders turnedFramework ∧
      (firstBuild twofoldFramework p).Completes ∧
      stateAfter (Build.build twofoldFramework) s ≠ stateAfter (Build.build turnedFramework) s ∧
      EndsAlike (BuildState.SameButPlatforms twofoldFramework turnedFramework)
        (Build.build twofoldFramework s) (Build.build turnedFramework s) := by
  have hcompletes : (Project.ofValue "App" (.text "Debug")).toOption.any fun p =>
      let s := (firstBuild twofoldFramework p).before
      (firstBuild twofoldFramework p).Completes ∧
        stateAfter (Build.build twofoldFramework) s ≠ stateAfter (Build.build turnedFramework) s := by
    rw [ObjectId.digestScheme_eq]
    decide +kernel
  obtain ⟨p, hnew, hp⟩ := Project.exists_of_ofValue hcompletes
  obtain ⟨hcompletes, hdiffer⟩ := of_decide_eq_true hp
  have hreorders : twofoldFramework.Reorders turnedFramework :=
    ⟨rfl, (List.reverse_perm twofoldFramework.platforms).symm⟩
  have hreachable : Reachable (firstBuild twofoldFramework p).before.project := .new hnew
  exact ⟨p, _, hnew, rfl, hreorders, hcompletes, hdiffer, Reachable.build_of_reorders hreachable hreorders⟩

end ProjectGraph
