import ProjectGraph.Proofs.Settings.ByKey
import ProjectGraph.Proofs.Text.PathNames

/-! # Platforms in another order

A target whose platforms are declared in another order composes the same settings, in the same order, but
for the value of `SUPPORTED_PLATFORMS`. That lists the same names in the order of the platforms. -/

namespace ProjectGraph

namespace Table

variable {κ α : Type} [DecidableEq κ]

theorem map_entries (t : Table κ α) :
    (t.entries.map fun e => (e.1, some e.2)) = t.keys.map fun key => (key, t.get? key) := by
  rw [keys, List.map_map]
  refine List.map_congr_left fun e he => ?_
  rw [Function.comp_apply, get?_of_mem he]

/-- A table is told by its keys, in order, and by what is found under each key. -/
theorem ext_get? {t u : Table κ α} (hkeys : t.keys = u.keys) (h : ∀ key, t.get? key = u.get? key) :
    t = u := by
  refine ext_entries ?_
  have hinjective : Function.Injective fun e : κ × α => (e.1, some e.2) := by
    rintro ⟨_, _⟩ ⟨_, _⟩ ⟨⟩
    rfl
  refine List.map_injective_iff.2 hinjective ?_
  rw [map_entries, map_entries, hkeys]
  exact List.map_congr_left fun key _ => by rw [h]

end Table

/-- The two targets are the same, with their platforms declared in another order. -/
structure Target.Reorders (d e : Target) : Prop where
  same : e.toTargetFields = { d.toTargetFields with platforms := e.platforms }
  perm : d.platforms.Perm e.platforms

theorem Target.Reorders.refl (d : Target) : d.Reorders d := ⟨rfl, .refl _⟩

/-- The platforms are all in which the targets differ. -/
theorem Target.Reorders.exists_eq {d e : Target} (h : d.Reorders e) :
    ∃ platforms hn, e = ⟨{ d.toTargetFields with platforms := platforms }, hn⟩ := by
  have hext : ∀ {d e : Target}, d.toTargetFields = e.toTargetFields → d = e := by
    rintro ⟨_, _⟩ ⟨_, _⟩ ⟨⟩
    rfl
  exact ⟨e.platforms, e.platforms_nodup, hext h.same⟩

/-! ## Reading platforms -/

/-- The only platform of a target is the only one in any order. -/
theorem configurationPlatform_of_perm {platforms platforms' : List Platform}
    (h : platforms.Perm platforms') :
    configurationPlatform platforms = configurationPlatform platforms' := by
  cases platforms with
  | nil => rw [h.nil_eq]
  | cons first rest =>
    cases rest with
    | nil => rw [List.singleton_perm.1 h]
    | cons second rest =>
      cases platforms' with
      | nil => exact absurd h.length_eq (by simp)
      | cons first' rest' =>
        cases rest' with
        | nil => exact absurd h.length_eq (by simp)
        | cons second' rest' => rfl

namespace Settings

variable {d e : Target}

theorem findPlatform_eq_some_iff {kind : PlatformKind} {platform : Platform} :
    findPlatform d.platforms kind = some platform ↔ platform ∈ d.platforms ∧ platform.kind = kind := by
  constructor
  · exact fun h => ⟨List.mem_of_find?_eq_some h, by simpa using List.find?_some h⟩
  · rintro ⟨h, rfl⟩
    exact findPlatform_of_mem h

theorem platformEntries_of_reorders (h : d.Reorders e) :
    platformEntries e.platforms = platformEntries d.platforms := by
  have hfind : findPlatform e.platforms = findPlatform d.platforms := by
    funext kind
    refine Option.ext fun platform => ?_
    rw [findPlatform_eq_some_iff, findPlatform_eq_some_iff, h.perm.mem_iff]
  rw [platformEntries, platformEntries, hfind]

/-! ## Composing -/

/-- The entries of the targets are the same but for one value. -/
theorem mem_targetEntries_of_reorders (h : d.Reorders e) {x : String × SettingValue}
    (hx : x.1 ≠ "SUPPORTED_PLATFORMS") (hmem : x ∈ targetEntries d) : x ∈ targetEntries e := by
  have hplatforms := platformEntries_of_reorders h
  obtain ⟨platforms, hn, rfl⟩ := h.exists_eq
  simp only [targetEntries, List.mem_append, List.mem_cons, List.not_mem_nil, or_false, hplatforms]
    at hmem ⊢
  rcases hmem with (hmem | hmem | hmem | rfl) | hmem
  · exact .inl (.inl hmem)
  · exact .inl (.inr (.inl hmem))
  · exact .inl (.inr (.inr (.inl hmem)))
  · exact absurd rfl hx
  · exact .inr hmem

theorem composedKeys_of_reorders (h : d.Reorders e) : composedKeys e = composedKeys d := by
  rw [composedKeys, composedKeys, ← keys_platformEntries, ← keys_platformEntries,
    platformEntries_of_reorders h]

/-- In another order of its platforms a target composes another value under one key. -/
theorem compose_of_reorders (h : d.Reorders e) (s : Settings) :
    compose e s = (compose d s).insert "SUPPORTED_PLATFORMS" (.text (supportedPlatforms e.platforms)) := by
  have hsupported : ("SUPPORTED_PLATFORMS", .text (supportedPlatforms d.platforms)) ∈ targetEntries d := by
    simp [targetEntries]
  have hpresent : "SUPPORTED_PLATFORMS" ∈ (compose d s).keys :=
    Table.mem_keys.2 ⟨_, Table.get?_eq_some_iff.1 (get?_compose_of_mem hsupported s)⟩
  refine Table.ext_get? ?_ fun key => ?_
  · rw [Table.keys_insert, if_pos hpresent, keys_compose, keys_compose, composedKeys_of_reorders h]
  · rw [Table.get?_insert]
    split
    · next hkey =>
      have hentry : (key, .text (supportedPlatforms e.platforms)) ∈ targetEntries e := by
        simp [← hkey, targetEntries]
      exact get?_compose_of_mem hentry s
    · next hkey =>
      by_cases hstripped : key ∈ strippedKeys
      · rw [get?_compose_of_stripped _ s hstripped, get?_compose_of_stripped _ s hstripped]
      · by_cases hcomposed : key ∈ composedKeys d
        · rw [composedKeys_eq] at hcomposed
          obtain ⟨x, hx, rfl⟩ := List.mem_map.1 hcomposed
          rw [get?_compose_of_mem hx s]
          exact get?_compose_of_mem (mem_targetEntries_of_reorders h (Ne.symm hkey) hx) s
        · rw [get?_compose_of_not_mem hstripped hcomposed]
          rw [← composedKeys_of_reorders h] at hcomposed
          exact get?_compose_of_not_mem hstripped hcomposed

/-! ## Supported platforms -/

/-- The names in `SUPPORTED_PLATFORMS` are those of each platform, in the order of the platforms. -/
theorem split_supportedPlatforms {platforms : List Platform} (hne : platforms ≠ []) :
    Text.split ' ' (supportedPlatforms platforms) =
      platforms.flatMap fun platform => Text.split ' ' platform.kind.supportedNames := by
  have hcut : Text.splitChars ' ' (supportedPlatforms platforms).toList =
      (platforms.map fun platform => platform.kind.supportedNames.toList).flatMap
        (Text.splitChars ' ') := by
    rw [supportedPlatforms, String.toList_intercalate, List.map_map]
    exact Text.splitChars_intercalate_eq_flatMap ' ' (by simpa using hne)
  rw [Text.split, hcut, List.flatMap_map, List.map_flatMap]
  rfl

theorem perm_supportedPlatforms (h : d.platforms.Perm e.platforms) :
    (Text.split ' ' (supportedPlatforms d.platforms)).Perm
      (Text.split ' ' (supportedPlatforms e.platforms)) := by
  by_cases hnil : d.platforms = []
  · rw [hnil] at h ⊢
    rw [← h.nil_eq]
  · rw [split_supportedPlatforms hnil, split_supportedPlatforms fun he => hnil (he ▸ h).eq_nil]
    exact h.flatMap_right _

end Settings
end ProjectGraph
