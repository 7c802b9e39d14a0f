import ProjectGraph.Proofs.Settings.Compose
import ProjectGraph.Proofs.Table
import ProjectGraph.Settings.Defaults

/-! # What can be read in composed settings

A target's own entries stand in its settings, whatever they are put over. The defaults know nothing of
the keys of platforms, so composed settings have those keys for the declared platforms only. -/

namespace ProjectGraph

namespace Table

variable {κ α : Type} [DecidableEq κ] {key : κ} {t : Table κ α}

theorem not_mem_keys_insertAll {es : List (κ × α)} (ht : key ∉ t.keys) (hes : key ∉ es.map Prod.fst) :
    key ∉ (t.insertAll es).keys := by
  intro hmem
  obtain ⟨value, he⟩ := mem_keys.1 hmem
  rcases eq_or_mem_of_mem_insertAll he with he | he
  · exact hes (List.mem_map_of_mem he)
  · exact ht (mem_keys.2 ⟨value, he⟩)

end Table

namespace Settings

variable {d : Target} {s : Settings} {key : String} {kind : PlatformKind}

/-! ## Composed settings -/

theorem nodup_targetEntries (d : Target) : ((targetEntries d).map Prod.fst).Nodup :=
  nodup_targetKeys.sublist (keys_targetEntries d)

/-- No target keeps the defaults that it strips. -/
theorem stripped_not_mem_compose (d : Target) (s : Settings) (hkey : key ∈ strippedKeys) :
    key ∉ (compose d s).keys := by
  rw [compose_eq]
  refine Table.not_mem_keys_insertAll (fun hmem => ?_) fun hmem => ?_
  · obtain ⟨value, he⟩ := Table.mem_keys.1 hmem
    exact (Table.mem_of_mem_eraseAll he).2 hkey
  · exact targetKeys_not_stripped key hkey ((keys_targetEntries d).subset hmem)

/-- A target's entries are found in its settings. -/
theorem get?_compose_of_mem {e : String × SettingValue} (he : e ∈ targetEntries d) (s : Settings) :
    (compose d s).get? e.1 = some e.2 := by
  rw [compose_eq]
  exact Table.get?_of_mem (Table.mem_insertAll (nodup_targetEntries d) he)

/-! ## Keys of platforms -/

/-- The keys that belong to platforms. -/
def platformKeys : List String :=
  platformOrder.flatMap fun kind => [kind.deploymentKey, kind.searchPathKey]

/-- The defaults have no keys of platforms, whatever the configuration is called. -/
theorem platformKey_not_mem_defaults (hkey : key ∈ platformKeys) (platform : PlatformKind)
    (language : LanguageKind) (target : TargetKind) (configuration : String) :
    key ∉ (defaults platform language target configuration).keys := by
  have hcommon : ∀ key ∈ platformKeys, key ∉ common.keys ∧ key ≠ "SDKROOT" := by decide
  have hvariant : ∀ variant, ∀ key ∈ platformKeys, key ∉ (ofVariant variant).keys := by
    intro variant
    cases variant <;> decide
  have hlanguage : ∀ language variant, ∀ key ∈ platformKeys,
      key ∉ (ofLanguage language variant).keys := by
    intro language variant
    cases language <;> cases variant <;> decide
  have hkind : ∀ target, ∀ key ∈ platformKeys, key ∉ (ofKind target).keys := by
    intro target
    cases target <;> decide
  obtain ⟨hbase, hroot⟩ := hcommon key hkey
  refine Table.not_mem_keys_insertAll ?_ (hkind target key hkey)
  refine Table.not_mem_keys_insertAll ?_ (hlanguage language _ key hkey)
  refine Table.not_mem_keys_insertAll ?_ (hvariant _ key hkey)
  have hsdk : key ∉ [("SDKROOT", SettingValue.text platform.sdkRoot)].map Prod.fst := by
    simpa using hroot
  exact Table.not_mem_keys_insertAll hbase hsdk

theorem keys_plain (s : Settings) : s.plain.keys = s.keys := by
  simp [plain, Table.map, Table.keys]

theorem findPlatform_of_mem {platform : Platform} (h : platform ∈ d.platforms) :
    findPlatform d.platforms platform.kind = some platform := by
  have hall : ∀ {platforms : List Platform}, (platforms.map Platform.kind).Nodup →
      platform ∈ platforms → findPlatform platforms platform.kind = some platform := by
    intro platforms hn h
    induction platforms with
    | nil => cases h
    | cons other platforms ih =>
      rw [List.map_cons, List.nodup_cons] at hn
      rcases List.mem_cons.1 h with rfl | h
      · exact List.find?_cons_of_pos (decide_eq_true rfl)
      · have hne : other.kind ≠ platform.kind := fun ho => hn.1 (ho ▸ List.mem_map_of_mem h)
        exact (List.find?_cons_of_neg (by simpa using hne)).trans (ih hn.2 h)
  exact hall d.platforms_nodup h

/-- The entries of a target include those of its platforms. -/
theorem mem_targetEntries_of_platform {platform : Platform} (h : platform ∈ d.platforms)
    {e : String × SettingValue} (he : e ∈ platform.settings.entries) : e ∈ targetEntries d := by
  have horder : ∀ kind, kind ∈ platformOrder := by
    intro kind
    cases kind <;> decide
  refine List.mem_append_right _ (List.mem_append_left _ ?_)
  refine List.mem_flatMap.2 ⟨platform.kind, horder _, ?_⟩
  rw [findPlatform_of_mem h]
  exact he

/-- Each declared platform has its two settings. -/
theorem get?_compose_of_platform {platform : Platform} (h : platform ∈ d.platforms) (s : Settings) :
    (compose d s).get? platform.kind.deploymentKey = some (.text platform.minimumVersion) ∧
    (compose d s).get? platform.kind.searchPathKey = some (.list platform.searchPaths) := by
  have hentry : ∀ e ∈ platform.settings.entries, (compose d s).get? e.1 = some e.2 :=
    fun e he => get?_compose_of_mem (mem_targetEntries_of_platform h he) s
  exact ⟨hentry (_, _) List.mem_cons_self,
    hentry (_, _) (List.mem_cons_of_mem _ (List.mem_singleton_self _))⟩

/-- The keys of a platform that is not declared are not among the entries of a target. -/
theorem key_not_mem_targetEntries (hkind : ∀ platform ∈ d.platforms, platform.kind ≠ kind)
    (hkey : key = kind.deploymentKey ∨ key = kind.searchPathKey) :
    key ∉ (targetEntries d).map Prod.fst := by
  have hothers : key ∉ ["INFOPLIST_FILE", "PRODUCT_BUNDLE_IDENTIFIER",
      "APPLICATION_EXTENSION_API_ONLY", "SUPPORTED_PLATFORMS", "SWIFT_VERSION"] := by
    rcases hkey with rfl | rfl <;> cases kind <;> decide
  have hplatforms : ∀ other, other ≠ kind → key ≠ other.deploymentKey ∧ key ≠ other.searchPathKey := by
    intro other hne
    rcases hkey with rfl | rfl <;> cases kind <;> cases other <;> first | decide | exact absurd rfl hne
  intro hmem
  obtain ⟨e, he, rfl⟩ := List.mem_map.1 hmem
  simp only [targetEntries, List.mem_append, List.mem_cons, List.not_mem_nil, or_false] at he
  rcases he with (rfl | rfl | rfl | rfl) | he | rfl
  · simp at hothers
  · simp at hothers
  · simp at hothers
  · simp at hothers
  · obtain ⟨other, -, he⟩ := List.mem_flatMap.1 he
    cases hfind : findPlatform d.platforms other with
    | none =>
      rw [hfind] at he
      cases he
    | some platform =>
      rw [hfind] at he
      have hne := hplatforms platform.kind (hkind platform (List.mem_of_find?_eq_some hfind))
      simp only [Platform.settings, List.mem_cons, List.not_mem_nil, or_false] at he
      rcases he with rfl | rfl
      · exact hne.1 rfl
      · exact hne.2 rfl
  · simp at hothers

/-- A target that is put over settings without keys of platforms has those of its own platforms. -/
theorem platforms_compose (hs : ∀ key ∈ platformKeys, key ∉ s.keys) (d : Target) :
    (∀ platform ∈ d.platforms,
      (compose d s).get? platform.kind.deploymentKey = some (.text platform.minimumVersion) ∧
      (compose d s).get? platform.kind.searchPathKey = some (.list platform.searchPaths)) ∧
    ∀ kind, (∀ platform ∈ d.platforms, platform.kind ≠ kind) →
      kind.deploymentKey ∉ (compose d s).keys ∧ kind.searchPathKey ∉ (compose d s).keys := by
  have hkeys : ∀ kind : PlatformKind,
      kind.deploymentKey ∈ platformKeys ∧ kind.searchPathKey ∈ platformKeys := by
    intro kind
    cases kind <;> decide
  have habsent : ∀ key ∈ platformKeys, key ∉ (strippedKeys.foldl Table.erase s).keys := by
    intro key hkey hmem
    obtain ⟨value, he⟩ := Table.mem_keys.1 hmem
    exact hs key hkey (Table.mem_keys.2 ⟨value, (Table.mem_of_mem_eraseAll he).1⟩)
  constructor
  · exact fun platform hplatform => get?_compose_of_platform hplatform s
  · intro kind hkind
    rw [compose_eq]
    exact ⟨Table.not_mem_keys_insertAll (habsent _ (hkeys kind).1)
        (key_not_mem_targetEntries hkind (.inl rfl)),
      Table.not_mem_keys_insertAll (habsent _ (hkeys kind).2)
        (key_not_mem_targetEntries hkind (.inr rfl))⟩

end Settings
end ProjectGraph
