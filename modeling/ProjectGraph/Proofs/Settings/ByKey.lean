import ProjectGraph.Project.Targets
import ProjectGraph.Proofs.Registry.Lookup
import ProjectGraph.Proofs.Settings.Keys

/-! # Composed settings by key

A target gives its keys their values and takes away the keys that no target keeps. All other keys stay as
they are. The keys that stay keep their order; the ones that are new follow in the order of composition. -/

namespace ProjectGraph

/-! ## Keys of a changed table -/

namespace Table

variable {κ α : Type} [DecidableEq κ] {key : κ} {keys : List κ} {es : List (κ × α)} {t : Table κ α}

theorem entries_eraseAll (keys : List κ) (t : Table κ α) :
    (keys.foldl erase t).entries = t.entries.filter fun e => e.1 ∉ keys := by
  induction keys generalizing t with
  | nil => exact (List.filter_eq_self.2 (by simp)).symm
  | cons key keys ih =>
    rw [List.foldl_cons, ih]
    show (t.entries.filter fun e => e.1 ≠ key).filter _ = _
    rw [List.filter_filter]
    refine List.filter_congr fun e _ => ?_
    rw [← Bool.decide_and, decide_eq_decide, List.mem_cons, not_or, and_comm]

theorem keys_eraseAll (keys : List κ) (t : Table κ α) :
    (keys.foldl erase t).keys = t.keys.filter (· ∉ keys) := by
  rw [Table.keys, entries_eraseAll, Table.keys, List.filter_map]
  rfl

theorem get?_eraseAll_of_not_mem (h : key ∉ keys) : (keys.foldl erase t).get? key = t.get? key := by
  refine Option.ext fun value => ?_
  rw [get?_eq_some_iff, get?_eq_some_iff, entries_eraseAll, List.mem_filter]
  exact and_iff_left (decide_eq_true h)

theorem get?_insertAll_of_not_mem (h : key ∉ es.map Prod.fst) :
    (t.insertAll es).get? key = t.get? key := by
  induction es generalizing t with
  | nil => rfl
  | cons e es ih =>
    rw [List.map_cons, List.mem_cons, not_or] at h
    have hrest : ((t.insert e.1 e.2).insertAll es).get? key = (t.insert e.1 e.2).get? key := ih h.2
    rw [get?_insert, if_neg (Ne.symm h.1)] at hrest
    exact hrest

/-- Entries with keys of their own that are put over a table leave its keys in their places. -/
theorem keys_insertAll (hn : (es.map Prod.fst).Nodup) :
    (t.insertAll es).keys = t.keys ++ (es.map Prod.fst).filter (· ∉ t.keys) := by
  induction es generalizing t with
  | nil => exact (List.append_nil _).symm
  | cons e es ih =>
    rw [List.map_cons, List.nodup_cons] at hn
    have hrest : ((t.insert e.1 e.2).insertAll es).keys = _ := ih hn.2
    rw [keys_insert] at hrest
    rw [show t.insertAll (e :: es) = (t.insert e.1 e.2).insertAll es from rfl, hrest, List.map_cons]
    by_cases hkey : e.1 ∈ t.keys
    · rw [if_pos hkey, List.filter_cons_of_neg (by simpa using hkey)]
    · rw [if_neg hkey, List.filter_cons_of_pos (by simpa using hkey), List.append_assoc,
        List.singleton_append]
      -- The new key is not among the ones that follow.
      refine congrArg (fun rest => t.keys ++ e.1 :: rest) (List.filter_congr fun key hmem => ?_)
      have hne : key ≠ e.1 := fun he => hn.1 (he ▸ hmem)
      simp [hne]

end Table

/-! ## The keys of a target -/

namespace Settings

variable {d : Target} {s : Settings} {key : String} {kind : PlatformKind}

/-- The keys that a target composes, with those of the platforms that it declares in their fixed order. -/
def composedKeys (d : Target) : List String :=
  ["INFOPLIST_FILE", "PRODUCT_BUNDLE_IDENTIFIER", "APPLICATION_EXTENSION_API_ONLY",
    "SUPPORTED_PLATFORMS"] ++
  (((platformOrder.filter (· ∈ d.platforms.map Platform.kind)).flatMap fun kind =>
    [kind.deploymentKey, kind.searchPathKey]) ++ ["SWIFT_VERSION"])

theorem keys_platformEntries (platforms : List Platform) :
    (platformEntries platforms).map Prod.fst =
      (platformOrder.filter (· ∈ platforms.map Platform.kind)).flatMap fun kind =>
        [kind.deploymentKey, kind.searchPathKey] := by
  unfold platformEntries
  induction platformOrder with
  | nil => rfl
  | cons kind kinds ih =>
    rw [List.flatMap_cons, List.map_append, ih]
    cases hfind : findPlatform platforms kind with
    | none =>
      have hnone : kind ∉ platforms.map Platform.kind := by
        intro hmem
        obtain ⟨platform, hplatform, rfl⟩ := List.mem_map.1 hmem
        simpa using List.find?_eq_none.1 hfind platform hplatform
      rw [List.filter_cons_of_neg (by simpa using hnone)]
      rfl
    | some platform =>
      have hkind : platform.kind = kind := by simpa using List.find?_some hfind
      have hmem : kind ∈ platforms.map Platform.kind :=
        hkind ▸ List.mem_map_of_mem (List.mem_of_find?_eq_some hfind)
      rw [List.filter_cons_of_pos (by simpa using hmem), List.flatMap_cons, ← hkind]
      rfl

theorem composedKeys_eq (d : Target) : composedKeys d = (targetEntries d).map Prod.fst := by
  rw [composedKeys, ← keys_platformEntries, targetEntries, List.map_append, List.map_append]
  rfl

theorem not_stripped_of_mem_composedKeys (h : key ∈ composedKeys d) : key ∉ strippedKeys := by
  intro hkey
  rw [composedKeys_eq] at h
  exact targetKeys_not_stripped key hkey ((keys_targetEntries d).subset h)

/-- The keys that stay, in their order, and then those that are new. -/
theorem keys_compose (d : Target) (s : Settings) :
    (compose d s).keys = s.keys.filter (· ∉ strippedKeys) ++ (composedKeys d).filter (· ∉ s.keys) := by
  rw [compose_eq, Table.keys_insertAll (nodup_targetEntries d), Table.keys_eraseAll, ← composedKeys_eq]
  refine congrArg _ (List.filter_congr fun key hkey => ?_)
  have hkept := not_stripped_of_mem_composedKeys hkey
  simp [hkept]

theorem get?_compose_of_stripped (d : Target) (s : Settings) (hkey : key ∈ strippedKeys) :
    (compose d s).get? key = none := by
  refine Option.eq_none_iff_forall_ne_some.2 fun value hvalue => ?_
  exact stripped_not_mem_compose d s hkey (Table.mem_keys.2 ⟨value, Table.get?_eq_some_iff.1 hvalue⟩)

theorem get?_compose_of_not_mem (hkey : key ∉ strippedKeys) (hcomposed : key ∉ composedKeys d) :
    (compose d s).get? key = s.get? key := by
  rw [composedKeys_eq] at hcomposed
  rw [compose_eq, Table.get?_insertAll_of_not_mem hcomposed, Table.get?_eraseAll_of_not_mem hkey]

theorem platformKey_not_stripped (kind : PlatformKind) :
    kind.deploymentKey ∉ strippedKeys ∧ kind.searchPathKey ∉ strippedKeys := by
  cases kind <;> decide

/-! ## Plain settings -/

/-- No value is a choice from an enumeration. -/
def IsPlain (s : Settings) : Prop := ∀ e ∈ s.entries, ∀ answer, e.2 ≠ .yesNo answer

theorem isPlain_plain (s : Settings) : s.plain.IsPlain := by
  intro e he answer
  obtain ⟨f, -, rfl⟩ := List.mem_map.1 he
  show f.2.plain ≠ _
  cases f.2 <;> simp [SettingValue.plain]

theorem IsPlain.plain_eq (h : s.IsPlain) : s.plain = s := by
  refine plain_eq_self fun e he => ?_
  cases hvalue : e.2 with
  | yesNo answer => exact absurd hvalue (h e he answer)
  | _ => rfl

/-- A target leaves plain settings plain. -/
theorem IsPlain.plain_compose (h : s.IsPlain) (d : Target) : (compose d s).plain = compose d s := by
  rw [← h.plain_eq]
  exact Settings.plain_compose d s

end Settings

/-! ## Settings of a configuration -/

/-- The settings that are put into an object are the ones that are read there. -/
theorem Project.find?_of_setBuildSettings {p : Project} {i : ObjectId} {o : Object}
    (h : p.find? i = some o) (s : Settings) :
    ∃ q, setBuildSettings i s p = .ok () q ∧ q.find? i = some (o.withSettings s) := by
  refine ⟨_, rfl, ?_⟩
  have hid : ∀ x : Object, (Object.updateAt i (Object.withSettings s) x).id = x.id := by
    intro x
    rw [Object.updateAt]
    split
    · rw [Object.withSettings]
      split <;> rfl
    · rfl
  show (p.objects.map (Object.updateAt i (Object.withSettings s))).find? _ = _
  rw [List.find?_map]
  simp only [Function.comp_def, hid]
  rw [show p.objects.find? (fun x => decide (x.id = i)) = some o from h, Option.map_some,
    Object.updateAt, if_pos (Project.id_of_find? h)]

namespace Settings

/-- What a target makes of settings. -/
structure ComposedByKey (d : Target) (s : Settings) : Prop where
  stripped : ∀ key ∈ strippedKeys, (compose d s).get? key = none
  infoPlist : (compose d s).get? "INFOPLIST_FILE" = some (.text d.infoPlist)
  bundleId : (compose d s).get? "PRODUCT_BUNDLE_IDENTIFIER" = some (.text d.bundleId)
  extensions : (compose d s).get? "APPLICATION_EXTENSION_API_ONLY" =
    some (.text (if d.isSafeForExtensions then "YES" else "NO"))
  supported : (compose d s).get? "SUPPORTED_PLATFORMS" =
    some (.text (" ".intercalate (d.platforms.map fun platform => platform.kind.supportedNames)))
  version : (compose d s).get? "SWIFT_VERSION" = some (.text d.language.version)
  platforms : ∀ platform ∈ d.platforms,
    (compose d s).get? platform.kind.deploymentKey = some (.text platform.minimumVersion) ∧
    (compose d s).get? platform.kind.searchPathKey = some (.list platform.searchPaths)
  /-- The keys of platforms that are not declared are keys like any other. -/
  undeclared : ∀ kind, (∀ platform ∈ d.platforms, platform.kind ≠ kind) →
    (compose d s).get? kind.deploymentKey = s.get? kind.deploymentKey ∧
    (compose d s).get? kind.searchPathKey = s.get? kind.searchPathKey
  others : ∀ key, key ∉ strippedKeys → key ∉ composedKeys d → (compose d s).get? key = s.get? key
  keys : (compose d s).keys =
    s.keys.filter (· ∉ strippedKeys) ++ (composedKeys d).filter (· ∉ s.keys)
  again : compose d (compose d s) = compose d s
  /-- What has been written to a configuration and read there again is composed to the same. -/
  readAgain : s.IsPlain → ∀ (p : Project) (i : ObjectId) (o : Object), p.find? i = some o →
    ∃ q read, Project.setBuildSettings i (compose d s) p = .ok () q ∧
      Project.resolvePart Object.settings? i q = .ok read q ∧ read.plain = compose d s ∧
      compose d read.plain = compose d s
  /-- What is read from a configuration is plain. -/
  isPlain : s.plain.IsPlain

theorem composedByKey (d : Target) (s : Settings) : ComposedByKey d s where
  stripped _ := get?_compose_of_stripped d s
  infoPlist := get?_compose_of_mem (e := (_, _)) (by simp [targetEntries]) s
  bundleId := get?_compose_of_mem (e := (_, _)) (by simp [targetEntries]) s
  extensions := get?_compose_of_mem (e := (_, _)) (by simp [targetEntries]) s
  supported := get?_compose_of_mem (e := (_, _)) (by simp [targetEntries, supportedPlatforms]) s
  version := get?_compose_of_mem (e := (_, _)) (by simp [targetEntries]) s
  platforms _ hplatform := get?_compose_of_platform hplatform s
  undeclared kind hkind := by
    obtain ⟨hdeployment, hsearch⟩ := platformKey_not_stripped kind
    constructor
    · refine get?_compose_of_not_mem hdeployment ?_
      rw [composedKeys_eq]
      exact key_not_mem_targetEntries hkind (.inl rfl)
    · refine get?_compose_of_not_mem hsearch ?_
      rw [composedKeys_eq]
      exact key_not_mem_targetEntries hkind (.inr rfl)
  others _ := get?_compose_of_not_mem
  keys := keys_compose d s
  again := compose_compose d s
  readAgain hs p i o ho := by
    obtain ⟨q, hset, hfind⟩ := Project.find?_of_setBuildSettings ho (compose d s)
    have hread := Project.resolvePart_of_find? hfind (Object.settings?_withSettings (compose d s) o)
    refine ⟨q, compose d s, hset, hread, hs.plain_compose d, ?_⟩
    rw [hs.plain_compose, compose_compose]
  isPlain := isPlain_plain s

end Settings
end ProjectGraph
