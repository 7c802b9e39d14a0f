import Mathlib.Data.List.Nodup
import ProjectGraph.Settings.Compose

/-! # Composing settings twice

Settings that a target has been put over already are left as they are, in their order too. -/

namespace ProjectGraph

/-! ## Inserting what is there -/

namespace Table

variable {κ α : Type} [DecidableEq κ] {key : κ} {value : α} {e : κ × α} {es : List (κ × α)}
  {t : Table κ α}

omit [DecidableEq κ] in
theorem ext_entries {t u : Table κ α} (h : t.entries = u.entries) : t = u := by
  obtain ⟨es, hes⟩ := t
  obtain ⟨fs, hfs⟩ := u
  cases h
  rfl

theorem insertEntry_of_mem (hn : (es.map Prod.fst).Nodup) (h : (key, value) ∈ es) :
    insertEntry key value es = es := by
  induction es with
  | nil => cases h
  | cons e es ih =>
    rw [List.map_cons, List.nodup_cons] at hn
    rcases List.mem_cons.1 h with rfl | h
    · simp [insertEntry]
    · have hne : e.1 ≠ key := fun he => hn.1 (he ▸ List.mem_map_of_mem (f := Prod.fst) h)
      rw [insertEntry, if_neg hne, ih hn.2 h]

theorem mem_insertEntry (key : κ) (value : α) (es : List (κ × α)) :
    (key, value) ∈ insertEntry key value es := by
  induction es with
  | nil => simp [insertEntry]
  | cons e es ih =>
    rw [insertEntry]
    split
    · simp
    · exact List.mem_cons_of_mem e ih

theorem mem_insertEntry_of_mem (he : e ∈ es) (hne : e.1 ≠ key) : e ∈ insertEntry key value es := by
  induction es with
  | nil => cases he
  | cons f es ih =>
    rw [insertEntry]
    rcases List.mem_cons.1 he with rfl | he
    · rw [if_neg hne]
      simp
    · split
      · exact List.mem_cons_of_mem _ he
      · exact List.mem_cons_of_mem _ (ih he)

theorem eq_or_mem_of_mem_insertEntry (h : e ∈ insertEntry key value es) :
    e = (key, value) ∨ e ∈ es := by
  induction es with
  | nil => exact .inl (by simpa [insertEntry] using h)
  | cons f es ih =>
    rw [insertEntry] at h
    split at h
    · rcases List.mem_cons.1 h with rfl | h
      · exact .inl rfl
      · exact .inr (List.mem_cons_of_mem f h)
    · rcases List.mem_cons.1 h with rfl | h
      · exact .inr (by simp)
      · exact (ih h).imp_right (List.mem_cons_of_mem f)

/-- The table with these entries put over it, one after the other. -/
def insertAll (t : Table κ α) (es : List (κ × α)) : Table κ α :=
  es.foldl (fun t e => t.insert e.1 e.2) t

theorem insertAll_of_mem (h : ∀ e ∈ es, e ∈ t.entries) : t.insertAll es = t := by
  induction es with
  | nil => rfl
  | cons e es ih =>
    have hinsert : t.insert e.1 e.2 = t := by
      apply ext_entries
      exact insertEntry_of_mem t.nodup (h e (by simp))
    rw [insertAll, List.foldl_cons, hinsert]
    exact ih fun f hf => h f (List.mem_cons_of_mem e hf)

theorem mem_insertAll_of_mem (he : e ∈ t.entries) (hkey : e.1 ∉ es.map Prod.fst) :
    e ∈ (t.insertAll es).entries := by
  induction es generalizing t with
  | nil => exact he
  | cons f es ih =>
    rw [List.map_cons, List.mem_cons, not_or] at hkey
    exact ih (mem_insertEntry_of_mem he hkey.1) hkey.2

theorem mem_insertAll (hn : (es.map Prod.fst).Nodup) (he : e ∈ es) :
    e ∈ (t.insertAll es).entries := by
  induction es generalizing t with
  | nil => cases he
  | cons f es ih =>
    rw [List.map_cons, List.nodup_cons] at hn
    rcases List.mem_cons.1 he with rfl | he
    · have hfirst : e ∈ (t.insert e.1 e.2).entries := mem_insertEntry e.1 e.2 t.entries
      show e ∈ ((t.insert e.1 e.2).insertAll es).entries
      exact mem_insertAll_of_mem hfirst hn.1
    · exact ih hn.2 he

theorem eq_or_mem_of_mem_insertAll (h : e ∈ (t.insertAll es).entries) : e ∈ es ∨ e ∈ t.entries := by
  induction es generalizing t with
  | nil => exact .inr h
  | cons f es ih =>
    rcases ih h with h | h
    · exact .inl (List.mem_cons_of_mem f h)
    · rcases eq_or_mem_of_mem_insertEntry h with rfl | h
      · exact .inl (by simp)
      · exact .inr h

theorem eraseAll_of_not_mem {keys : List κ} (h : ∀ k ∈ keys, k ∉ t.keys) :
    keys.foldl erase t = t := by
  induction keys with
  | nil => rfl
  | cons k keys ih =>
    have herase : t.erase k = t := by
      apply ext_entries
      apply List.filter_eq_self.2
      intro e he
      have hk : e.1 ≠ k := by
        rintro rfl
        exact h e.1 (by simp) (List.mem_map_of_mem he)
      simpa using hk
    rw [List.foldl_cons, herase]
    exact ih fun k' hk => h k' (List.mem_cons_of_mem k hk)

theorem mem_of_mem_eraseAll {keys : List κ} (h : e ∈ (keys.foldl erase t).entries) :
    e ∈ t.entries ∧ e.1 ∉ keys := by
  induction keys generalizing t with
  | nil => exact ⟨h, by simp⟩
  | cons k keys ih =>
    obtain ⟨h, hkeys⟩ := ih h
    obtain ⟨h, hk⟩ := List.mem_filter.1 h
    have hk : e.1 ≠ k := by simpa using hk
    exact ⟨h, by simp [hk, hkeys]⟩

end Table

/-! ## What a target puts over the settings -/

namespace Settings

/-- The settings of the target's platforms. -/
def platformEntries (platforms : List Platform) : List (String × SettingValue) :=
  platformOrder.flatMap fun kind =>
    match findPlatform platforms kind with
    | some p => p.settings.entries
    | none => []

/-- The settings of a target, in the order in which they are written. -/
def targetEntries (t : Target) : List (String × SettingValue) :=
  [("INFOPLIST_FILE", .text t.infoPlist), ("PRODUCT_BUNDLE_IDENTIFIER", .text t.bundleId),
    ("APPLICATION_EXTENSION_API_ONLY", .text (if t.isSafeForExtensions then "YES" else "NO")),
    ("SUPPORTED_PLATFORMS", .text (supportedPlatforms t.platforms))] ++
  (platformEntries t.platforms ++ [("SWIFT_VERSION", .text t.language.version)])

theorem addPlatforms_eq (platforms : List Platform) (s : Settings) :
    addPlatforms platforms s = s.insertAll (platformEntries platforms) := by
  rw [addPlatforms, platformEntries, Table.insertAll, List.foldl_flatMap]
  congr 1
  funext s kind
  cases findPlatform platforms kind <;> rfl

theorem compose_eq (t : Target) (s : Settings) :
    compose t s = (strippedKeys.foldl Table.erase s).insertAll (targetEntries t) := by
  simp only [compose, addPlatforms_eq, Table.insertAll, targetEntries, List.foldl_append,
    List.foldl_cons, List.foldl_nil]

/-- The keys that a target can write. -/
def targetKeys : List String :=
  ["INFOPLIST_FILE", "PRODUCT_BUNDLE_IDENTIFIER", "APPLICATION_EXTENSION_API_ONLY",
    "SUPPORTED_PLATFORMS"] ++
  (platformOrder.flatMap (fun kind => [kind.deploymentKey, kind.searchPathKey]) ++ ["SWIFT_VERSION"])

theorem keys_targetEntries (t : Target) :
    ((targetEntries t).map Prod.fst).Sublist targetKeys := by
  have hplatforms : ∀ kinds : List PlatformKind,
      ((kinds.flatMap fun kind =>
        match findPlatform t.platforms kind with
        | some p => p.settings.entries
        | none => []).map Prod.fst).Sublist
        (kinds.flatMap fun kind => [kind.deploymentKey, kind.searchPathKey]) := by
    intro kinds
    induction kinds with
    | nil => simp
    | cons kind kinds ih =>
      rw [List.flatMap_cons, List.map_append, List.flatMap_cons]
      refine List.Sublist.append ?_ ih
      cases hfind : findPlatform t.platforms kind with
      | none => simp
      | some p =>
        have hkind : p.kind = kind := by simpa using List.find?_some hfind
        rw [← hkind]
        exact .refl _
  rw [targetEntries, targetKeys, List.map_append, List.map_append]
  exact .append (.refl _) (.append (hplatforms platformOrder) (.refl _))

theorem nodup_targetKeys : targetKeys.Nodup := by decide

theorem targetKeys_not_stripped : ∀ k ∈ strippedKeys, k ∉ targetKeys := by decide

/-- Putting a target over its own settings changes nothing. -/
theorem compose_compose (t : Target) (s : Settings) : compose t (compose t s) = compose t s := by
  have hnodup := nodup_targetKeys.sublist (keys_targetEntries t)
  have hstripped : ∀ k ∈ strippedKeys, k ∉ (compose t s).keys := by
    intro k hk hmem
    obtain ⟨e, he, rfl⟩ := List.mem_map.1 hmem
    rw [compose_eq] at he
    rcases Table.eq_or_mem_of_mem_insertAll he with he | he
    · exact targetKeys_not_stripped _ hk ((keys_targetEntries t).subset (List.mem_map_of_mem he))
    · exact (Table.mem_of_mem_eraseAll he).2 hk
  rw [compose_eq t (compose t s), Table.eraseAll_of_not_mem hstripped]
  apply Table.insertAll_of_mem
  intro e he
  rw [compose_eq]
  exact Table.mem_insertAll hnodup he

/-! ## Plain settings -/

theorem plain_eq_self {s : Settings} (h : ∀ e ∈ s.entries, e.2.plain = e.2) : s.plain = s := by
  apply Table.ext_entries
  show s.entries.map (fun e => (e.1, e.2.plain)) = s.entries
  conv_rhs => rw [← List.map_id s.entries]
  apply List.map_congr_left
  intro e he
  rw [h e he]
  rfl

theorem plain_of_mem_targetEntries {t : Target} {e : String × SettingValue}
    (he : e ∈ targetEntries t) : e.2.plain = e.2 := by
  simp only [targetEntries, List.mem_append, List.mem_cons, List.not_mem_nil, or_false] at he
  rcases he with (rfl | rfl | rfl | rfl) | he | rfl
  · rfl
  · rfl
  · rfl
  · rfl
  · obtain ⟨kind, -, he⟩ := List.mem_flatMap.1 he
    cases hfind : findPlatform t.platforms kind with
    | none =>
      rw [hfind] at he
      cases he
    | some p =>
      rw [hfind] at he
      simp only [Platform.settings, List.mem_cons, List.not_mem_nil, or_false] at he
      rcases he with rfl | rfl <;> rfl
  · rfl

/-- A target put over plain settings gives plain settings. -/
theorem plain_compose (t : Target) (s : Settings) :
    (compose t s.plain).plain = compose t s.plain := by
  apply plain_eq_self
  intro e he
  rw [compose_eq] at he
  rcases Table.eq_or_mem_of_mem_insertAll he with he | he
  · exact plain_of_mem_targetEntries he
  · obtain ⟨he, -⟩ := Table.mem_of_mem_eraseAll he
    obtain ⟨f, -, rfl⟩ := List.mem_map.1 he
    show f.2.plain.plain = f.2.plain
    cases f.2 <;> rfl

/-- What a target has made of some settings it makes of them again. -/
theorem compose_plain_compose (t : Target) (s : Settings) :
    compose t (compose t s.plain).plain = compose t s.plain := by
  rw [plain_compose, compose_compose]

end Settings
end ProjectGraph
