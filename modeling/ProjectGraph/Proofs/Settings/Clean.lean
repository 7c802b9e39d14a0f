import ProjectGraph.Proofs.Settings.Compose
import ProjectGraph.Settings.Defaults

/-! # Clean settings

Settings are clean when all values are of types that settings have. The defaults are clean, and a target
puts only clean values over them. -/

namespace ProjectGraph

/-- Is the value of a type that settings do not have? -/
def SettingValue.isForeign : SettingValue → Bool
  | foreign .. => true
  | _ => false

namespace Settings

variable {s u : Settings} {es : List (String × SettingValue)}

def Clean (s : Settings) : Prop := ∀ e ∈ s.entries, e.2.isForeign = false

instance : Decidable s.Clean := inferInstanceAs (Decidable (∀ e ∈ s.entries, e.2.isForeign = false))

theorem Clean.insertAll (h : s.Clean) (hes : ∀ e ∈ es, e.2.isForeign = false) :
    Clean (s.insertAll es) := by
  intro e he
  rcases Table.eq_or_mem_of_mem_insertAll he with he | he
  · exact hes e he
  · exact h e he

theorem Clean.update (h : s.Clean) (hu : u.Clean) : Clean (Table.update s u) := h.insertAll hu

theorem Clean.plain (h : s.Clean) : s.plain.Clean := by
  intro e he
  obtain ⟨f, hf, rfl⟩ := List.mem_map.1 he
  have hclean := h f hf
  show f.2.plain.isForeign = false
  cases hvalue : f.2 with
  | foreign =>
    rw [hvalue] at hclean
    cases hclean
  | _ => rfl

theorem isForeign_of_mem_targetEntries {t : Target} {e : String × SettingValue}
    (he : e ∈ targetEntries t) : e.2.isForeign = false := by
  simp only [targetEntries, List.mem_append, List.mem_cons, List.not_mem_nil, or_false] at he
  rcases he with (rfl | rfl | rfl | rfl) | he | rfl
  · rfl
  · rfl
  · rfl
  · rfl
  · obtain ⟨kind, -, he⟩ := List.mem_flatMap.1 he
    cases hfind : findPlatform t.platforms kind with
    | none =>
      rw [hfind] at he
      cases he
    | some p =>
      rw [hfind] at he
      simp only [Platform.settings, List.mem_cons, List.not_mem_nil, or_false] at he
      rcases he with rfl | rfl <;> rfl
  · rfl

/-- A target puts only clean values over settings. -/
theorem Clean.compose (h : s.Clean) (t : Target) : (Settings.compose t s).Clean := by
  rw [compose_eq]
  refine Clean.insertAll (fun e he => ?_) fun e he => isForeign_of_mem_targetEntries he
  exact h e (Table.mem_of_mem_eraseAll he).1

theorem clean_ofVariant (variant : Variant) : (ofVariant variant).Clean := by
  cases variant <;> decide

theorem clean_ofLanguage (language : LanguageKind) (variant : Variant) :
    (ofLanguage language variant).Clean := by
  cases language <;> cases variant <;> decide

theorem clean_ofKind (kind : TargetKind) : (ofKind kind).Clean := by
  cases kind <;> decide

theorem clean_defaults (platform : PlatformKind) (language : LanguageKind) (kind : TargetKind)
    (configuration : String) : (defaults platform language kind configuration).Clean := by
  have hcommon : common.Clean := by decide
  have hroot : Clean (common.insertAll [("SDKROOT", .text platform.sdkRoot)]) :=
    hcommon.insertAll (by simp [SettingValue.isForeign])
  exact ((hroot.update (clean_ofVariant _)).update (clean_ofLanguage language _)).update
    (clean_ofKind kind)

end Settings
end ProjectGraph
