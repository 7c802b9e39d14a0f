import ProjectGraph.Table

/-! # Looking up entries of a table -/

namespace ProjectGraph.Table

variable {κ α : Type} {key : κ} {value : α} {t : Table κ α} {e : κ × α}

theorem mem_keys : key ∈ t.keys ↔ ∃ value, (key, value) ∈ t.entries := by
  simp [keys]

variable [DecidableEq κ]

theorem find?_of_mem {es : List (κ × α)} (hn : (es.map Prod.fst).Nodup) (he : e ∈ es) :
    es.find? (fun f => f.1 = e.1) = some e := by
  induction es with
  | nil => cases he
  | cons f es ih =>
    rw [List.map_cons, List.nodup_cons] at hn
    rcases List.mem_cons.1 he with rfl | he
    · exact List.find?_cons_of_pos (decide_eq_true rfl)
    · have hne : f.1 ≠ e.1 := fun hf => hn.1 (hf ▸ List.mem_map_of_mem he)
      rw [List.find?_cons_of_neg (by simpa using hne)]
      exact ih hn.2 he

/-- An entry is found under its key. -/
theorem get?_of_mem (he : e ∈ t.entries) : t.get? e.1 = some e.2 := by
  rw [get?, find?_of_mem t.nodup he]
  rfl

theorem get?_eq_some_iff : t.get? key = some value ↔ (key, value) ∈ t.entries := by
  refine ⟨fun h => ?_, get?_of_mem⟩
  obtain ⟨e, he, rfl⟩ := Option.map_eq_some_iff.1 h
  have hkey : e.1 = key := by simpa using List.find?_some he
  rw [← hkey]
  exact List.mem_of_find?_eq_some he

end ProjectGraph.Table
