/-! # Repetitions in a list -/

namespace ProjectGraph

variable {α : Type} [DecidableEq α]

/-- The first element that is in `seen` or occurs earlier in the list. -/
def firstRepeatAfter (seen : List α) : List α → Option α
  | [] => none
  | x :: xs => if x ∈ seen then some x else firstRepeatAfter (x :: seen) xs

/-- The element at the first position whose element occurs earlier in the list. -/
def firstRepeat? (xs : List α) : Option α := firstRepeatAfter [] xs

theorem firstRepeatAfter_eq_none_iff {seen xs : List α} :
    firstRepeatAfter seen xs = none ↔ xs.Nodup ∧ ∀ x ∈ xs, x ∉ seen := by
  induction xs generalizing seen with
  | nil => simp [firstRepeatAfter]
  | cons x xs ih =>
    by_cases h : x ∈ seen
    · simp [firstRepeatAfter, h]
    · simp only [firstRepeatAfter, h, if_false, ih, List.nodup_cons, List.mem_cons, not_or]
      constructor
      · rintro ⟨hn, hs⟩
        refine ⟨⟨fun hx => (hs x hx).1 rfl, hn⟩, ?_⟩
        rintro y (rfl | hy)
        · exact h
        · exact (hs y hy).2
      · rintro ⟨⟨hx, hn⟩, hs⟩
        exact ⟨hn, fun y hy => ⟨fun hyx => hx (hyx ▸ hy), hs y (.inr hy)⟩⟩

theorem firstRepeat?_eq_none_iff {xs : List α} : firstRepeat? xs = none ↔ xs.Nodup := by
  simp [firstRepeat?, firstRepeatAfter_eq_none_iff]

theorem firstRepeatAfter_eq_some_iff {seen xs : List α} {x : α} :
    firstRepeatAfter seen xs = some x ↔ ∃ earlier later, xs = earlier ++ x :: later ∧
      earlier.Nodup ∧ (∀ y ∈ earlier, y ∉ seen) ∧ (x ∈ seen ∨ x ∈ earlier) := by
  induction xs generalizing seen with
  | nil => simp [firstRepeatAfter]
  | cons a xs ih =>
    rw [firstRepeatAfter]
    split
    · next hseen =>
      constructor
      · rintro ⟨⟩
        exact ⟨[], xs, rfl, List.nodup_nil, by simp, .inl hseen⟩
      · rintro ⟨_ | ⟨b, earlier⟩, later, hxs, -, hfree, -⟩ <;> cases hxs
        · rfl
        · exact absurd hseen (hfree a List.mem_cons_self)
    · next hseen =>
      rw [ih]
      constructor
      · rintro ⟨earlier, later, rfl, hn, hfree, hx⟩
        exact ⟨a :: earlier, later, rfl, List.nodup_cons.2 ⟨by grind, hn⟩, by grind, by grind⟩
      · rintro ⟨_ | ⟨b, earlier⟩, later, hxs, hn, hfree, hx⟩ <;> cases hxs
        · simp [hseen] at hx
        · rw [List.nodup_cons] at hn
          exact ⟨earlier, later, rfl, hn.2, by grind, by grind⟩

theorem firstRepeat?_eq_some_iff {xs : List α} {x : α} :
    firstRepeat? xs = some x ↔
      ∃ earlier later, xs = earlier ++ x :: later ∧ earlier.Nodup ∧ x ∈ earlier := by
  simp [firstRepeat?, firstRepeatAfter_eq_some_iff]

end ProjectGraph
