import Mathlib.Data.List.Basic

/-! # Texts with separators

A text that is put together from parts gives the parts back: the first part and the last one are read
up to the separator, if they are free of it. -/

namespace ProjectGraph.Text

variable {α : Type} {x : α} {a b c d : List α}

/-- The part before the first separator. -/
theorem first_part_inj (ha : x ∉ a) (hc : x ∉ c) (h : a ++ x :: b = c ++ x :: d) : a = c ∧ b = d := by
  induction a generalizing c with
  | nil =>
    cases c with
    | nil => exact ⟨rfl, List.tail_eq_of_cons_eq h⟩
    | cons y c =>
      rw [List.nil_append, List.cons_append, List.cons.injEq] at h
      exact absurd (h.1 ▸ List.mem_cons_self) hc
  | cons z a ih =>
    cases c with
    | nil =>
      rw [List.nil_append, List.cons_append, List.cons.injEq] at h
      exact absurd (h.1 ▸ List.mem_cons_self) ha
    | cons y c =>
      rw [List.cons_append, List.cons_append, List.cons.injEq] at h
      obtain ⟨rfl, h⟩ := h
      rw [List.mem_cons, not_or] at ha hc
      obtain ⟨rfl, hbd⟩ := ih ha.2 hc.2 h
      exact ⟨rfl, hbd⟩

/-- The part after the last separator. -/
theorem last_part_inj (hb : x ∉ b) (hd : x ∉ d) (h : a ++ x :: b = c ++ x :: d) : a = c ∧ b = d := by
  have hreverse := congrArg List.reverse h
  simp only [List.reverse_append, List.reverse_cons, List.append_assoc, List.singleton_append]
    at hreverse
  obtain ⟨hbd, hac⟩ := first_part_inj (mt List.mem_reverse.1 hb) (mt List.mem_reverse.1 hd) hreverse
  exact ⟨List.reverse_injective hac, List.reverse_injective hbd⟩

/-- Parts that each end at a separator. -/
theorem terminated_inj {as bs : List (List α)} (has : ∀ a ∈ as, x ∉ a) (hbs : ∀ b ∈ bs, x ∉ b)
    (h : as.flatMap (· ++ [x]) = bs.flatMap (· ++ [x])) : as = bs := by
  induction as generalizing bs with
  | nil =>
    cases bs with
    | nil => rfl
    | cons b bs => simp at h
  | cons a as ih =>
    cases bs with
    | nil => simp at h
    | cons b bs =>
      simp only [List.flatMap_cons, List.append_assoc, List.singleton_append] at h
      obtain ⟨rfl, hrest⟩ := first_part_inj (has a (by simp)) (hbs b (by simp)) h
      rw [ih (fun a ha => has a (List.mem_cons_of_mem _ ha))
        (fun b hb => hbs b (List.mem_cons_of_mem _ hb)) hrest]

/-- A separator between parts ends all of them but the last one. -/
theorem intercalate_append_singleton (x : α) (as : List (List α)) (last : List α) :
    [x].intercalate (as ++ [last]) = as.flatMap (· ++ [x]) ++ last := by
  induction as with
  | nil => simp
  | cons a as ih =>
    rw [List.cons_append, List.intercalate_cons_of_ne_nil (by simp), ih]
    simp

/-! ## Texts around a colon -/

variable {s s' t t' : String}

theorem toList_colon (s t : String) : (s ++ ":" ++ t).toList = s.toList ++ ':' :: t.toList := by
  rw [String.toList_append, String.toList_append, List.append_assoc]
  rfl

theorem before_colon_inj (hs : ':' ∉ s.toList) (hs' : ':' ∉ s'.toList)
    (h : s ++ ":" ++ t = s' ++ ":" ++ t') : s = s' ∧ t = t' := by
  have hlist := congrArg String.toList h
  rw [toList_colon, toList_colon] at hlist
  obtain ⟨hfirst, hrest⟩ := first_part_inj hs hs' hlist
  exact ⟨String.toList_injective hfirst, String.toList_injective hrest⟩

theorem after_colon_inj (ht : ':' ∉ t.toList) (ht' : ':' ∉ t'.toList)
    (h : s ++ ":" ++ t = s' ++ ":" ++ t') : s = s' ∧ t = t' := by
  have hlist := congrArg String.toList h
  rw [toList_colon, toList_colon] at hlist
  obtain ⟨hrest, hlast⟩ := last_part_inj ht ht' hlist
  exact ⟨String.toList_injective hrest, String.toList_injective hlast⟩

end ProjectGraph.Text
