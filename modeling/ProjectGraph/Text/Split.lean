/-! # Cutting a text at a separator -/

namespace ProjectGraph.Text

/-- The pieces of `cs` between the occurrences of `sep`. There is always at least one piece. -/
def splitChars (sep : Char) : List Char → List (List Char)
  | [] => [[]]
  | c :: cs =>
    if c = sep then [] :: splitChars sep cs
    else
      match splitChars sep cs with
      | [] => [[c]]
      | piece :: rest => (c :: piece) :: rest

/-- The pieces of `s` between the occurrences of `sep`. -/
def split (sep : Char) (s : String) : List String :=
  (splitChars sep s.toList).map String.ofList

theorem splitChars_ne_nil (sep : Char) (cs : List Char) : splitChars sep cs ≠ [] := by
  induction cs with
  | nil => simp [splitChars]
  | cons c cs ih =>
    by_cases h : c = sep
    · simp [splitChars, h]
    · cases hs : splitChars sep cs with
      | nil => exact absurd hs ih
      | cons piece rest => simp [splitChars, h, hs]

/-- No piece holds the separator. -/
theorem not_mem_of_mem_splitChars {sep : Char} {cs piece : List Char}
    (h : piece ∈ splitChars sep cs) : sep ∉ piece := by
  induction cs generalizing piece with
  | nil => simp_all [splitChars]
  | cons c cs ih =>
    by_cases hc : c = sep
    · simp only [splitChars, hc, if_true, List.mem_cons] at h
      rcases h with rfl | h
      · simp
      · exact ih h
    · cases hs : splitChars sep cs with
      | nil => exact absurd hs (splitChars_ne_nil sep cs)
      | cons first rest =>
        simp only [splitChars, hc, if_false, hs, List.mem_cons] at h
        rcases h with rfl | h
        · have : sep ∉ first := ih (by simp [hs])
          simp [Ne.symm hc, this]
        · exact ih (by simp [hs, h])

end ProjectGraph.Text
