import Mathlib.Data.List.Basic
import ProjectGraph.Proofs.Text.PathNames

/-! # Extensions of names

An extension that is put after a name is found again if the name has anything but dots, since leading
dots start no extension. -/

namespace ProjectGraph.Text

variable {cs name ext : List Char}

/-! ## Base names -/

theorem baseNameChars_suffix (cs : List Char) : baseNameChars cs <:+ cs :=
  ⟨headChars cs, headChars_append_baseNameChars cs⟩

/-! ## Extensions -/

theorem exists_last_dot (h : '.' ∈ cs) : ∃ us ext, cs = us ++ '.' :: ext ∧ '.' ∉ ext := by
  obtain ⟨us, vs, hcs, hus⟩ := List.eq_append_cons_of_mem (List.mem_reverse.2 h)
  refine ⟨vs.reverse, us.reverse, ?_, mt List.mem_reverse.1 hus⟩
  rw [← List.reverse_reverse cs, hcs]
  simp

/-- The extension is what follows the last dot of the name without its leading dots. -/
theorem baseNameExtension_of_stem {us : List Char} (h : name.dropWhile (· = '.') = us ++ '.' :: ext)
    (hext : '.' ∉ ext) : baseNameExtension name = '.' :: ext := by
  have htake : (us ++ '.' :: ext).reverse.takeWhile (· ≠ '.') = ext.reverse := by
    rw [List.append_cons, takeWhile_reverse_append _ hext]
    simp
  rw [baseNameExtension, h]
  simp only [List.mem_append, List.mem_cons, true_or, or_true, if_true, htake, List.reverse_reverse]

theorem baseNameExtension_suffix (name : List Char) : baseNameExtension name <:+ name := by
  by_cases hmem : '.' ∈ name.dropWhile (· = '.')
  · obtain ⟨us, ext, hstem, hext⟩ := exists_last_dot hmem
    rw [baseNameExtension_of_stem hstem hext]
    exact (List.suffix_append us _).trans (hstem ▸ List.dropWhile_suffix _)
  · rw [baseNameExtension, if_neg hmem]
    exact List.nil_suffix

/-- Dots alone have no extension. -/
theorem baseNameExtension_of_dots (h : ∀ c ∈ name, c = '.') : baseNameExtension name = [] := by
  have hdots : name.dropWhile (· = '.') = [] := by simpa using h
  simp [baseNameExtension, hdots]

/-- What follows dots alone is a name, and no extension. -/
theorem baseNameExtension_append_of_dots (h : ∀ c ∈ name, c = '.') (hext : '.' ∉ ext) :
    baseNameExtension (name ++ '.' :: ext) = [] := by
  have hdots : name.dropWhile (· = '.') = [] := by simpa using h
  have hmem : '.' ∉ ext.dropWhile (· = '.') := mt (fun hc => (List.dropWhile_sublist _).mem hc) hext
  simp [baseNameExtension, List.dropWhile_append, hdots, hmem]

theorem baseNameExtension_append (h : ∃ c ∈ name, c ≠ '.') (hext : '.' ∉ ext) :
    baseNameExtension (name ++ '.' :: ext) = '.' :: ext := by
  have hstem : name.dropWhile (· = '.') ≠ [] := by simpa using h
  have happend : (name ++ '.' :: ext).dropWhile (· = '.') = name.dropWhile (· = '.') ++ '.' :: ext := by
    rw [List.dropWhile_append, if_neg (by simpa using hstem)]
  exact baseNameExtension_of_stem happend hext

/-- The extension stands at the end of a path. -/
theorem exists_append_extensionOf (path : String) : ∃ stem, path = stem ++ extensionOf path := by
  obtain ⟨us, hus⟩ := (baseNameExtension_suffix _).trans (baseNameChars_suffix path.toList)
  refine ⟨String.ofList us, String.toList_injective ?_⟩
  rw [String.toList_append, extensionOf, String.toList_ofList, String.toList_ofList, hus]

end ProjectGraph.Text
