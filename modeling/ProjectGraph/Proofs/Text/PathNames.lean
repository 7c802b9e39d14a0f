import Mathlib.Data.List.TakeWhile
import ProjectGraph.PathName
import ProjectGraph.Text.FileName

/-! # Directories and base names of normal forms

The normal form of a path is that of its directory, with the base name at the end. So paths with one
normal form have one base name, and directories with one normal form. -/

namespace ProjectGraph

/-! ## The parts of a path -/

namespace Text

theorem splitChars_append (sep : Char) (cs ds : List Char) :
    splitChars sep (cs ++ sep :: ds) = splitChars sep cs ++ splitChars sep ds := by
  induction cs with
  | nil => simp [splitChars]
  | cons c cs ih =>
    by_cases hc : c = sep
    · simp [splitChars, hc, ih]
    · obtain ⟨piece, rest, hsplit⟩ := List.exists_cons_of_ne_nil (splitChars_ne_nil sep cs)
      rw [List.cons_append, splitChars, if_neg hc, ih, splitChars, if_neg hc, hsplit]
      rfl

theorem splitChars_of_not_mem {sep : Char} {cs : List Char} (h : sep ∉ cs) :
    splitChars sep cs = [cs] := by
  induction cs with
  | nil => rfl
  | cons c cs ih =>
    rw [List.mem_cons, not_or] at h
    rw [splitChars, if_neg (Ne.symm h.1), ih h.2]

/-- Texts with separators between them are cut where each of them is cut. -/
theorem splitChars_intercalate_eq_flatMap (sep : Char) {pieces : List (List Char)} (hne : pieces ≠ []) :
    splitChars sep ([sep].intercalate pieces) = pieces.flatMap (splitChars sep) := by
  induction pieces with
  | nil => exact absurd rfl hne
  | cons piece rest ih =>
    cases rest with
    | nil => simp
    | cons next rest =>
      rw [List.intercalate_cons_of_ne_nil (by simp), List.append_assoc, List.singleton_append,
        splitChars_append, ih (by simp)]
      rfl

theorem splitChars_intercalate {sep : Char} {pieces : List (List Char)} (hne : pieces ≠ [])
    (h : ∀ piece ∈ pieces, sep ∉ piece) : splitChars sep ([sep].intercalate pieces) = pieces := by
  rw [splitChars_intercalate_eq_flatMap sep hne]
  rw [List.flatMap_def, List.map_congr_left fun piece hpiece => splitChars_of_not_mem (h piece hpiece),
    ← List.flatMap_def, List.flatMap_singleton']

/-- Names without slashes are the pieces of the path that they make. -/
theorem split_intercalate {names : List String} (hne : names ≠ [])
    (h : ∀ n ∈ names, '/' ∉ n.toList) : split '/' ("/".intercalate names) = names := by
  have hcut : splitChars '/' ("/".intercalate names).toList = names.map String.toList := by
    rw [String.toList_intercalate]
    exact splitChars_intercalate (by simpa using hne) (by simpa using h)
  rw [split, hcut, List.map_map]
  exact List.map_id'' (fun n => String.ofList_toList) names

/-- Everything up to the last slash. -/
def headChars (cs : List Char) : List Char := (cs.reverse.dropWhile (· ≠ '/')).reverse

theorem headChars_append_baseNameChars (cs : List Char) : headChars cs ++ baseNameChars cs = cs := by
  rw [headChars, baseNameChars, ← List.reverse_append, List.takeWhile_append_dropWhile,
    List.reverse_reverse]

/-- What follows the last separator begins before a text without separators. -/
theorem takeWhile_reverse_append {sep : Char} (cs : List Char) {ds : List Char} (h : sep ∉ ds) :
    (cs ++ ds).reverse.takeWhile (· ≠ sep) = ds.reverse ++ cs.reverse.takeWhile (· ≠ sep) := by
  rw [List.reverse_append, List.takeWhile_append_of_pos]
  intro c hc
  rw [decide_eq_true_eq]
  rintro rfl
  exact h (List.mem_reverse.1 hc)

theorem baseNameChars_append_of_not_mem (cs : List Char) {ds : List Char} (h : '/' ∉ ds) :
    baseNameChars (cs ++ ds) = baseNameChars cs ++ ds := by
  rw [baseNameChars, takeWhile_reverse_append cs h, List.reverse_append, List.reverse_reverse,
    baseNameChars]

theorem slash_not_mem_baseNameChars (cs : List Char) : '/' ∉ baseNameChars cs := by
  intro h
  have hne := List.mem_takeWhile_imp (List.mem_reverse.1 h)
  simp at hne

/-- There is nothing before the base name, or a slash is right before it. -/
theorem headChars_cases (cs : List Char) : headChars cs = [] ∨ ∃ us, headChars cs = us ++ ['/'] := by
  cases h : cs.reverse.dropWhile (· ≠ '/') with
  | nil => exact .inl (by rw [headChars, h]; rfl)
  | cons c us =>
    have hc : c = '/' := by
      have hhead := List.head_dropWhile_not (· ≠ '/') (l := cs.reverse) (by rw [h]; simp)
      simp only [h, List.head_cons] at hhead
      simpa using hhead
    exact .inr ⟨us.reverse, by rw [headChars, h, hc, List.reverse_cons]⟩

/-- The directory is what is before the base name, without the slashes at the end unless there is
nothing else. -/
theorem directoryChars_cases (cs : List Char) :
    ∃ slashes, headChars cs = directoryChars cs ++ slashes ∧ (∀ c ∈ slashes, c = '/') ∧
      (slashes ≠ [] → ∃ c ∈ directoryChars cs, c ≠ '/') := by
  have hdirectory : directoryChars cs = if (headChars cs).all (· = '/') then headChars cs else
      ((headChars cs).reverse.dropWhile (· = '/')).reverse := rfl
  by_cases hall : (headChars cs).all (· = '/')
  · rw [hdirectory, if_pos hall]
    exact ⟨[], (List.append_nil _).symm, by simp, by simp⟩
  · rw [hdirectory, if_neg hall]
    refine ⟨((headChars cs).reverse.takeWhile (· = '/')).reverse, ?_, fun c hc => ?_, fun _ => ?_⟩
    · rw [← List.reverse_append, List.takeWhile_append_dropWhile, List.reverse_reverse]
    · simpa using List.mem_takeWhile_imp (List.mem_reverse.1 hc)
    · simp only [List.all_eq_true, decide_eq_true_eq, not_forall] at hall
      obtain ⟨c, hc, hne⟩ := hall
      have hnonempty : (headChars cs).reverse.dropWhile (· = '/') ≠ [] := by
        rw [Ne, List.dropWhile_eq_nil_iff]
        exact fun h => hne (by simpa using h c (List.mem_reverse.2 hc))
      refine ⟨_, List.mem_reverse.2 (List.head_mem hnonempty), ?_⟩
      simpa using List.head_dropWhile_not (· = '/') hnonempty

end Text

/-! ## The components of a path -/

namespace PathName

variable {cs : List Char} {path path' : String}

/-- The components that characters spell. -/
def componentsOf (cs : List Char) : List String :=
  ((Text.splitChars '/' cs).map String.ofList).filter fun c => !decide (IsVoid c)

theorem componentsOf_append (cs ds : List Char) :
    componentsOf (cs ++ '/' :: ds) = componentsOf cs ++ componentsOf ds := by
  rw [componentsOf, Text.splitChars_append, List.map_append, List.filter_append]
  rfl

/-- Slashes at the end of a path do not count. -/
theorem componentsOf_append_slashes {ds : List Char} (h : ∀ c ∈ ds, c = '/') :
    componentsOf (cs ++ ds) = componentsOf cs := by
  induction ds generalizing cs with
  | nil => rw [List.append_nil]
  | cons d ds ih =>
    obtain ⟨rfl, hds⟩ := List.forall_mem_cons.1 h
    have hnil : componentsOf ds = [] := @ih [] hds
    rw [componentsOf_append, hnil, List.append_nil]

/-- The path ends in the name of a file, and not in a slash or in dots that stand for a directory. -/
def EndsInName (path : String) : Prop :=
  ¬ IsVoid (Text.baseNameOf path) ∧ Text.baseNameOf path ≠ ".."

instance (path : String) : Decidable (EndsInName path) := inferInstanceAs (Decidable (_ ∧ _))

theorem text_of_ne_nil {components : List String} (h : components ≠ []) :
    (⟨0, components⟩ : PathName).text = "/".intercalate components := by
  rw [text, if_neg fun hempty => h hempty.2]
  exact String.empty_append

theorem components_parse_eq (h : ¬ IsVoid (Text.baseNameOf path)) :
    (parse path).components =
      (parse (Text.directoryOf path)).components ++ [Text.baseNameOf path] := by
  have hdirectory : (parse (Text.directoryOf path)).components =
      componentsOf (Text.directoryChars path.toList) := by
    rw [parse, Text.split, Text.directoryOf, String.toList_ofList]
    rfl
  have hbase : componentsOf (Text.baseNameChars path.toList) = [Text.baseNameOf path] := by
    rw [componentsOf, Text.splitChars_of_not_mem (Text.slash_not_mem_baseNameChars _)]
    exact List.filter_cons_of_pos (by simpa [Text.baseNameOf] using h)
  obtain ⟨slashes, hhead, hslashes, -⟩ := Text.directoryChars_cases path.toList
  have hcut : componentsOf path.toList =
      componentsOf (Text.headChars path.toList) ++ componentsOf (Text.baseNameChars path.toList) := by
    have hpath := Text.headChars_append_baseNameChars path.toList
    rcases Text.headChars_cases path.toList with hnil | ⟨us, hus⟩
    · rw [hnil, List.nil_append] at hpath
      rw [hnil, hpath]
      rfl
    · rw [hus] at hpath ⊢
      rw [componentsOf_append_slashes (by simp), ← componentsOf_append]
      simpa using congrArg componentsOf hpath.symm
  calc (parse path).components = componentsOf path.toList := rfl
    _ = componentsOf (Text.headChars path.toList) ++ [Text.baseNameOf path] := by rw [hcut, hbase]
    _ = _ := by rw [hhead, componentsOf_append_slashes hslashes, hdirectory]

/-! ## The slashes before a path -/

theorem leadingSlashes_append (h : ∃ c ∈ cs, c ≠ '/') (ds : List Char) :
    leadingSlashes (cs ++ ds) = leadingSlashes cs := by
  have hshort : (cs.takeWhile (· = '/')).length ≠ cs.length := by
    intro hlength
    obtain ⟨c, hc, hne⟩ := h
    rw [← (List.takeWhile_prefix _).eq_of_length hlength] at hc
    exact hne (by simpa using List.mem_takeWhile_imp hc)
  rw [leadingSlashes, List.takeWhile_append, if_neg hshort]
  rfl

theorem leadingSlashes_directoryChars (h : Text.baseNameChars cs ≠ []) :
    leadingSlashes (Text.directoryChars cs) = leadingSlashes cs := by
  have hcs := Text.headChars_append_baseNameChars cs
  obtain ⟨slashes, hhead, -, hrest⟩ := Text.directoryChars_cases cs
  by_cases hname : ∃ c ∈ Text.directoryChars cs, c ≠ '/'
  · rw [← leadingSlashes_append hname (slashes ++ Text.baseNameChars cs), ← List.append_assoc,
      ← hhead, hcs]
  · -- There is nothing but slashes before the base name.
    obtain rfl : slashes = [] := by_contra fun hne => hname (hrest hne)
    rw [List.append_nil] at hhead
    have hall : ∀ c ∈ Text.directoryChars cs, decide (c = '/') = true := by
      intro c hc
      simpa using fun hne => hname ⟨c, hc, hne⟩
    have hbase : (Text.baseNameChars cs).takeWhile (· = '/') = [] := by
      obtain ⟨c, rest, hbase⟩ := List.exists_cons_of_ne_nil h
      have hc : c ≠ '/' := by
        rintro rfl
        exact Text.slash_not_mem_baseNameChars cs (by simp [hbase])
      simp [hbase, hc]
    have hsame : cs.takeWhile (· = '/') = (Text.directoryChars cs).takeWhile (· = '/') := by
      calc cs.takeWhile (· = '/')
          = (Text.directoryChars cs ++ Text.baseNameChars cs).takeWhile (· = '/') := by rw [← hhead, hcs]
        _ = Text.directoryChars cs := by
          rw [List.takeWhile_append_of_pos hall, hbase, List.append_nil]
        _ = _ := (List.takeWhile_eq_self_iff.2 hall).symm
    rw [leadingSlashes, leadingSlashes, hsame]

/-! ## Normal forms -/

theorem push_of_ne {rooted : Bool} {stack : List String} {component : String} (h : component ≠ "..") :
    push rooted stack component = component :: stack := by
  unfold push
  rw [if_neg h]

theorem append_single (p : PathName) (component : String) :
    p ++ single component = ⟨p.slashes, p.components ++ [component]⟩ := rfl

theorem parent_append_single (p : PathName) (component : String) :
    (p ++ single component).parent = p := by
  simp [append_single, parent]

theorem append_assoc (p q r : PathName) : p ++ q ++ r = p ++ (q ++ r) := by
  show join (join p q) r = join p (join q r)
  unfold join
  by_cases hr : r.slashes = 0
  · by_cases hq : q.slashes = 0 <;> simp [hr, hq]
  · simp [hr]

/-- A relative path is spelled after the component that it is below. -/
theorem text_single_append {p : PathName} (component : String) (hrelative : ¬ p.IsAbsolute)
    (hne : p.components ≠ []) : (single component ++ p).text = component ++ "/" ++ p.text := by
  obtain ⟨slashes, components⟩ := p
  obtain rfl : slashes = 0 := Decidable.not_not.1 hrelative
  obtain ⟨first, rest, rfl⟩ := List.exists_cons_of_ne_nil hne
  show (⟨0, component :: first :: rest⟩ : PathName).text = _
  rw [text_of_ne_nil (by simp), text_of_ne_nil (by simp), String.intercalate_cons_cons]

/-- The normal form of a path is that of its directory, with the base name at the end. -/
theorem normalize_eq_append (h : EndsInName path) :
    normalize path = normalize (Text.directoryOf path) ++ single (Text.baseNameOf path) := by
  have hbase : Text.baseNameChars path.toList ≠ [] := by
    intro hnil
    exact h.1 (.inl (by rw [Text.baseNameOf, hnil]))
  have hslashes : (parse (Text.directoryOf path)).slashes = (parse path).slashes := by
    rw [parse, parse, Text.directoryOf, String.toList_ofList, leadingSlashes_directoryChars hbase]
  rw [append_single, normalize, normalize, cancelParents, cancelParents, components_parse_eq h.1, hslashes,
    List.foldl_append, List.foldl_cons, List.foldl_nil, push_of_ne h.2, List.reverse_cons]

/-- Paths with one normal form have directories with one normal form, and one base name. -/
theorem normalize_eq_iff (h : EndsInName path) (h' : EndsInName path') :
    normalize path = normalize path' ↔
      normalize (Text.directoryOf path) = normalize (Text.directoryOf path') ∧
        Text.baseNameOf path = Text.baseNameOf path' := by
  rw [normalize_eq_append h, normalize_eq_append h']
  constructor
  · intro heq
    have hslashes := congrArg PathName.slashes heq
    have hcomponents := congrArg PathName.components heq
    obtain ⟨hdirectory, hbase⟩ := List.append_inj' hcomponents rfl
    refine ⟨?_, (List.cons.inj hbase).1⟩
    cases hn : normalize (Text.directoryOf path)
    cases hn' : normalize (Text.directoryOf path')
    rw [hn, hn'] at hslashes hdirectory
    exact congrArg₂ PathName.mk hslashes hdirectory
  · rintro ⟨hdirectory, hbase⟩
    rw [hdirectory, hbase]

end PathName
end ProjectGraph
