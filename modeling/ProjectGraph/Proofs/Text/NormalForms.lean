import ProjectGraph.Proofs.Keys.Separators
import ProjectGraph.Proofs.Text.PathNames

/-! # Normal forms

A relative normal form goes up a number of directories and then down along names. Its text has it for
its normal form again, and the directory part of this text has the normal form above it. So going from
directory to directory above comes to an end, unless the directory is absolute. -/

namespace ProjectGraph

/-! ## Texts of directories -/

/-- What the text of a directory has before its last component. -/
def leadingText (above : List String) : List Char :=
  (above.map String.toList).flatMap (· ++ ['/'])

theorem toList_text_directory (above : List String) (name : String) :
    (⟨0, above ++ [name]⟩ : PathName).text.toList = leadingText above ++ name.toList := by
  rw [PathName.text_of_ne_nil (by simp), String.toList_intercalate, List.map_append]
  exact Text.intercalate_append_singleton '/' _ _

theorem leadingText_inj {above above' : List String} (h : ∀ n ∈ above, '/' ∉ n.toList)
    (h' : ∀ n ∈ above', '/' ∉ n.toList) (heq : leadingText above = leadingText above') :
    above = above' := by
  have hmap := Text.terminated_inj (x := '/') (by simpa using h) (by simpa using h') heq
  exact List.map_injective_iff.2 (fun _ _ h => String.toList_injective h) hmap

/-- A directory below another one shows a slash. -/
theorem leadingText_cases (above : List String) :
    above = [] ∨ ∃ cs, leadingText above = cs ++ ['/'] := by
  rcases List.eq_nil_or_concat above with rfl | ⟨front, last, rfl⟩
  · exact .inl rfl
  · exact .inr ⟨leadingText front ++ last.toList, by simp [leadingText]⟩

theorem leadingText_cons (name : String) (above : List String) (cs : List Char) :
    leadingText (name :: above) ++ cs = name.toList ++ '/' :: (leadingText above ++ cs) := by
  simp [leadingText]

theorem Text.baseNameChars_of_not_mem {cs : List Char} (h : '/' ∉ cs) : baseNameChars cs = cs :=
  baseNameChars_append_of_not_mem [] h

theorem Text.baseNameChars_append (cs : List Char) {ds : List Char} (h : '/' ∉ ds) :
    baseNameChars (cs ++ '/' :: ds) = ds := by
  have hslash : baseNameChars (cs ++ ['/']) = [] := by simp [baseNameChars]
  rw [List.append_cons, baseNameChars_append_of_not_mem _ h, hslash, List.nil_append]

namespace PathName

variable {path path' n name : String} {above stack : List String}

/-! ## Components of a normal form -/

theorem slash_not_mem_of_mem_parse (h : n ∈ (parse path).components) : '/' ∉ n.toList := by
  obtain ⟨hsplit, -⟩ := List.mem_filter.1 h
  obtain ⟨piece, hpiece, rfl⟩ := List.mem_map.1 hsplit
  rw [String.toList_ofList]
  exact Text.not_mem_of_mem_splitChars hpiece

theorem mem_push {rooted : Bool} {component : String} (h : n ∈ push rooted stack component) :
    n ∈ stack ∨ n = component := by
  unfold push at h
  split at h
  · next hparent =>
    cases stack with
    | nil =>
      cases rooted with
      | true => cases h
      | false => exact .inr ((List.mem_singleton.1 h).trans hparent.symm)
    | cons top below =>
      simp only at h
      split at h
      · rcases List.mem_cons.1 h with rfl | h
        · exact .inr hparent.symm
        · exact .inl h
      · exact .inl (List.mem_cons_of_mem top h)
  · exact (List.mem_cons.1 h).symm

/-- The components of a normal form are components of the path. -/
theorem mem_parse_of_mem_normalize (h : n ∈ (normalize path).components) :
    n ∈ (parse path).components := by
  have hfold : ∀ components stack : List String,
      n ∈ components.foldl (push ((parse path).slashes ≠ 0)) stack → n ∈ stack ∨ n ∈ components := by
    intro components
    induction components with
    | nil => exact fun stack h => .inl h
    | cons c components ih =>
      intro stack h
      rcases ih _ h with h | h
      · rcases mem_push h with h | rfl
        · exact .inl h
        · exact .inr (by simp)
      · exact .inr (List.mem_cons_of_mem c h)
  exact (hfold _ _ (List.mem_reverse.1 h)).resolve_left (List.not_mem_nil)

/-- No component of a normal form holds a slash. -/
theorem slash_not_mem_of_mem_normalize (h : n ∈ (normalize path).components) : '/' ∉ n.toList :=
  slash_not_mem_of_mem_parse (mem_parse_of_mem_normalize h)

theorem not_isVoid_of_mem_normalize (h : n ∈ (normalize path).components) : ¬ IsVoid n := by
  simpa using (List.mem_filter.1 (mem_parse_of_mem_normalize h)).2

/-! ## Stacks of components -/

/-- Only parent directories are below a parent directory. -/
def Stacked : List String → Prop
  | [] => True
  | top :: below => (top = ".." → ∀ n ∈ below, n = "..") ∧ Stacked below

theorem stacked_push (h : Stacked stack) (component : String) :
    Stacked (push false stack component) := by
  unfold push
  split
  · cases stack with
    | nil => exact ⟨by simp, trivial⟩
    | cons top below =>
      simp only
      split
      · next htop => exact ⟨fun _ => List.forall_mem_cons.2 ⟨htop, h.1 htop⟩, h⟩
      · exact h.2
  · next hne => exact ⟨fun heq => absurd heq hne, h⟩

theorem push_of_stacked {top : String} (h : Stacked (top :: stack)) :
    push false stack top = top :: stack := by
  unfold push
  split
  · next htop =>
    cases stack with
    | nil => rw [htop]; rfl
    | cons next below =>
      have hnext : next = ".." := h.1 htop next (by simp)
      simp only [if_pos hnext, htop]
  · rfl

theorem stacked_normalize (h : ¬ (normalize path).IsAbsolute) :
    Stacked (normalize path).components.reverse := by
  have hfold : ∀ components stack : List String, Stacked stack →
      Stacked (components.foldl (push false) stack) := by
    intro components
    induction components with
    | nil => exact fun _ h => h
    | cons c components ih => exact fun stack h => ih _ (stacked_push h c)
  have hslashes : (parse path).slashes = 0 := not_not.1 h
  rw [normalize, cancelParents, List.reverse_reverse, hslashes]
  exact hfold _ [] trivial

/-- A stack is what comes of putting its components on top of each other. -/
theorem foldl_push_of_stacked (h : Stacked stack) : stack.reverse.foldl (push false) [] = stack := by
  induction stack with
  | nil => rfl
  | cons top below ih =>
    rw [List.reverse_cons, List.foldl_append, ih h.2, List.foldl_cons, List.foldl_nil,
      push_of_stacked h]

theorem cancelParents_of_stacked {components : List String} (h : Stacked components.reverse) :
    cancelParents ⟨0, components⟩ = ⟨0, components⟩ := by
  have hfold := foldl_push_of_stacked h
  rw [List.reverse_reverse] at hfold
  show (⟨0, (components.foldl (push false) []).reverse⟩ : PathName) = _
  rw [hfold, List.reverse_reverse]

/-! ## Reading a text again -/

/-- The components can be read back from a text: they are not void, and free of slashes. -/
def Spells (components : List String) : Prop := ∀ n ∈ components, '/' ∉ n.toList ∧ ¬ IsVoid n

theorem spells_normalize (path : String) : Spells (normalize path).components := fun _ hn =>
  ⟨slash_not_mem_of_mem_normalize hn, not_isVoid_of_mem_normalize hn⟩

theorem components_parse_intercalate {components : List String} (h : Spells components) :
    (parse ("/".intercalate components)).components = components := by
  by_cases hne : components = []
  · rw [hne]
    rfl
  · have hsplit := Text.split_intercalate hne fun n hn => (h n hn).1
    rw [parse, hsplit]
    exact List.filter_eq_self.2 fun n hn => by simpa using (h n hn).2

theorem exists_first {cs : List Char} (h : '/' ∉ n.toList ∧ ¬ IsVoid n) :
    ∃ c ds, n.toList ++ cs = c :: ds ∧ c ≠ '/' := by
  have hne : n.toList ≠ [] := fun hnil => h.2 (.inl (String.toList_eq_nil_iff.1 hnil))
  obtain ⟨c, ds, hcs⟩ := List.exists_cons_of_ne_nil hne
  refine ⟨c, ds ++ cs, by rw [hcs, List.cons_append], ?_⟩
  rintro rfl
  exact h.1 (hcs ▸ List.mem_cons_self)

/-- The text of a directory does not start with a slash. -/
theorem exists_first_of_directory (h : Spells (above ++ [name])) :
    ∃ c ds, leadingText above ++ name.toList = c :: ds ∧ c ≠ '/' := by
  cases above with
  | nil =>
    obtain ⟨c, ds, hcs, hc⟩ := @exists_first name [] (h name (by simp))
    refine ⟨c, ds, ?_, hc⟩
    rw [← hcs, List.append_nil]
    rfl
  | cons first above =>
    rw [leadingText_cons]
    exact exists_first (h first (by simp))

theorem parse_text_directory (h : Spells (above ++ [name])) :
    parse (text ⟨0, above ++ [name]⟩) = ⟨0, above ++ [name]⟩ := by
  obtain ⟨c, ds, hcs, hc⟩ := exists_first_of_directory h
  have hslashes : leadingSlashes (leadingText above ++ name.toList) = 0 := by
    simp [leadingSlashes, hcs, hc]
  have hcomponents := components_parse_intercalate h
  rw [← text_of_ne_nil (by simp)] at hcomponents
  rw [← toList_text_directory] at hslashes
  exact congrArg₂ PathName.mk hslashes hcomponents

theorem baseNameOf_text_directory (h : Spells (above ++ [name])) :
    Text.baseNameOf (text ⟨0, above ++ [name]⟩) = name := by
  have hname := (h name (by simp)).1
  have hbase : Text.baseNameChars (leadingText above ++ name.toList) = name.toList := by
    rcases leadingText_cases above with rfl | ⟨cs, hcs⟩
    · exact Text.baseNameChars_of_not_mem hname
    · rw [hcs, List.append_assoc]
      exact Text.baseNameChars_append cs hname
  rw [Text.baseNameOf, toList_text_directory, hbase, String.ofList_toList]

/-! ## The directory above -/

/-- The text that a directory is known by: that of its normal form, but nothing for the directory that
paths start from. -/
def directoryText (directory : String) : String :=
  if (normalize directory).text = "." then "" else (normalize directory).text

/-- A relative normal form is that of the directory that paths start from, or it ends in a component. -/
theorem normalize_cases (h : ¬ (normalize path).IsAbsolute) :
    (normalize path = ⟨0, []⟩ ∧ directoryText path = "") ∨
      ∃ above name, normalize path = ⟨0, above ++ [name]⟩ ∧ Spells (above ++ [name]) ∧
        directoryText path = text ⟨0, above ++ [name]⟩ := by
  have hspells := spells_normalize path
  have hslashes : (normalize path).slashes = 0 := not_not.1 h
  unfold directoryText
  cases hn : normalize path with
  | mk slashes components =>
    rw [hn] at hspells hslashes
    obtain rfl : slashes = 0 := hslashes
    rcases List.eq_nil_or_concat components with rfl | ⟨above, name, rfl⟩
    · exact .inl ⟨rfl, rfl⟩
    · rw [List.concat_eq_append] at hspells ⊢
      refine .inr ⟨above, name, rfl, hspells, if_neg fun hdot => ?_⟩
      have hparse := parse_text_directory hspells
      rw [hdot] at hparse
      have hlength := congrArg (fun p => p.components.length) hparse
      simp [show (parse ".").components = [] by decide] at hlength

theorem directoryText_eq (h : ¬ (normalize path).IsAbsolute) :
    directoryText path = "/".intercalate (normalize path).components := by
  rcases normalize_cases h with ⟨hn, hd⟩ | ⟨above, name, hn, -, hd⟩
  · rw [hn, hd]
    rfl
  · rw [hn, hd, text_of_ne_nil (by simp)]

theorem directoryText_eq_empty_iff (h : ¬ (normalize path).IsAbsolute) :
    directoryText path = "" ↔ (normalize path).components = [] := by
  rcases normalize_cases h with ⟨hn, hd⟩ | ⟨above, name, hn, hspells, hd⟩
  · simp [hn, hd]
  · obtain ⟨c, ds, hcs, -⟩ := exists_first_of_directory hspells
    have hne : text ⟨0, above ++ [name]⟩ ≠ "" := by
      intro hempty
      have hlist := toList_text_directory above name
      rw [hempty, hcs] at hlist
      cases hlist
    simp [hn, hd, hne]

/-- A normal form is its own normal form. -/
theorem normalize_directoryText (h : ¬ (normalize path).IsAbsolute) :
    normalize (directoryText path) = normalize path := by
  have hstacked := stacked_normalize h
  rcases normalize_cases h with ⟨hn, hd⟩ | ⟨above, name, hn, hspells, hd⟩
  · rw [hn, hd]
    decide
  · rw [hn] at hstacked ⊢
    rw [hd, normalize, parse_text_directory hspells, cancelParents_of_stacked hstacked]

/-- Relative directories have one normal form if they are known by one text. -/
theorem directoryText_inj (h : ¬ (normalize path).IsAbsolute) (h' : ¬ (normalize path').IsAbsolute) :
    directoryText path = directoryText path' ↔ (normalize path).components = (normalize path').components := by
  constructor
  · intro heq
    rw [← normalize_directoryText h, heq, normalize_directoryText h']
  · intro heq
    rw [directoryText_eq h, heq, directoryText_eq h']

/-- The directory part of a normal form is the normal form above it. -/
theorem normalize_directoryOf (h : ¬ (normalize path).IsAbsolute) (hne : directoryText path ≠ "") :
    normalize (Text.directoryOf (directoryText path)) = (normalize path).parent := by
  have hstacked := stacked_normalize h
  obtain ⟨above, name, hn, hspells, hd⟩ := (normalize_cases h).resolve_left fun hempty => hne hempty.2
  have hbase := baseNameOf_text_directory hspells
  have hvoid := (hspells name (by simp)).2
  have hchars : Text.baseNameChars (text ⟨0, above ++ [name]⟩).toList ≠ [] := by
    intro hnil
    refine hvoid (.inl ?_)
    rw [← hbase, Text.baseNameOf, hnil]
  have hparse := parse_text_directory hspells
  have hcomponents := components_parse_eq (hbase ▸ hvoid)
  rw [hparse, hbase] at hcomponents
  have hslashes : (parse (Text.directoryOf (text ⟨0, above ++ [name]⟩))).slashes = 0 := by
    have hsame := leadingSlashes_directoryChars hchars
    have hzero : leadingSlashes (text ⟨0, above ++ [name]⟩).toList = 0 :=
      congrArg PathName.slashes hparse
    rw [parse, Text.directoryOf, String.toList_ofList, hsame, hzero]
  have habove : parse (Text.directoryOf (text ⟨0, above ++ [name]⟩)) = ⟨0, above⟩ := by
    cases hp : parse (Text.directoryOf (text ⟨0, above ++ [name]⟩)) with
    | mk slashes components =>
      rw [hp] at hslashes hcomponents
      obtain rfl : slashes = 0 := hslashes
      rw [(List.append_inj' hcomponents rfl).1]
  rw [hn, List.reverse_append] at hstacked
  rw [hd, normalize, habove, cancelParents_of_stacked hstacked.2, hn, parent, List.dropLast_concat]

/-! ## Absolute directories -/

theorem slashes_normalize (path : String) : (normalize path).slashes = (parse path).slashes := rfl

/-- The text of an absolute path starts with a slash. -/
theorem exists_toList_directoryText (h : (normalize path).IsAbsolute) :
    ∃ cs, (directoryText path).toList = '/' :: cs := by
  obtain ⟨k, hk⟩ := Nat.exists_eq_succ_of_ne_zero h
  have htext : ∃ cs, (normalize path).text.toList = '/' :: cs := by
    refine ⟨List.replicate k '/' ++ ("/".intercalate (normalize path).components).toList, ?_⟩
    rw [text, if_neg fun hzero => h hzero.1, String.toList_append, String.toList_ofList, hk,
      List.replicate_succ, List.cons_append]
  obtain ⟨cs, hcs⟩ := htext
  refine ⟨cs, ?_⟩
  unfold directoryText
  rw [if_neg, hcs]
  intro hdot
  rw [hdot] at hcs
  exact absurd (List.cons.inj hcs).1 (by decide)

theorem isAbsolute_iff (path : String) :
    (normalize path).IsAbsolute ↔ ['/'] <+: (directoryText path).toList := by
  constructor
  · intro h
    obtain ⟨cs, hcs⟩ := exists_toList_directoryText h
    exact ⟨cs, hcs.symm⟩
  · rintro ⟨cs, hcs⟩
    by_contra h
    rcases normalize_cases h with ⟨-, hd⟩ | ⟨above, name, -, hspells, hd⟩
    · rw [hd] at hcs
      cases hcs
    · obtain ⟨c, ds, hfirst, hc⟩ := exists_first_of_directory hspells
      rw [hd, toList_text_directory, hfirst] at hcs
      exact hc (List.cons.inj hcs).1.symm

theorem leadingSlashes_cons (cs : List Char) : leadingSlashes ('/' :: cs) ≠ 0 := by
  rw [leadingSlashes, List.takeWhile_cons_of_pos (by simp), List.length_cons]
  split
  · next hzero => cases hzero
  · decide
  · decide

/-- The directory above an absolute one is absolute. -/
theorem isAbsolute_directoryOf (h : (normalize path).IsAbsolute) :
    (normalize (Text.directoryOf (directoryText path))).IsAbsolute := by
  obtain ⟨cs, hcs⟩ := exists_toList_directoryText h
  -- What is before the base name starts with the first slash.
  have hhead := Text.headChars_append_baseNameChars ('/' :: cs)
  obtain ⟨slashes, hcut, -, hrest⟩ := Text.directoryChars_cases ('/' :: cs)
  have hne : Text.directoryChars ('/' :: cs) ≠ [] := by
    intro hnil
    rw [hnil, List.nil_append] at hcut
    have hslashes : slashes = [] := by
      by_contra hslashes
      obtain ⟨c, hc, -⟩ := hrest hslashes
      rw [hnil] at hc
      cases hc
    rw [hcut, hslashes, List.nil_append] at hhead
    exact Text.slash_not_mem_baseNameChars ('/' :: cs) (by rw [hhead]; exact List.mem_cons_self)
  obtain ⟨c, ds, hds⟩ := List.exists_cons_of_ne_nil hne
  have hfirst : c = '/' := by
    rw [hcut, hds] at hhead
    exact (List.cons.inj hhead).1
  have hslashes : (parse (Text.directoryOf (directoryText path))).slashes =
      leadingSlashes ('/' :: ds) := by
    rw [parse, Text.directoryOf, String.toList_ofList, hcs, hds, hfirst]
  rw [IsAbsolute, slashes_normalize, hslashes]
  exact leadingSlashes_cons ds

/-- The directory `d'` is above `d`, as looking up the group of `d` goes up. -/
def IsAbove (d' d : String) : Prop :=
  directoryText d ≠ "" ∧ d' = Text.directoryOf (directoryText d)

/-- Going up from a directory comes to an end unless the directory is absolute. -/
theorem acc_isAbove_iff (directory : String) :
    Acc IsAbove directory ↔ ¬ (normalize directory).IsAbsolute := by
  constructor
  · intro hacc
    induction hacc with
    | intro d _ ih =>
      intro habsolute
      refine ih (Text.directoryOf (directoryText d)) ⟨?_, rfl⟩ (isAbsolute_directoryOf habsolute)
      intro hempty
      obtain ⟨cs, hcs⟩ := exists_toList_directoryText habsolute
      rw [hempty] at hcs
      cases hcs
  · intro hrelative
    generalize hlength : (normalize directory).components.length = k
    induction k generalizing directory with
    | zero =>
      refine .intro _ ?_
      rintro d' ⟨hne, -⟩
      exact absurd ((directoryText_eq_empty_iff hrelative).2 (List.length_eq_zero_iff.1 hlength)) hne
    | succ k ih =>
      refine .intro _ ?_
      rintro d' ⟨hne, rfl⟩
      have hparent := normalize_directoryOf hrelative hne
      refine ih _ ?_ ?_
      · rw [hparent]
        exact hrelative
      · rw [hparent, parent, List.length_dropLast, hlength]
        rfl

end PathName
end ProjectGraph
