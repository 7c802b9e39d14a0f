import ProjectGraph.Proofs.FileTree.Selection
import ProjectGraph.Proofs.Text.NormalForms

/-! # Hidden entries

A pattern without `**` selects paths with one component for each of its segments, which the segment
accepts. Of these paths the ones are listed whose every component with a dot at its start is accepted by
some segment with a dot at its start. That can be the segment of another component. -/

namespace ProjectGraph

/-! ## Patterns without wildcards -/

namespace Wildcard

theorem parseFrom_of_plain {cs : List Char} (h : ∀ c ∈ cs, ¬ (c = '*' ∨ c = '?' ∨ c = '[')) :
    parseFrom 0 cs = cs.map .char := by
  induction cs with
  | nil => rfl
  | cons c cs ih =>
    obtain ⟨hc, hcs⟩ := List.forall_mem_cons.1 h
    simp only [not_or] at hc
    obtain ⟨hstar, hmark, hbracket⟩ := hc
    rw [List.map_cons, ← ih hcs]
    rw [parseFrom] <;> simp_all

theorem matchesChars_map_char (cs : List Char) : matchesChars (cs.map .char) cs = true := by
  induction cs with
  | nil => rfl
  | cons c cs ih => simp [matchesChars, ih]

/-- A text without wildcards accepts itself. -/
theorem accepts_self {text : String} (h : ¬ isPattern text) : accepts text text := by
  have hplain : ∀ c ∈ text.toList, ¬ (c = '*' ∨ c = '?' ∨ c = '[') := by
    simpa [isPattern, or_assoc] using h
  rw [accepts, fits_eq_matchesChars, parse, parseFrom_of_plain hplain]
  exact matchesChars_map_char _

end Wildcard

/-! ## Segments and what they take -/

/-- Does the segment take a component with this name? -/
def Segment.Takes (component : String) : Segment → Prop
  | name text => component = text
  | wild pattern => pattern.fits component
  | deep => False

namespace SearchPattern

theorem accepts_of_takes {text component : String} {s : Segment} (h : parseSegment text = .ok s)
    (htakes : s.Takes component) : Wildcard.accepts text component := by
  unfold parseSegment at h
  split at h
  · cases h
    cases htakes
  · split at h
    · cases h
    · split at h
      · cases h
        exact htakes
      · next hplain =>
        cases h
        rw [show component = text from htakes]
        exact Wildcard.accepts_self hplain

/-- If segments take names, the texts that spell the segments accept them. -/
theorem forall₂_accepts {texts names : List String} {segments : List Segment}
    (h : List.Forall₂ (fun text s => parseSegment text = .ok s) texts segments)
    (htakes : List.Forall₂ (fun s n => s.Takes n) segments names) :
    List.Forall₂ (fun s c => Wildcard.accepts s c = true) texts names := by
  induction h generalizing names with
  | nil =>
    cases htakes
    exact .nil
  | cons hparse _ ih =>
    cases htakes with
    | cons htakes hrest => exact .cons (accepts_of_takes hparse htakes) (ih hrest)

theorem ne_deep_of_parseSegment {text : String} {s : Segment} (h : parseSegment text = .ok s)
    (hne : text ≠ "**") : s ≠ .deep := by
  unfold parseSegment at h
  rw [if_neg hne] at h
  split at h
  · cases h
  · split at h <;> cases h <;> simp

theorem name_of_parseSegment {text name : String} (h : parseSegment text = .ok (.name name)) :
    name = text := by
  unfold parseSegment at h
  split at h
  · cases h
  · split at h
    · cases h
    · split at h <;> cases h
      rfl

theorem mergeDeep_of_not_mem {segments : List Segment} (h : Segment.deep ∉ segments) :
    mergeDeep segments = segments := by
  induction segments with
  | nil => rfl
  | cons s rest ih =>
    rw [List.mem_cons, not_or] at h
    show (if s = .deep ∧ (mergeDeep rest).head? = some .deep then mergeDeep rest
      else s :: mergeDeep rest) = _
    rw [if_neg fun hs => h.1 hs.1.symm, ih h.2]

theorem mem_of_mem_mergeDeep {s : Segment} {segments : List Segment} (h : s ∈ mergeDeep segments) :
    s ∈ segments := by
  induction segments with
  | nil => exact h
  | cons s' rest ih =>
    change s ∈ if s' = .deep ∧ (mergeDeep rest).head? = some .deep then mergeDeep rest
      else s' :: mergeDeep rest at h
    split at h
    · exact List.mem_cons_of_mem _ (ih h)
    · exact (List.mem_cons.1 h).elim (fun hs => hs ▸ List.mem_cons_self)
        fun hs => List.mem_cons_of_mem _ (ih hs)

/-- Each segment of a pattern is spelled by one of its components. -/
theorem exists_of_mem_segments {pattern : String} {parsed : SearchPattern}
    (h : parse pattern = .ok parsed) {s : Segment} (hs : s ∈ parsed.segments) :
    ∃ component ∈ (PathName.parse pattern).components, parseSegment component = .ok s := by
  unfold parse at h
  split at h
  · cases h
  · simp only at h
    split at h
    · cases h
    · split at h
      · cases h
      · obtain ⟨segments, hsegments, h⟩ := FileTree.exists_of_ok_bind h
        cases h
        exact FileTree.exists_of_mem_of_mapM_eq_ok hsegments s (mem_of_mem_mergeDeep hs)

/-- A search pattern without `**` and without components that name the directory they stand in. -/
def IsPlain (pattern : String) : Prop :=
  ∀ s ∈ Text.split '/' pattern, ¬ PathName.IsVoid s ∧ s ≠ "**"

instance (pattern : String) : Decidable (IsPlain pattern) :=
  inferInstanceAs (Decidable (∀ s ∈ _, _))

/-- The segments of a plain pattern are those that its pieces spell. -/
theorem segments_of_parse {pattern : String} {parsed : SearchPattern} (h : parse pattern = .ok parsed)
    (hplain : IsPlain pattern) :
    List.Forall₂ (fun text s => parseSegment text = .ok s) (Text.split '/' pattern) parsed.segments := by
  have hcomponents : (PathName.parse pattern).components = Text.split '/' pattern :=
    List.filter_eq_self.2 fun s hs => by simpa using (hplain s hs).1
  unfold parse at h
  simp only [hcomponents] at h
  split at h
  · cases h
  · split at h
    · cases h
    · split at h
      · cases h
      · obtain ⟨segments, hsegments, h⟩ := FileTree.exists_of_ok_bind h
        cases h
        have hdeep : Segment.deep ∉ segments := by
          intro hmem
          obtain ⟨text, htext, hdeep⟩ := FileTree.exists_of_mem_of_mapM_eq_ok hsegments _ hmem
          exact ne_deep_of_parseSegment hdeep (hplain text htext).2 rfl
        rw [mergeDeep_of_not_mem hdeep]
        exact FileTree.forall₂_of_mapM_eq_ok hsegments

end SearchPattern

namespace FileTree

variable {t : FileTree} {root : PathName} {directoriesOnly : Bool} {pos : Position} {path : List String}

/-! ## What is selected -/

/-- No name of an entry holds a slash. -/
def NamesApart (t : FileTree) : Prop := ∀ e ∈ t.entries.entries, ∀ n ∈ e.1, '/' ∉ n.toList

instance (t : FileTree) : Decidable t.NamesApart := inferInstanceAs (Decidable (∀ e ∈ _, _))

/-- Each segment takes the component that it leads along. -/
theorem Finds.takes {segments : List Segment} {names : List String}
    (h : t.Finds directoriesOnly segments pos names) (hdeep : Segment.deep ∉ segments) :
    List.Forall₂ (fun s n => s.Takes n) segments names := by
  induction h with
  | nil => exact .nil
  | cons enters _ ih =>
    rw [List.mem_cons, not_or] at hdeep
    cases enters with
    | name => exact .cons rfl (ih hdeep.2)
    | wild _ _ fits => exact .cons fits (ih hdeep.2)
    | deep => exact absurd rfl hdeep.1

/-- Segments lead along names without slashes. -/
theorem Finds.slash_not_mem {segments : List Segment} {names : List String}
    (h : t.Finds directoriesOnly segments pos names) (ht : t.NamesApart)
    (hnames : ∀ text, Segment.name text ∈ segments → '/' ∉ text.toList) :
    ∀ n ∈ names, '/' ∉ n.toList := by
  have hentry : ∀ {pos : Position} {e : Entry}, t.entryAt pos = some e → ∀ n ∈ pos, '/' ∉ n.toList := by
    intro pos e he n hn
    exact ht _ ((mem_entries_iff (List.ne_nil_of_mem hn)).2 he) n hn
  induction h with
  | nil => simp
  | cons enters _ ih =>
    refine List.forall_mem_append.2 ⟨?_, ih fun text htext => hnames text (List.mem_cons_of_mem _ htext)⟩
    cases enters with
    | name => simpa using hnames _ List.mem_cons_self
    | wild present =>
      obtain ⟨e, he⟩ := Option.isSome_iff_exists.1 present
      simpa using hentry he _ (by simp)
    | deep opens =>
      intro n hn
      exact hentry (opens (List.ne_nil_of_mem hn)) n (List.mem_append_right _ hn)

/-- The components of a found path hold no slashes. -/
theorem slash_not_mem_of_mem_search (ht : t.NamesApart) {pattern : String}
    {found : List (List String)} (h : t.search root pattern = .ok found) (hpath : path ∈ found) :
    ∀ n ∈ path, '/' ∉ n.toList := by
  obtain ⟨parsed, pos, hparsed, -, -, hfinds⟩ := (mem_search_iff h).1 hpath
  refine hfinds.slash_not_mem ht fun text htext => ?_
  obtain ⟨component, hcomponent, hparse⟩ := SearchPattern.exists_of_mem_segments hparsed htext
  rw [SearchPattern.name_of_parseSegment hparse]
  exact PathName.slash_not_mem_of_mem_parse hcomponent

/-- A plain pattern selects paths with a component for each of its pieces, which the piece accepts. -/
theorem accepts_of_mem_search {pattern : String} (hplain : SearchPattern.IsPlain pattern)
    {found : List (List String)} (h : t.search root pattern = .ok found) (hpath : path ∈ found) :
    List.Forall₂ (fun s c => Wildcard.accepts s c = true) (Text.split '/' pattern) path := by
  obtain ⟨parsed, pos, hparsed, -, -, hfinds⟩ := (mem_search_iff h).1 hpath
  have hsegments := SearchPattern.segments_of_parse hparsed hplain
  refine SearchPattern.forall₂_accepts hsegments (hfinds.takes fun hmem => ?_)
  obtain ⟨k, hk⟩ := List.mem_iff_getElem?.1 hmem
  obtain ⟨text, htext, hparse⟩ := exists_of_forall₂ (List.Forall₂.flip hsegments) hk
  exact SearchPattern.ne_deep_of_parseSegment hparse (hplain text (List.mem_of_getElem? htext)).2 rfl

/-- The text of a path that a plain pattern selects splits into the components again. -/
theorem text_of_mem_search (ht : t.NamesApart) {pattern : String}
    (hplain : SearchPattern.IsPlain pattern) {found : List (List String)}
    (h : t.search root pattern = .ok found) (hpath : path ∈ found) :
    (⟨0, path⟩ : PathName).text = "/".intercalate path ∧
      Text.split '/' ("/".intercalate path) = path := by
  have haccepts := accepts_of_mem_search hplain h hpath
  have hslash := slash_not_mem_of_mem_search ht h hpath
  have hne : path ≠ [] := by
    rintro rfl
    have hempty := List.forall₂_nil_right_iff.1 haccepts
    exact Text.splitChars_ne_nil '/' _ (List.map_eq_nil_iff.1 hempty)
  exact ⟨PathName.text_of_ne_nil hne, Text.split_intercalate hne hslash⟩

/-! ## What is listed -/

/-- Is every component with a dot at its start matched by a segment with a dot at its start? -/
def DotsInPlace (pattern : String) (path : List String) : Prop :=
  ∀ (i : Nat) (s c : String), (Text.split '/' pattern)[i]? = some s → path[i]? = some c →
    startsWithDot c → startsWithDot s

/-- The list of the paths that a pattern shows, among the ones that it selects. -/
structure Shows (pattern : String) (exclude : Option (List (List String)))
    (found : List (List String)) (list : List String) : Prop where
  /-- Each segment of the pattern accepts the component in its position. -/
  accepts : ∀ p ∈ found,
    List.Forall₂ (fun s c => Wildcard.accepts s c = true) (Text.split '/' pattern) p
  /-- A path is shown if for each component with a dot at its start there is some segment with a dot at
  its start that accepts it. -/
  mem_iff : ∀ path, path ∈ list ↔ ∃ p ∈ found, path = "/".intercalate p ∧
    (∀ c ∈ p, startsWithDot c →
      ∃ s ∈ Text.split '/' pattern, startsWithDot s ∧ Wildcard.accepts s c) ∧
    ¬ isExcluded path (exclude.getD [])
  inPlace : ∀ p ∈ found, DotsInPlace pattern p →
    ¬ isExcluded ("/".intercalate p) (exclude.getD []) → "/".intercalate p ∈ list
  /-- A component of a shown path that is not in place is accepted by a segment of another position. -/
  elsewhere : ∀ p ∈ found, "/".intercalate p ∈ list → ∀ (i : Nat) (s c : String),
    (Text.split '/' pattern)[i]? = some s → p[i]? = some c → startsWithDot c → ¬ startsWithDot s →
      ∃ j s', j ≠ i ∧ (Text.split '/' pattern)[j]? = some s' ∧ startsWithDot s' ∧
        Wildcard.accepts s' c

theorem isHidden_eq_false_iff {path pattern : String} :
    isHidden path pattern = false ↔ ∀ c ∈ Text.split '/' path, startsWithDot c →
      ∃ s ∈ Text.split '/' pattern, startsWithDot s ∧ Wildcard.accepts s c := by
  simp [isHidden]

/-- Of paths whose texts split into the components again, the ones are shown whose components with a dot
at their start are accepted by segments with a dot at their start. -/
theorem mem_shown_iff (pattern : String) (excluded : List (List String)) {found : List (List String)}
    (hsplit : ∀ p ∈ found, (⟨0, p⟩ : PathName).text = "/".intercalate p ∧
      Text.split '/' ("/".intercalate p) = p) (path : String) :
    path ∈ (((found.map fun p => (⟨0, p⟩ : PathName).text).filter fun path =>
      !isHidden path pattern).filter fun path => !isExcluded path excluded) ↔
      ∃ p ∈ found, path = "/".intercalate p ∧
        (∀ c ∈ p, startsWithDot c →
          ∃ s ∈ Text.split '/' pattern, startsWithDot s ∧ Wildcard.accepts s c) ∧
        ¬ isExcluded path excluded := by
  rw [List.mem_filter, List.mem_filter, List.mem_map, Bool.not_eq_true', Bool.not_eq_true']
  constructor
  · rintro ⟨⟨⟨p, hp, rfl⟩, hvisible⟩, hkept⟩
    obtain ⟨htext, hpieces⟩ := hsplit p hp
    rw [htext] at hvisible hkept ⊢
    rw [isHidden_eq_false_iff, hpieces] at hvisible
    exact ⟨p, hp, rfl, hvisible, by simpa using hkept⟩
  · rintro ⟨p, hp, rfl, hvisible, hkept⟩
    obtain ⟨htext, hpieces⟩ := hsplit p hp
    rw [isHidden_eq_false_iff, hpieces]
    exact ⟨⟨⟨p, hp, htext⟩, hvisible⟩, by simpa using hkept⟩

/-- What plain patterns are resolved to. -/
theorem shows_of_resolveFiles (ht : t.NamesApart) {patterns : List String} {pattern : String}
    {exclude : Option (List (List String))} {lists : List (List String)}
    (h : t.resolveFiles root patterns exclude = .ok lists) {k : Nat}
    (hpattern : patterns[k]? = some pattern) (hplain : SearchPattern.IsPlain pattern) :
    ∃ found list, t.search root pattern = .ok found ∧ lists[k]? = some list ∧
      Shows pattern exclude found list := by
  rw [resolveFiles_eq] at h
  obtain ⟨visible, hvisible, h⟩ := exists_of_ok_bind h
  cases h
  obtain ⟨paths, hpaths, hfiles⟩ := exists_of_forall₂ (forall₂_of_mapM_eq_ok hvisible) hpattern
  obtain ⟨found, hfound, h⟩ := exists_of_ok_bind hfiles
  cases h
  have hselected := fun {p} (hp : p ∈ found) => accepts_of_mem_search hplain hfound hp
  have hsplit := fun p (hp : p ∈ found) => text_of_mem_search ht hplain hfound hp
  have hmem := mem_shown_iff pattern (exclude.getD []) hsplit
  refine ⟨found, _, hfound, by rw [List.getElem?_map, hpaths]; rfl, ?_⟩
  constructor
  case accepts => exact fun p hp => hselected hp
  case mem_iff => exact hmem
  case inPlace =>
    intro p hp hplace hkept
    refine (hmem _).2 ⟨p, hp, rfl, fun c hc hdot => ?_, hkept⟩
    obtain ⟨i, hi⟩ := List.mem_iff_getElem?.1 hc
    obtain ⟨s, hs, haccepts⟩ := exists_of_forall₂ (List.Forall₂.flip (hselected hp)) hi
    exact ⟨s, List.mem_of_getElem? hs, hplace i s c hs hi hdot, haccepts⟩
  case elsewhere =>
    intro p hp hlist i s c hs hc hdot hplain
    obtain ⟨p', hp', hsame, hvisible, -⟩ := (hmem _).1 hlist
    obtain rfl : p = p' := by rw [← (hsplit p hp).2, hsame, (hsplit p' hp').2]
    obtain ⟨s', hs', hdot', haccepts⟩ := hvisible c (List.mem_of_getElem? hc) hdot
    obtain ⟨j, hj⟩ := List.mem_iff_getElem?.1 hs'
    refine ⟨j, s', ?_, hj, hdot', haccepts⟩
    rintro rfl
    rw [hs] at hj
    cases hj
    exact hplain hdot'

/-! ## A shown path that is not in place -/

/-- A tree with a hidden file next to another one in a hidden directory. -/
def dottedTree : FileTree :=
  (((FileTree.withHome ["work"]).put ["work", ".config"] .directory).put
    ["work", ".config", ".env"] (.file "")).put ["work", ".config", "app.png"] (.file "")

/-- The last segment of the pattern has no dot at its start, but the first one accepts the hidden file. -/
theorem not_dotsInPlace_of_dottedTree :
    ¬ ∀ (t : FileTree) (root : PathName) (pattern : String) (list : List String), t.NamesApart →
      SearchPattern.IsPlain pattern → t.resolveFiles root [pattern] none = .ok [list] →
        ∀ path ∈ list, DotsInPlace pattern (Text.split '/' path) := by
  intro h
  have hresolves : dottedTree.resolveFiles (.parse ".") [".*/*"] none =
      .ok [[".config/.env", ".config/app.png"]] := by
    decide +kernel
  have hplace := h _ _ _ _ (by decide +kernel) (by decide +kernel) hresolves ".config/.env" (by simp)
  have hdot := hplace 1 "*" ".env" (by decide +kernel) (by decide +kernel) (by decide +kernel)
  revert hdot
  decide +kernel

/-- Of the two paths that the pattern selects and shows, one is in place. -/
theorem shows_of_dottedTree :
    ∃ found list, dottedTree.NamesApart ∧ SearchPattern.IsPlain ".*/*" ∧
      dottedTree.resolveFiles (.parse ".") [".*/*"] none = .ok [list] ∧
      dottedTree.search (.parse ".") ".*/*" = .ok found ∧
      found = [[".config", ".env"], [".config", "app.png"]] ∧ Shows ".*/*" none found list := by
  have hapart : dottedTree.NamesApart := by decide +kernel
  have hplain : SearchPattern.IsPlain ".*/*" := by decide +kernel
  have hresolves : dottedTree.resolveFiles (.parse ".") [".*/*"] none =
      .ok [[".config/.env", ".config/app.png"]] := by
    decide +kernel
  have hsearch : dottedTree.search (.parse ".") ".*/*" =
      .ok [[".config", ".env"], [".config", "app.png"]] := by
    decide +kernel
  obtain ⟨found, list, hfound, hlist, hshows⟩ :=
    shows_of_resolveFiles hapart hresolves (k := 0) rfl hplain
  rw [hsearch] at hfound
  cases hfound
  cases hlist
  exact ⟨_, _, hapart, hplain, hresolves, hsearch, rfl, hshows⟩

end FileTree
end ProjectGraph
