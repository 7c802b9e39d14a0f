import ProjectGraph.Proofs.FileTree.Hidden

/-! # What is visible

A pattern none of whose segments starts with a dot lists nothing but paths whose components do not start
with one either. Hidden entries take part in the search, but what they lead to is not listed: two
directories with the same visible entries give the same lists, whatever else they hold and in whatever
order. -/

namespace ProjectGraph

def Entry.isDirectory (e : Entry) : Bool := e = .directory

namespace FileTree

/-- No name has a dot at its start. -/
def Undotted (names : List String) : Prop := ∀ n ∈ names, ¬ startsWithDot n

instance (names : List String) : Decidable (Undotted names) := inferInstanceAs (Decidable (∀ n ∈ _, _))

/-- Is there a directory at the position, or a file, or nothing? -/
def kindAt (t : FileTree) (pos : Position) : Option Bool := (t.entryAt pos).map Entry.isDirectory

/-- What there is along names below the path `root`. -/
def kindBelow (t : FileTree) (root : PathName) (names : List String) : Option Bool :=
  match t.locate root with
  | .ok pos => t.kindAt (pos ++ names)
  | .error _ => none

/-- Below the two positions there are the same visible files and directories. -/
def SameBelow (t : FileTree) (pos : Position) (u : FileTree) (pos' : Position) : Prop :=
  ∀ names, Undotted names → t.kindAt (pos ++ names) = u.kindAt (pos' ++ names)

/-- Below the two paths there are the same visible files and directories. -/
def SameVisible (t : FileTree) (root : PathName) (u : FileTree) (root' : PathName) : Prop :=
  ∀ names, Undotted names → t.kindBelow root names = u.kindBelow root' names

variable {t u : FileTree} {root root' : PathName} {directoriesOnly : Bool} {segment : Segment}
  {rest segments : List Segment} {pos pos' next : Position} {below names path : List String}
  {pattern : String} {found found' : List (List String)}

theorem undotted_append : Undotted (below ++ names) ↔ Undotted below ∧ Undotted names :=
  List.forall_mem_append

theorem undotted_singleton {name : String} : Undotted [name] ↔ ¬ startsWithDot name :=
  List.forall_mem_singleton

theorem kindAt_eq_some_true_iff : t.kindAt pos = some true ↔ t.entryAt pos = some .directory := by
  simp [kindAt, Entry.isDirectory]

theorem isSome_kindAt : (t.kindAt pos).isSome = (t.entryAt pos).isSome := Option.isSome_map

/-! ## The same search in another tree -/

namespace SameBelow

theorem append (h : SameBelow t pos u pos') (hbelow : Undotted below) :
    SameBelow t (pos ++ below) u (pos' ++ below) := by
  intro names hnames
  rw [List.append_assoc, List.append_assoc]
  exact h _ (undotted_append.2 ⟨hbelow, hnames⟩)

theorem isSome (h : SameBelow t pos u pos') (hnames : Undotted names) :
    (t.entryAt (pos ++ names)).isSome = (u.entryAt (pos' ++ names)).isSome := by
  rw [← isSome_kindAt, h names hnames, isSome_kindAt]

theorem directory (h : SameBelow t pos u pos') (hnames : Undotted names)
    (hentry : t.entryAt (pos ++ names) = some .directory) :
    u.entryAt (pos' ++ names) = some .directory := by
  rw [← kindAt_eq_some_true_iff, ← h names hnames, kindAt_eq_some_true_iff]
  exact hentry

theorem directory_self (h : SameBelow t pos u pos') (hentry : t.entryAt pos = some .directory) :
    u.entryAt pos' = some .directory := by
  have hself : t.kindAt (pos ++ []) = u.kindAt (pos' ++ []) := h [] (by simp [Undotted])
  rw [List.append_nil, List.append_nil] at hself
  rw [← kindAt_eq_some_true_iff, ← hself, kindAt_eq_some_true_iff]
  exact hentry

/-- A segment that leads along visible names leads along them in the other tree, too. -/
theorem enters (h : SameBelow t pos u pos') (hbelow : Undotted below)
    (henters : t.Enters directoriesOnly rest segment pos below next) :
    next = pos ++ below ∧ u.Enters directoriesOnly rest segment pos' below (pos' ++ below) := by
  cases henters with
  | @name text _ _ step opens =>
    have hup : text ≠ ".." := by
      rintro rfl
      exact undotted_singleton.1 hbelow (by decide)
    obtain ⟨rfl, hpos, hnull, hshort, hsome⟩ := (step_eq_ok_iff hup).1 step
    refine ⟨rfl, .name ((step_eq_ok_iff hup).2 ⟨rfl, h.directory_self hpos, hnull, hshort, ?_⟩) ?_⟩
    · exact (h.isSome hbelow).symm.trans hsome
    · exact fun hgoes => h.directory hbelow (opens hgoes)
  | wild present opens fits =>
    refine ⟨rfl, .wild ((h.isSome hbelow).symm.trans present) ?_ fits⟩
    exact fun hgoes => h.directory hbelow (opens hgoes)
  | deep opens => exact ⟨rfl, .deep fun hne => h.directory hbelow (opens hne)⟩

theorem finds (h : SameBelow t pos u pos') (hnames : Undotted names)
    (hfinds : t.Finds directoriesOnly segments pos names) : u.Finds directoriesOnly segments pos' names := by
  induction hfinds generalizing pos' with
  | nil => exact .nil
  | cons enters _ ih =>
    obtain ⟨hbelow, hrest⟩ := undotted_append.1 hnames
    obtain ⟨rfl, henters⟩ := h.enters hbelow enters
    exact .cons henters (ih (h.append hbelow) hrest)

end SameBelow

namespace SameVisible

theorem symm (h : SameVisible t root u root') : SameVisible u root' t root := fun names hnames =>
  (h names hnames).symm

/-- A directory in one tree is one in the other tree, with the same visible entries below it. -/
theorem exists_of_locate (h : SameVisible t root u root') (hlocate : t.locate root = .ok pos)
    (hpos : t.entryAt pos = some .directory) :
    ∃ pos', u.locate root' = .ok pos' ∧ u.entryAt pos' = some .directory ∧ SameBelow t pos u pos' := by
  have hroot : t.kindBelow root [] = u.kindBelow root' [] := h [] (by simp [Undotted])
  unfold SameVisible at h
  unfold kindBelow at h hroot
  simp only [hlocate, List.append_nil, kindAt_eq_some_true_iff.2 hpos] at h hroot
  cases hlocate' : u.locate root' with
  | error obstacle => simp [hlocate'] at hroot
  | ok pos' =>
    simp only [hlocate'] at h hroot
    exact ⟨pos', rfl, kindAt_eq_some_true_iff.1 hroot.symm, h⟩

theorem mem_of_mem_search (h : SameVisible t root u root') (ht : t.search root pattern = .ok found)
    (hu : u.search root' pattern = .ok found') (hnames : Undotted path) (hpath : path ∈ found) :
    path ∈ found' := by
  obtain ⟨parsed, pos, hparsed, hlocate, hpos, hfinds⟩ := (mem_search_iff ht).1 hpath
  obtain ⟨pos', hlocate', hpos', hbelow⟩ := h.exists_of_locate hlocate hpos
  exact (mem_search_iff hu).2 ⟨parsed, pos', hparsed, hlocate', hpos', hbelow.finds hnames hfinds⟩

end SameVisible

/-! ## The lists -/

/-- A pattern none of whose segments starts with a dot shows the paths without such components. -/
theorem isHidden_eq_false_iff_undotted (hpattern : Undotted (Text.split '/' pattern)) {path : String} :
    isHidden path pattern = false ↔ Undotted (Text.split '/' path) := by
  rw [isHidden_eq_false_iff]
  refine forall₂_congr fun c _ => imp_congr_right fun _ => iff_false_intro ?_
  rintro ⟨s, hs, hdot, -⟩
  exact hpattern s hs hdot

/-- The path of the root is spelled with a dot, so it is never shown. -/
theorem isHidden_text_eq_false_iff (hpattern : Undotted (Text.split '/' pattern))
    (hpath : ∀ n ∈ path, '/' ∉ n.toList) :
    isHidden (⟨0, path⟩ : PathName).text pattern = false ↔ path ≠ [] ∧ Undotted path := by
  rw [isHidden_eq_false_iff_undotted hpattern]
  by_cases hnil : path = []
  · subst hnil
    decide +kernel
  · rw [PathName.text_of_ne_nil hnil, Text.split_intercalate hnil hpath]
    exact (and_iff_right hnil).symm

/-- What a pattern lists none of whose segments starts with a dot. -/
theorem visibleFiles_of_undotted (ht : t.NamesApart) (hpattern : Undotted (Text.split '/' pattern))
    {list : List String} (h : t.visibleFiles root pattern = .ok list) :
    ∃ found, t.search root pattern = .ok found ∧
      list = (found.filter fun p => p ≠ [] ∧ Undotted p).map "/".intercalate := by
  obtain ⟨found, hfound, h⟩ := exists_of_ok_bind h
  cases h
  refine ⟨found, hfound, ?_⟩
  have hshown : ∀ p ∈ found, (!isHidden (⟨0, p⟩ : PathName).text pattern) =
      decide (p ≠ [] ∧ Undotted p) := by
    intro p hp
    rw [Bool.eq_iff_iff, Bool.not_eq_true', decide_eq_true_iff]
    exact isHidden_text_eq_false_iff hpattern (slash_not_mem_of_mem_search ht hfound hp)
  rw [List.filter_map]
  simp only [Function.comp_def]
  rw [List.filter_congr hshown]
  refine List.map_congr_left fun p hp => PathName.text_of_ne_nil ?_
  exact (of_decide_eq_true (List.mem_filter.1 hp).2).1

/-- What a pattern lists is in the order of the components. -/
theorem pairwise_visibleFiles (ht : t.NamesApart) (hpattern : Undotted (Text.split '/' pattern))
    {list : List String} (h : t.visibleFiles root pattern = .ok list) :
    list.Pairwise fun p q => Text.split '/' p < Text.split '/' q := by
  obtain ⟨found, hfound, rfl⟩ := visibleFiles_of_undotted ht hpattern h
  have hsplit : ∀ p ∈ found.filter fun p => p ≠ [] ∧ Undotted p,
      Text.split '/' ("/".intercalate p) = p := by
    intro p hp
    obtain ⟨hp, hne⟩ := List.mem_filter.1 hp
    exact Text.split_intercalate (of_decide_eq_true hne).1
      (slash_not_mem_of_mem_search ht hfound hp)
  refine List.pairwise_map.2 (((pairwise_search hfound).filter _).imp_of_mem fun hp hq hlt => ?_)
  rw [hsplit _ hp, hsplit _ hq]
  exact hlt

theorem visibleFiles_eq_of_sameVisible (ht : t.NamesApart) (hu : u.NamesApart)
    (h : SameVisible t root u root') (hpattern : Undotted (Text.split '/' pattern))
    {list list' : List String} (hlist : t.visibleFiles root pattern = .ok list)
    (hlist' : u.visibleFiles root' pattern = .ok list') : list = list' := by
  obtain ⟨found, hfound, rfl⟩ := visibleFiles_of_undotted ht hpattern hlist
  obtain ⟨found', hfound', rfl⟩ := visibleFiles_of_undotted hu hpattern hlist'
  congr 1
  refine ((pairwise_search hfound).filter _).eq_of_mem_iff ((pairwise_search hfound').filter _)
    fun p => ?_
  simp only [List.mem_filter, decide_eq_true_eq]
  refine and_congr_left fun hvisible => ⟨?_, ?_⟩
  · exact h.mem_of_mem_search hfound hfound' hvisible.2
  · exact h.symm.mem_of_mem_search hfound' hfound hvisible.2

/-- Patterns whose segments do not start with dots are resolved to the same lists below two directories
with the same visible entries. Each list is in the order of the components, without repetitions. -/
theorem resolveFiles_eq_of_sameVisible (ht : t.NamesApart) (hu : u.NamesApart)
    (h : SameVisible t root u root') {patterns : List String}
    (hpatterns : ∀ pattern ∈ patterns, Undotted (Text.split '/' pattern))
    {exclude : Option (List (List String))} {lists lists' : List (List String)}
    (hlists : t.resolveFiles root patterns exclude = .ok lists)
    (hlists' : u.resolveFiles root' patterns exclude = .ok lists') :
    lists = lists' ∧
      ∀ list ∈ lists, list.Pairwise fun p q => Text.split '/' p < Text.split '/' q := by
  rw [resolveFiles_eq] at hlists hlists'
  obtain ⟨visible, hvisible, hlists⟩ := exists_of_ok_bind hlists
  obtain ⟨visible', hvisible', hlists'⟩ := exists_of_ok_bind hlists'
  cases hlists
  cases hlists'
  constructor
  · rw [eq_of_mapM_eq_ok hvisible hvisible' fun pattern hpattern list list' =>
      visibleFiles_eq_of_sameVisible ht hu h (hpatterns pattern hpattern)]
  · intro list hlist
    obtain ⟨paths, hpaths, rfl⟩ := List.mem_map.1 hlist
    obtain ⟨pattern, hpattern, hresolves⟩ := exists_of_mem_of_mapM_eq_ok hvisible paths hpaths
    exact (pairwise_visibleFiles ht (hpatterns pattern hpattern) hresolves).filter _

/-! ## Comparing what is visible -/

/-- The visible entries below a position are there below the other one. -/
def VisibleIn (t : FileTree) (pos : Position) (u : FileTree) (pos' : Position) : Prop :=
  ∀ e ∈ t.entries.entries, pos <+: e.1 → Undotted (e.1.drop pos.length) →
    u.kindAt (pos' ++ e.1.drop pos.length) = some e.2.isDirectory

instance (t : FileTree) (pos : Position) (u : FileTree) (pos' : Position) :
    Decidable (VisibleIn t pos u pos') :=
  inferInstanceAs (Decidable (∀ e ∈ _, _ → _ → _))

theorem VisibleIn.kindAt_eq (h : VisibleIn t pos u pos') (hne : names ≠ []) (hnames : Undotted names)
    {kind : Bool} (hkind : t.kindAt (pos ++ names) = some kind) : u.kindAt (pos' ++ names) = some kind := by
  obtain ⟨e, he, rfl⟩ := Option.map_eq_some_iff.1 hkind
  have hmem := (mem_entries_iff (by simp [hne])).2 he
  simpa using h _ hmem (List.prefix_append pos names) (by simpa using hnames)

theorem sameBelow_of_visibleIn (hpos : t.kindAt pos = u.kindAt pos') (ht : VisibleIn t pos u pos')
    (hu : VisibleIn u pos' t pos) : SameBelow t pos u pos' := by
  intro names hnames
  by_cases hne : names = []
  · rw [hne, List.append_nil, List.append_nil]
    exact hpos
  · refine Option.ext fun kind => ⟨?_, ?_⟩
    · exact ht.kindAt_eq hne hnames
    · exact hu.kindAt_eq hne hnames

/-! ## Two trees that look alike -/

/-- A tree with a file below `work` and two more in a directory. -/
def plainTree : FileTree :=
  ((((FileTree.withHome ["work"]).put ["work", "a"] .directory).put ["work", "a", "x.swift"]
    (.file "")).put ["work", "a-b.swift"] (.file "")).put ["work", "a", "y.swift"] (.file "")

/-- The same files in another order, next to hidden ones. -/
def strewnTree : FileTree :=
  ((((((FileTree.withHome ["work"]).put ["work", ".build"] .directory).put ["work", ".build", "x.swift"]
    (.file "")).put ["work", "a-b.swift"] (.file "other")).put ["work", "a"] .directory).put
      ["work", "a", "y.swift"] (.file "")).put ["work", "a", ".x.swift"] .directory |>.put
        ["work", "a", "x.swift"] (.file "")

/-- The directory comes before the file, as `a` is before `a-b.swift`. -/
theorem resolveFiles_strewnTree :
    plainTree.NamesApart ∧ strewnTree.NamesApart ∧
      SameVisible plainTree (.parse ".") strewnTree (.parse "") ∧
      ∃ lists, plainTree.resolveFiles (.parse ".") ["**/*.swift", "a/*"] none = .ok lists ∧
        strewnTree.resolveFiles (.parse "") ["**/*.swift", "a/*"] none = .ok lists ∧
        lists = [["a/x.swift", "a/y.swift", "a-b.swift"], ["a/x.swift", "a/y.swift"]] ∧
        ∀ list ∈ lists, list.Pairwise fun p q => Text.split '/' p < Text.split '/' q := by
  have ht : plainTree.NamesApart := by decide +kernel
  have hu : strewnTree.NamesApart := by decide +kernel
  have hsame : SameVisible plainTree (.parse ".") strewnTree (.parse "") := by
    have hlocate : plainTree.locate (.parse ".") = .ok ["work"] := by decide +kernel
    have hlocate' : strewnTree.locate (.parse "") = .ok ["work"] := by decide +kernel
    have hbelow : SameBelow plainTree ["work"] strewnTree ["work"] :=
      sameBelow_of_visibleIn (by decide +kernel) (by decide +kernel) (by decide +kernel)
    intro names hnames
    simpa only [kindBelow, hlocate, hlocate'] using hbelow names hnames
  have hplain : plainTree.resolveFiles (.parse ".") ["**/*.swift", "a/*"] none =
      .ok [["a/x.swift", "a/y.swift", "a-b.swift"], ["a/x.swift", "a/y.swift"]] := by
    decide +kernel
  have hstrewn : strewnTree.resolveFiles (.parse "") ["**/*.swift", "a/*"] none =
      .ok [["a/x.swift", "a/y.swift", "a-b.swift"], ["a/x.swift", "a/y.swift"]] := by
    decide +kernel
  have hlists := resolveFiles_eq_of_sameVisible ht hu hsame (by decide +kernel) hplain hstrewn
  exact ⟨ht, hu, hsame, _, hplain, hstrewn, rfl, hlists.2⟩

end FileTree
end ProjectGraph
