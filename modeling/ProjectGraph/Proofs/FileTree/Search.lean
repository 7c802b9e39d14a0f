import Mathlib.Data.List.Forall2
import Mathlib.Tactic.Tauto
import ProjectGraph.FileTree.Glob
import ProjectGraph.Proofs.FileTree.Growth
import ProjectGraph.Proofs.Table

/-! # Searching a file tree before it has grown

A search that succeeds in a grown tree succeeds in the tree before it has grown, and selects nothing
else there. For a search only looks into directories, and those have been directories before. -/

namespace ProjectGraph.FileTree

variable {t u : FileTree} {pos pos' : Position} {name : String}

/-! ## Looking up paths -/

theorem step_of_not_directory (h : t.entryAt pos ≠ some .directory) :
    (∀ pos', t.step pos name ≠ .ok pos') ∧ t.step pos name ≠ .error .nameTooLong := by
  rw [step]
  split
  · simp
  · simp
  · next hpos => exact absurd hpos h

/-- One step leads on in the grown tree if it does before, and finds the same names too long. -/
theorem step_of_keeps (h : t.Keeps u) :
    (∀ pos', t.step pos name = .ok pos' → u.step pos name = .ok pos') ∧
      (t.step pos name = .error .nameTooLong → u.step pos name = .error .nameTooLong) := by
  by_cases hpos : t.entryAt pos = some .directory
  · rw [step, step, hpos, h.directory pos hpos]
    simp only
    split
    · exact ⟨fun _ => id, id⟩
    · split
      · exact ⟨fun _ => id, id⟩
      · split
        · exact ⟨fun _ => id, id⟩
        · constructor
          · intro pos' hstep
            split at hstep
            · next hentry =>
              obtain ⟨e, he⟩ := Option.isSome_iff_exists.1 hentry
              obtain ⟨e', he', -⟩ := h.entry hpos he
              rw [he']
              exact hstep
            · cases hstep
          · intro hstep
            split at hstep <;> cases hstep
  · obtain ⟨hfails, hfinds⟩ := step_of_not_directory hpos
    exact ⟨fun pos' hstep => absurd hstep (hfails pos'), fun hstep => absurd hstep hfinds⟩

theorem foldlM_step_of_keeps (h : t.Keeps u) (names : List String) (pos : Position) :
    (∀ pos', names.foldlM t.step pos = .ok pos' → names.foldlM u.step pos = .ok pos') ∧
      (names.foldlM t.step pos = .error .nameTooLong →
        names.foldlM u.step pos = .error .nameTooLong) := by
  induction names generalizing pos with
  | nil => exact ⟨fun _ => id, id⟩
  | cons name names ih =>
    simp only [List.foldlM_cons]
    cases hstep : t.step pos name with
    | ok next =>
      rw [(step_of_keeps h).1 next hstep]
      exact ih next
    | error obstacle =>
      refine ⟨fun pos' hfails => ?_, fun hfails => ?_⟩
      · cases hfails
      · cases hfails
        rw [(step_of_keeps h).2 hstep]
        rfl

theorem locate_of_keeps (h : t.Keeps u) (p : PathName) :
    (∀ pos, t.locate p = .ok pos → u.locate p = .ok pos) ∧
      (t.locate p = .error .nameTooLong → u.locate p = .error .nameTooLong) := by
  unfold locate
  rw [h.start]
  split
  · exact ⟨fun _ => id, id⟩
  · split
    · exact ⟨fun _ => id, id⟩
    · exact foldlM_step_of_keeps h p.components (t.start p)

/-! ## Listing directories -/

theorem mem_entries_iff (hne : pos ≠ []) {e : Entry} :
    (pos, e) ∈ t.entries.entries ↔ t.entryAt pos = some e := by
  rw [entryAt, if_neg hne, Table.get?_eq_some_iff]

theorem mem_children {e : Entry} :
    (name, e) ∈ t.children pos ↔ t.entryAt (pos ++ [name]) = some e := by
  rw [← mem_entries_iff (by simp), children, List.mem_filterMap]
  constructor
  · rintro ⟨⟨p, e'⟩, hmem, hchild⟩
    cases hlast : p.getLast? with
    | none => simp [hlast] at hchild
    | some last =>
      simp only [hlast] at hchild
      split at hchild
      · next hpos =>
        cases hchild
        rw [← hpos, List.dropLast_append_getLast? _ hlast]
        exact hmem
      · cases hchild
  · intro hmem
    exact ⟨_, hmem, by simp⟩

theorem mem_directoriesBelow {names : List String} :
    names ∈ t.directoriesBelow pos ↔ names ≠ [] ∧ t.entryAt (pos ++ names) = some .directory := by
  rw [directoriesBelow, List.mem_filterMap]
  constructor
  · rintro ⟨⟨p, e⟩, hmem, hbelow⟩
    simp only at hbelow
    split at hbelow
    · next hdirectory =>
      obtain ⟨rfl, hlength, htake⟩ := hdirectory
      cases hbelow
      have hp : pos ++ p.drop pos.length = p :=
        calc pos ++ p.drop pos.length = p.take pos.length ++ p.drop pos.length := by rw [htake]
          _ = p := List.take_append_drop _ p
      have hne : p.drop pos.length ≠ [] := by
        intro hnil
        rw [List.drop_eq_nil_iff] at hnil
        omega
      refine ⟨hne, ?_⟩
      rw [hp, ← mem_entries_iff]
      · exact hmem
      · rintro rfl
        simp at hlength
    · cases hbelow
  · rintro ⟨hne, hentry⟩
    rw [← mem_entries_iff (by simp [hne])] at hentry
    refine ⟨_, hentry, ?_⟩
    have hlength : 0 < names.length := List.length_pos_iff.2 hne
    simp [hlength]

/-! ## Results of rounds -/

section

variable {α β γ ε : Type}

theorem exists_of_forall₂ {R : α → β → Prop} {xs : List α} {ys : List β} (h : List.Forall₂ R xs ys)
    {k : Nat} {x : α} (hx : xs[k]? = some x) : ∃ y, ys[k]? = some y ∧ R x y := by
  induction h generalizing k with
  | nil => cases hx
  | @cons _ y _ _ hxy _ ih =>
    cases k with
    | zero =>
      cases hx
      exact ⟨y, rfl, hxy⟩
    | succ k => exact ih hx

/-- What succeeds has succeeded in its first part. -/
theorem exists_of_ok_bind {x : Except ε α} {f : α → Except ε β} {b : β} (h : (x >>= f) = .ok b) :
    ∃ a, x = .ok a ∧ f a = .ok b := by
  cases x with
  | error e => cases h
  | ok a => exact ⟨a, rfl, h⟩

/-- Each round has its result in its position. -/
theorem forall₂_of_mapM_eq_ok {f : β → Except ε α} {xs : List β} {as : List α}
    (h : xs.mapM f = .ok as) : List.Forall₂ (fun x a => f x = .ok a) xs as := by
  induction xs generalizing as with
  | nil =>
    cases h
    exact .nil
  | cons x xs ih =>
    rw [List.mapM_cons] at h
    obtain ⟨a, hx, h⟩ := exists_of_ok_bind h
    obtain ⟨rest, hxs, h⟩ := exists_of_ok_bind h
    cases h
    exact .cons hx (ih hxs)

theorem exists_of_mapM_eq_ok {f : β → Except ε α} {xs : List β} {as : List α}
    (h : xs.mapM f = .ok as) : ∀ x ∈ xs, ∃ a ∈ as, f x = .ok a := by
  intro x hx
  obtain ⟨k, hk⟩ := List.mem_iff_getElem?.1 hx
  obtain ⟨a, ha, hfx⟩ := exists_of_forall₂ (forall₂_of_mapM_eq_ok h) hk
  exact ⟨a, List.mem_of_getElem? ha, hfx⟩

theorem exists_of_mem_of_mapM_eq_ok {f : β → Except ε α} {xs : List β} {as : List α}
    (h : xs.mapM f = .ok as) : ∀ a ∈ as, ∃ x ∈ xs, f x = .ok a := by
  intro a ha
  obtain ⟨k, hk⟩ := List.mem_iff_getElem?.1 ha
  obtain ⟨x, hx, hfx⟩ := exists_of_forall₂ (List.Forall₂.flip (forall₂_of_mapM_eq_ok h)) hk
  exact ⟨x, List.mem_of_getElem? hx, hfx⟩

theorem exists_mapM_eq_ok {f : β → Except ε α} {xs : List β} (h : ∀ x ∈ xs, ∃ a, f x = .ok a) :
    ∃ as, xs.mapM f = .ok as ∧ ∀ a ∈ as, ∃ x ∈ xs, f x = .ok a := by
  induction xs with
  | nil => exact ⟨[], rfl, by simp⟩
  | cons x xs ih =>
    obtain ⟨a, ha⟩ := h x (by simp)
    obtain ⟨rest, hrest, hmem⟩ := ih fun y hy => h y (List.mem_cons_of_mem x hy)
    refine ⟨a :: rest, ?_, fun b hb => ?_⟩
    · rw [List.mapM_cons, ha, hrest]
      rfl
    · rcases List.mem_cons.1 hb with rfl | hb
      · exact ⟨x, by simp, ha⟩
      · obtain ⟨y, hy, hfy⟩ := hmem b hb
        exact ⟨y, List.mem_cons_of_mem x hy, hfy⟩

/-- Rounds that agree where both succeed have the same results. -/
theorem eq_of_mapM_eq_ok {f g : β → Except ε α} {xs : List β} {as bs : List α}
    (hf : xs.mapM f = .ok as) (hg : xs.mapM g = .ok bs)
    (h : ∀ x ∈ xs, ∀ a b, f x = .ok a → g x = .ok b → a = b) : as = bs := by
  induction xs generalizing as bs with
  | nil =>
    cases hf
    cases hg
    rfl
  | cons x xs ih =>
    rw [List.mapM_cons] at hf hg
    obtain ⟨a, ha, hf⟩ := exists_of_ok_bind hf
    obtain ⟨as, has, hf⟩ := exists_of_ok_bind hf
    obtain ⟨b, hb, hg⟩ := exists_of_ok_bind hg
    obtain ⟨bs, hbs, hg⟩ := exists_of_ok_bind hg
    cases hf
    cases hg
    rw [h x List.mem_cons_self a b ha hb,
      ih has hbs fun y hy => h y (List.mem_cons_of_mem x hy)]

/-- The first result is there if the second one is, and is a part of it. -/
def Within (x y : Except FileError (List α)) : Prop :=
  ∀ bs, y = .ok bs → ∃ as, x = .ok as ∧ as ⊆ bs

namespace Within

theorem refl (x : Except FileError (List α)) : Within x x := fun bs h => ⟨bs, h, List.Subset.refl bs⟩

theorem nil (y : Except FileError (List α)) : Within (.ok []) y := fun _ _ => ⟨[], rfl, by simp⟩

/-- What follows a common first part. -/
theorem bind {x : Except FileError β} {f g : β → Except FileError (List α)}
    (h : ∀ b, Within (f b) (g b)) : Within (x >>= f) (x >>= g) := by
  cases x with
  | error => exact refl _
  | ok b => exact h b

/-- What precedes a common last part. -/
theorem bind_last {x y : Except FileError (List α)} {z : Except FileError β} (h : Within x y) :
    Within (x >>= fun as => z >>= fun _ => pure as) (y >>= fun as => z >>= fun _ => pure as) := by
  intro bs hy
  cases z with
  | error => cases y <;> cases hy
  | ok =>
    cases y with
    | error => cases hy
    | ok bs' =>
      cases hy
      obtain ⟨found, rfl, hsub⟩ := h bs rfl
      exact ⟨found, rfl, hsub⟩

theorem map {x y : Except FileError (List α)} {f : List α → List β} (h : Within x y)
    (hf : ∀ as bs, as ⊆ bs → f as ⊆ f bs) : Within (x >>= fun as => pure (f as))
      (y >>= fun bs => pure (f bs)) := by
  intro bs hy
  cases y with
  | error => cases hy
  | ok found =>
    cases hy
    obtain ⟨found', rfl, hsub⟩ := h found rfl
    exact ⟨_, rfl, hf _ _ hsub⟩

/-- Where each of the first rounds is within one of the second, so are all of them together. -/
theorem mapM {f : β → Except FileError (List α)} {g : γ → Except FileError (List α)} {xs : List β}
    {ys : List γ} (h : ∀ x ∈ xs, ∃ y ∈ ys, Within (f x) (g y)) :
    Within (xs.mapM f >>= fun found => pure found.flatten)
      (ys.mapM g >>= fun found => pure found.flatten) := by
  intro bs hys
  cases hg : ys.mapM g with
  | error e =>
    rw [hg] at hys
    cases hys
  | ok bss =>
    rw [hg] at hys
    cases hys
    have hround : ∀ x ∈ xs, ∃ as, f x = .ok as ∧ as ⊆ bss.flatten := by
      intro x hx
      obtain ⟨y, hy, hwithin⟩ := h x hx
      obtain ⟨bs, hbs, hgy⟩ := exists_of_mapM_eq_ok hg y hy
      obtain ⟨as, has, hsub⟩ := hwithin bs hgy
      exact ⟨as, has, fun a ha => List.mem_flatten.2 ⟨bs, hbs, hsub ha⟩⟩
    obtain ⟨ass, hass, hmem⟩ := exists_mapM_eq_ok fun x hx => (hround x hx).imp fun _ h => h.1
    refine ⟨ass.flatten, by rw [hass]; rfl, fun a ha => ?_⟩
    obtain ⟨as, has, ha⟩ := List.mem_flatten.1 ha
    obtain ⟨x, hx, hfx⟩ := hmem as has
    obtain ⟨as', has', hsub⟩ := hround x hx
    rw [hfx] at has'
    cases has'
    exact hsub ha

end Within

end

/-! ## Selecting paths -/

/-- From a directory of the smaller tree nothing is selected that is not selected in the grown one. -/
theorem within_select (h : t.Keeps u) (root : PathName) (directoriesOnly : Bool)
    (segments : List Segment) (pos : Position) (spelled : List String)
    (hpos : segments ≠ [] → t.entryAt pos = some .directory) :
    Within (t.select root directoriesOnly segments pos spelled)
      (u.select root directoriesOnly segments pos spelled) := by
  induction segments generalizing pos spelled with
  | nil => exact .refl _
  | cons segment rest ih =>
    replace hpos := hpos (by simp)
    -- A path is followed into an entry that is a directory in both trees, unless it ends there.
    have hnext : ∀ next spelled (b b' : Bool), (b → t.entryAt next = some .directory) → (b → b') →
        Within (if (directoriesOnly || !rest.isEmpty) && !b then .ok []
            else t.select root directoriesOnly rest next spelled)
          (if (directoriesOnly || !rest.isEmpty) && !b' then .ok []
            else u.select root directoriesOnly rest next spelled) := by
      intro next spelled b b' hb hb'
      cases hends : directoriesOnly || !rest.isEmpty with
      | false =>
        refine ih next spelled fun hne => ?_
        simp [hne] at hends
      | true =>
        cases b with
        | false => exact .nil _
        | true =>
          rw [hb' rfl]
          exact ih next spelled fun _ => hb rfl
    cases segment with
    | name text =>
      simp only [select]
      split
      · exact .refl _
      · refine Within.bind fun _ => ?_
        cases hstep : t.step pos text with
        | error obstacle =>
          cases obstacle with
          | nameTooLong =>
            rw [(step_of_keeps h).2 hstep]
            exact .refl _
          | _ => exact .nil _
        | ok next =>
          rw [(step_of_keeps h).1 next hstep]
          refine hnext next _ (t.entryAt next == some .directory) (u.entryAt next == some .directory)
            (fun hb => eq_of_beq hb) fun hb => ?_
          rw [h.directory next (eq_of_beq hb)]
          exact beq_self_eq_true _
    | wild pattern =>
      simp only [select]
      refine Within.bind fun _ => Within.mapM ?_
      rintro ⟨name, e⟩ hchild
      have he := mem_children.1 hchild
      obtain ⟨e', he', hsame⟩ := h.entry hpos he
      refine ⟨(name, e'), mem_children.2 he', ?_⟩
      have hfollow := hnext (pos ++ [name]) (spelled ++ [name]) (e == .directory) (e' == .directory)
        (fun hb => eq_of_beq hb ▸ he) fun hb => by rw [hsame.1 (eq_of_beq hb)]; exact beq_self_eq_true _
      by_cases hfits : pattern.fits name
      · simp only [if_pos hfits]
        exact hfollow
      · simp only [if_neg hfits, ite_self]
        exact .refl _
    | deep =>
      simp only [select]
      refine Within.mapM fun names hnames => ⟨names, ?_, ?_⟩
      · rcases List.mem_cons.1 hnames with rfl | hnames
        · exact List.mem_cons_self
        · obtain ⟨hne, hentry⟩ := mem_directoriesBelow.1 hnames
          exact List.mem_cons_of_mem _ (mem_directoriesBelow.2 ⟨hne, h.directory _ hentry⟩)
      · refine Within.bind_last (ih _ _ fun _ => ?_)
        rcases List.mem_cons.1 hnames with rfl | hnames
        · rw [List.append_nil]
          exact hpos
        · exact (mem_directoriesBelow.1 hnames).2

/-! ## Searching -/

theorem mem_insertPath {p q : List String} {qs : List (List String)} :
    q ∈ insertPath p qs ↔ q = p ∨ q ∈ qs := by
  induction qs with
  | nil => simp [insertPath]
  | cons r rs ih =>
    rw [insertPath]
    split
    · simp
    · split
      · next hsame => simp [hsame]
      · simp only [List.mem_cons, ih]
        tauto

theorem mem_sortPaths {q : List String} {paths : List (List String)} :
    q ∈ sortPaths paths ↔ q ∈ paths := by
  induction paths with
  | nil => simp [sortPaths]
  | cons p paths ih =>
    show q ∈ insertPath p (sortPaths paths) ↔ _
    rw [mem_insertPath, ih, List.mem_cons]

theorem within_search (h : t.Keeps u) (root : PathName) (pattern : String) :
    Within (t.search root pattern) (u.search root pattern) := by
  refine Within.bind fun parsed => ?_
  unfold isDirectory
  cases hlocate : t.locate root with
  | error obstacle =>
    cases obstacle with
    | nameTooLong =>
      rw [(locate_of_keeps h root).2 hlocate]
      exact .refl _
    | _ => exact .nil _
  | ok pos =>
    rw [(locate_of_keeps h root).1 pos hlocate]
    by_cases hpos : t.entryAt pos = some .directory
    · simp only [hpos, h.directory pos hpos]
      refine (within_select h root _ _ pos [] fun _ => hpos).map fun as bs hsub a ha => ?_
      exact mem_sortPaths.2 (hsub (mem_sortPaths.1 ha))
    · simp only [hpos, decide_false]
      exact .nil _

theorem within_visibleFiles (h : t.Keeps u) (root : PathName) (pattern : String) :
    Within (t.visibleFiles root pattern) (u.visibleFiles root pattern) :=
  (within_search h root pattern).map fun _ _ hsub =>
    List.filter_subset _ (List.map_subset _ hsub)

/-- Without excluded patterns the filter keeps every path. -/
theorem resolveFiles_eq (root : PathName) (patterns : List String) (exclude : Option (List (List String))) :
    t.resolveFiles root patterns exclude = do
      let found ← patterns.mapM (t.visibleFiles root)
      return found.map fun paths => paths.filter fun path => !isExcluded path (exclude.getD []) := by
  unfold resolveFiles
  refine bind_congr fun found => ?_
  split
  · next hnone => simp [hnone, isExcluded]
  · rfl

/-- If patterns can be resolved in the grown tree, they can be resolved before, to nothing but files
that they are resolved to in the grown tree. -/
theorem resolveFiles_of_keeps (h : t.Keeps u) {root : PathName} {patterns : List String}
    {exclude : Option (List (List String))} {files : List (List String)}
    (hu : u.resolveFiles root patterns exclude = .ok files) :
    ∃ files', t.resolveFiles root patterns exclude = .ok files' ∧ files'.flatten ⊆ files.flatten := by
  rw [resolveFiles_eq] at hu ⊢
  cases hfound : patterns.mapM (u.visibleFiles root) with
  | error e =>
    rw [hfound] at hu
    cases hu
  | ok found =>
    rw [hfound] at hu
    cases hu
    have hround : ∀ pattern ∈ patterns, ∃ paths, t.visibleFiles root pattern = .ok paths ∧
        ∃ paths' ∈ found, paths ⊆ paths' := by
      intro pattern hpattern
      obtain ⟨paths', hmem, hpaths'⟩ := exists_of_mapM_eq_ok hfound pattern hpattern
      obtain ⟨paths, hpaths, hsub⟩ := within_visibleFiles h root pattern paths' hpaths'
      exact ⟨paths, hpaths, paths', hmem, hsub⟩
    obtain ⟨found', hfound', hmem⟩ := exists_mapM_eq_ok fun x hx => (hround x hx).imp fun _ h => h.1
    refine ⟨_, by rw [hfound']; rfl, fun path hpath => ?_⟩
    obtain ⟨_, hfiltered, hpath⟩ := List.mem_flatten.1 hpath
    obtain ⟨paths, hpaths, rfl⟩ := List.mem_map.1 hfiltered
    obtain ⟨pattern, hpattern, hvisible⟩ := hmem paths hpaths
    obtain ⟨paths₁, hvisible₁, paths', hpaths', hsub⟩ := hround pattern hpattern
    rw [hvisible] at hvisible₁
    cases hvisible₁
    exact List.mem_flatten.2 ⟨_, List.mem_map_of_mem hpaths', List.filter_subset _ hsub hpath⟩

end ProjectGraph.FileTree
