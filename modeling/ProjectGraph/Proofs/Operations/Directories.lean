import Mathlib.Data.List.Infix
import ProjectGraph.Proofs.Ownership.Ways

/-! # Making the groups of directories

Looking up the group of a directory makes the groups of the directory and of those above it that are
missing, each at the end of the group above it, and changes nothing else. While a group is missing, the
lookup goes on to the directory above. -/

namespace ProjectGraph

/-! ## Groups without what is in them -/

/-- The content without what is in it. -/
def Content.bare : Content → Content
  | group g => group g.bare
  | c => c

theorem Content.bare_append_child (c : Content) (r : Reference) :
    (c.append .child r).bare = c.bare := by
  cases c <;> rfl

/-- The group of a directory, as a part of the group above it. -/
def directoryPart (directory : List String) : Part :=
  .group directory.dropLast (directory.getLastD "")

@[simp] theorem directoryPart_append (above : List String) (name : String) :
    directoryPart (above ++ [name]) = .group above name := by
  simp [directoryPart]

namespace Step

variable [IdScheme] {p : Project} {owner : ObjectId} {above : List String} {name : String}

theorem bare_reviseContent (i : ObjectId) (c : Content) :
    (reviseContent (.attach owner (.group above name)) i c).bare = c.bare := by
  rw [reviseContent]
  split
  · exact Content.bare_append_child c _
  · rfl

theorem attached_revise_group (o : Object) :
    (revise (.attach owner (.group above name)) o).attached = o.attached := by
  rw [revise, Object.updateAt]
  split <;> rfl

theorem groupAt_apply_group (directory : List String) :
    ((attach owner (.group above name)).apply p).groupAt directory =
      if directory = above ++ [name] then some (Part.group above name).content.id
      else p.groupAt directory := by
  unfold Project.groupAt
  show (if directory = [] then some p.mainGroup
    else (p.directories.insert (above ++ [name]) _).get? directory) = _
  by_cases hempty : directory = []
  · simp [hempty]
  · rw [if_neg hempty, if_neg hempty, Table.get?_insert]
    simp only [eq_comm]

end Step

namespace Project

variable [IdScheme] {p q : Project} {i owner : ObjectId} {above : List String} {name directory : String}

/-! ## What is made -/

/-- The directories on the way down to this one that have no group. -/
def missing (p : Project) (directory : List String) : List (List String) :=
  directory.inits.filter fun d => (p.groupAt d).isNone

omit [IdScheme] in
theorem missing_append (h : p.groupAt (above ++ [name]) = none) :
    p.missing (above ++ [name]) = p.missing above ++ [above ++ [name]] := by
  have hinits : (above ++ [name]).inits = above.inits ++ [above ++ [name]] := by
    simp [List.inits_append]
  rw [missing, hinits, List.filter_append, List.filter_singleton, h]
  rfl

/-- Above a directory with a group nothing is missing. -/
theorem missing_of_groupAt {directory : List String} (h : p.Placed)
    (hi : p.groupAt directory = some i) : p.missing directory = [] := by
  refine List.filter_eq_nil_iff.2 fun d hd => ?_
  obtain ⟨j, hj⟩ := h.exists_groupAt hi ((List.mem_inits _ _).1 hd)
  simp [hj]

/-- The second project is the first one together with the groups of these directories. -/
structure GainsGroups (p : Project) (directories : List (List String)) (q : Project) : Prop where
  /-- They are registered in order, and nothing else is. -/
  ids : q.objects.map Object.id =
    p.objects.map Object.id ++ directories.map fun d => (directoryPart d).content.id
  made : ∀ d ∈ directories, ∃ c, q.content? (directoryPart d).content.id = some c ∧
    c.bare = (directoryPart d).content
  /-- Each of them is put once at the end of the group above it, and nothing else is. -/
  children : ∀ j, q.childrenOf j = p.childrenOf j ++
    (directories.filter fun d => q.groupAt d.dropLast = some j).map fun d => (directoryPart d).reference
  above : ∀ d ∈ directories, (q.groupAt d.dropLast).isSome
  groupAt : ∀ d, q.groupAt d =
    if d ∈ directories then some (directoryPart d).content.id else p.groupAt d
  /-- But for what groups have been put into, the objects are the same. -/
  kept : ∀ o ∈ p.objects, ∃ o', q.find? o.id = some o' ∧ o'.content.bare = o.content.bare ∧
    o'.attached = o.attached
  rest : q = { p with objects := q.objects, directories := q.directories }

namespace GainsGroups

variable {directories : List (List String)}

theorem refl (hp : p.WellFormed) : p.GainsGroups [] p where
  ids := (List.append_nil _).symm
  made := by simp
  children j := (List.append_nil _).symm
  above := by simp
  groupAt d := by simp
  kept o ho := ⟨o, find?_of_mem hp.nodup_ids ho, rfl, rfl⟩
  rest := rfl

/-- Another group is made in the group above it. -/
theorem apply (h : p.GainsGroups directories q) (hq : q.WellFormed)
    (hd : (Step.attach owner (.group above name)).Due q)
    (hf : (Step.attach owner (.group above name)).Fresh q) :
    p.GainsGroups (directories ++ [above ++ [name]])
      ((Step.attach owner (.group above name)).apply q) := by
  have hparent : q.groupAt above = some owner := by
    cases hd with
    | group parent => exact parent
  have hgrow := Step.grows_apply hd
  -- The groups above the directories were there before.
  have habove : ∀ d ∈ directories,
      ((Step.attach owner (.group above name)).apply q).groupAt d.dropLast = q.groupAt d.dropLast := by
    intro d hmem
    obtain ⟨j, hj⟩ := Option.isSome_iff_exists.1 (h.above d hmem)
    rw [hj, hgrow.groupAt hj]
  have hlast : ((Step.attach owner (.group above name)).apply q).groupAt
      (above ++ [name]).dropLast = some owner := by
    rw [List.dropLast_concat, hgrow.groupAt hparent]
  constructor
  case ids =>
    rw [Step.ids_apply, h.ids, List.map_append, ← List.append_assoc, List.map_singleton,
      directoryPart_append]
    rfl
  case made =>
    intro d hmem
    rcases List.mem_append.1 hmem with hmem | hmem
    · obtain ⟨c, hc, hbare⟩ := h.made d hmem
      exact ⟨_, Step.content?_apply_of_some hc, (Step.bare_reviseContent _ c).trans hbare⟩
    · rw [List.mem_singleton.1 hmem, directoryPart_append]
      exact ⟨_, Step.content?_apply_new hq hd hf rfl, rfl⟩
  case children =>
    intro j
    have hold : (directories.filter fun d =>
        ((Step.attach owner (.group above name)).apply q).groupAt d.dropLast = some j) =
        directories.filter fun d => q.groupAt d.dropLast = some j :=
      List.filter_congr fun d hmem => by rw [habove d hmem]
    have hnew : ([above ++ [name]].filter fun d =>
        ((Step.attach owner (.group above name)).apply q).groupAt d.dropLast = some j).map
          (fun d => (directoryPart d).reference) =
        (Step.attach owner (.group above name)).newChildren j := by
      rw [List.filter_singleton, hlast, Step.newChildren]
      by_cases howner : owner = j
      · simp [howner, Part.home]
      · simp [howner]
    rw [Step.childrenOf_apply hq hd hf, h.children, List.filter_append, List.map_append, hold, hnew,
      List.append_assoc]
  case above =>
    intro d hmem
    rcases List.mem_append.1 hmem with hmem | hmem
    · rw [habove d hmem]
      exact h.above d hmem
    · rw [List.mem_singleton.1 hmem, hlast]
      rfl
  case groupAt =>
    intro d
    rw [Step.groupAt_apply_group, h.groupAt]
    by_cases hlast : d = above ++ [name]
    · simp [hlast]
    · simp [hlast]
  case kept =>
    intro o ho
    obtain ⟨o', ho', hbare, hattached⟩ := h.kept o ho
    have hmem : Step.revise (.attach owner (.group above name)) o' ∈
        ((Step.attach owner (.group above name)).apply q).objects :=
      List.mem_map_of_mem (List.mem_append_left _ (List.mem_of_find?_eq_some ho'))
    have hid : (Step.revise (.attach owner (.group above name)) o').id = o.id :=
      (Step.id_revise _ o').trans (id_of_find? ho')
    refine ⟨_, hid ▸ find?_of_mem (Step.nodup_ids_apply hq hf) hmem, ?_, ?_⟩
    · rw [Step.content_revise, Step.bare_reviseContent, hbare]
    · rw [Step.attached_revise_group, hattached]
  case rest =>
    have hstep : (Step.attach owner (.group above name)).apply q =
        { q with
          objects := ((Step.attach owner (.group above name)).apply q).objects
          directories := ((Step.attach owner (.group above name)).apply q).directories } := by
      rw [Step.apply, hq.detached, List.map_nil]
    exact hstep.trans (congrArg (fun r : Project => { r with
      objects := ((Step.attach owner (.group above name)).apply q).objects
      directories := ((Step.attach owner (.group above name)).apply q).directories }) h.rest)

end GainsGroups

/-! ## Making a group -/

/-- Making a group takes one step, unless its id is taken. -/
theorem leads_makeGroup (hparent : p.groupAt above = some owner)
    (habsent : p.directories.get? (above ++ [name]) = none)
    (hproper : ∀ n ∈ above ++ [name], '/' ∉ n.toList) :
    Leads (makeGroup owner above name) p
      (fun _ q => (Step.attach owner (.group above name)).Due p ∧
        (Step.attach owner (.group above name)).Fresh p ∧
        q = (Step.attach owner (.group above name)).apply p)
      fun e _ => ∃ i key, e = .duplicateId i key := by
  by_cases hfree : p.content? (Content.group (newGroup above name)).id = none
  · refine .of_eq_ok (bind_of_ok (register_of_free hfree)) ⟨.group hparent habsent hproper, ?_, rfl⟩
    rintro c ⟨⟩
    exact hfree
  · exact .of_eq_error (bind_of_error (register_of_taken hfree)) ⟨_, _, rfl⟩

theorem leads_groupBelow (hp : p.WellFormed) (hplaced : p.Placed) (components : List String)
    (hproper : ∀ n ∈ components, '/' ∉ n.toList) :
    Leads (groupBelow components) p
      (fun _ q => p.GainsGroups (p.missing components.reverse) q)
      fun e _ => ∃ i key, e = .duplicateId i key := by
  have hpresent : ∀ {names : List String} {i}, p.groupAt names.reverse = some i →
      Leads (groupBelow names) p (fun _ q => p.GainsGroups (p.missing names.reverse) q)
        fun e _ => ∃ i key, e = .duplicateId i key := by
    intro names i hi
    refine .of_eq_ok (groupBelow_of_groupAt hi) ?_
    rw [missing_of_groupAt hplaced hi]
    exact .refl hp
  induction components with
  | nil => exact hpresent (i := p.mainGroup) rfl
  | cons name above ih =>
    cases hget : p.groupAt (name :: above).reverse with
    | some i => exact hpresent hget
    | none =>
      rw [List.reverse_cons] at hget ⊢
      have habsent := (groupAt_append p _ _).symm.trans hget
      have hnames : ∀ n ∈ above, '/' ∉ n.toList := fun n hn => hproper n (List.mem_cons_of_mem name hn)
      have habove := (Leads.and (performs_groupBelow (p := p) above hnames) (ih hnames)).mono
        (fun _ _ h => h) fun _ _ h => h.2
      refine .congr (groupBelow_of_none habsent) (habove.bind ?_)
      rintro owner q ⟨⟨hpath, howner⟩, hgains⟩
      refine (leads_makeGroup howner (get?_directories_of_groupSteps hpath habsent) fun n hn =>
        hproper n (by simpa [or_comm] using hn)).mono ?_ fun _ _ h => h
      rintro - r ⟨hdue, hfresh, rfl⟩
      rw [missing_append hget]
      exact hgains.apply (hpath.wellFormed hp) hdue hfresh

/-! ## From a directory to the one above -/

open PathName in
/-- The group of a directory is looked up in the group of the directory above. The lookup goes on there
unless the directory has its group already. -/
theorem groupForPath_of_none {directory : String} (h : ¬ (normalize directory).IsAbsolute)
    (hnone : p.directoryGroup directory = none) :
    IsAbove (Text.directoryOf (directoryText directory)) directory ∧
      groupForPath directory p = (groupForPath (Text.directoryOf (directoryText directory)) >>= fun owner =>
        makeGroup owner (normalize (Text.directoryOf (directoryText directory))).components
          (Text.baseNameOf (directoryText directory))) p := by
  have hgroup : p.groupAt (normalize directory).components = none := by
    rw [directoryGroup] at hnone
    simpa [h] using hnone
  rcases normalize_cases h with ⟨hn, -⟩ | ⟨above, name, hn, hspells, hd⟩
  · rw [hn] at hgroup
    cases hgroup
  · have hne : directoryText directory ≠ "" := by
      rw [Ne, directoryText_eq_empty_iff h, hn]
      simp
    have habove : normalize (Text.directoryOf (directoryText directory)) = ⟨0, above⟩ := by
      rw [normalize_directoryOf h hne, hn, PathName.parent, List.dropLast_concat]
    have hname : Text.baseNameOf (directoryText directory) = name := by
      rw [hd, baseNameOf_text_directory hspells]
    refine ⟨⟨hne, rfl⟩, ?_⟩
    rw [hn, groupAt_append, ← List.reverse_reverse above] at hgroup
    have hbelow := groupBelow_of_none hgroup
    rw [groupForPath, if_neg h, hn, groupForPath, habove, hname, if_neg (by simp [IsAbsolute])]
    simpa using hbelow

end Project
end ProjectGraph
