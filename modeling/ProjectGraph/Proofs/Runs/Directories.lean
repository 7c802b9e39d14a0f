import ProjectGraph.ObjectId.Digest
import ProjectGraph.Proofs.Operations.Directories
import ProjectGraph.Proofs.Runs.Growth

/-! # Groups of directories in reachable projects

Whatever has been done to a project, the lookup of the group of a directory comes to an end unless the
directory is absolute. It makes what is missing on the way down to the directory, and two directories
have one group if they have one normal form. -/

namespace ProjectGraph

open PathName

section

variable [IdScheme] {p q : Project} {i : ObjectId} {directory : String}

theorem Reachable.placed (h : Reachable p) : p.Placed := by
  induction h with
  | new new =>
    obtain ⟨names, hcreate⟩ := Project.exists_create_of_ofValue new
    exact Project.placed_of_create hcreate
  | move reachable move ih =>
    exact (move.outcome reachable.wellFormed reachable.owned).1.placed reachable.wellFormed ih

namespace Project

/-- The group under this id has been looked up for a directory, and the second project is the first one
with what has been missing. -/
structure Opens (p : Project) (directory : String) (i : ObjectId) (q : Project) : Prop where
  /-- One way leads down to the group, and the names on it are the components of the normal form. -/
  way : ∀ names, q.Way names i ↔ names = (normalize directory).components
  /-- The groups of the directories on this way that had none are made. -/
  gains : p.GainsGroups (p.missing (normalize directory).components) q
  once : (p.missing (normalize directory).components).Nodup
  /-- From then on the group is the one of all directories with this normal form, and of no others. -/
  same : ∀ directory' p' j q', Moves q p' → groupForPath directory' p' = .ok j q' →
    (j = i ↔ directoryText directory' = directoryText directory)

/-- How the lookup of the group of a relative directory goes on and ends. -/
structure LooksUp (p : Project) (directory : String) : Prop where
  /-- The components are those of the text that the directory is known by. -/
  text : directoryText directory = "/".intercalate (normalize directory).components
  spells : Spells (normalize directory).components
  /-- It goes on to the directory above if there is no group, -/
  above : p.directoryGroup directory = none →
    IsAbove (Text.directoryOf (directoryText directory)) directory ∧
      groupForPath directory p = (groupForPath (Text.directoryOf (directoryText directory)) >>= fun owner =>
        makeGroup owner (normalize (Text.directoryOf (directoryText directory))).components
          (Text.baseNameOf (directoryText directory))) p
  /-- and this comes to an end. -/
  ends : Acc IsAbove directory
  /-- It fails only because of an id that is taken. -/
  fails : ∀ e q, groupForPath directory p = .error e q → ∃ j key, e = .duplicateId j key
  opens : ∀ i q, groupForPath directory p = .ok i q → p.Opens directory i q

/-- What has been looked up successfully is not absolute. -/
theorem not_isAbsolute_of_groupForPath (h : groupForPath directory p = .ok i q) :
    ¬ (normalize directory).IsAbsolute := by
  intro habsolute
  rw [groupForPath, if_pos habsolute] at h
  cases h

theorem directoryGroup_of_groupForPath (h : groupForPath directory p = .ok i q) :
    Path (DirectorySteps directory) p q ∧ q.groupAt (normalize directory).components = some i := by
  obtain ⟨hpath, hgroup⟩ := Leads.of_ok (performs_groupForPath p directory) h
  rw [directoryGroup, if_neg (not_isAbsolute_of_groupForPath h)] at hgroup
  exact ⟨hpath, hgroup⟩

theorem leads_groupForPath (hp : p.WellFormed) (hplaced : p.Placed)
    (h : ¬ (normalize directory).IsAbsolute) :
    Leads (groupForPath directory) p
      (fun _ q => p.GainsGroups (p.missing (normalize directory).components) q)
      fun e _ => ∃ j key, e = .duplicateId j key := by
  have hbelow := leads_groupBelow hp hplaced (normalize directory).components.reverse fun n hn =>
    slash_not_mem_of_mem_normalize (List.mem_reverse.1 hn)
  rw [List.reverse_reverse] at hbelow
  rw [groupForPath, if_neg h]
  exact hbelow

end Project

open Project

theorem Reachable.opens (hp : Reachable p) (h : groupForPath directory p = .ok i q) :
    p.Opens directory i q := by
  have habsolute := not_isAbsolute_of_groupForPath h
  obtain ⟨hpath, hgroup⟩ := directoryGroup_of_groupForPath h
  have hq := hpath.wellFormed hp.wellFormed
  have ho := hpath.owned hp.wellFormed hp.owned
  have hway := (hpath.placed hp.wellFormed hp.placed).way hgroup
  have hgains := (leads_groupForPath hp.wellFormed hp.placed habsolute).of_ok h
  have hmove : Move p _ (stateAfter (discard (groupForPath directory)) p) :=
    .operation (.groupForPath directory) trivial
  have hreachable : Reachable q := by
    rw [stateAfter_of_ok (discard_of_ok h)] at hmove
    exact hp.move hmove
  constructor
  case way =>
    intro names
    constructor
    · exact fun hnames => hnames.unique hq ho hway
    · rintro rfl
      exact hway
  case gains => exact hgains
  case once =>
    have hids := hq.nodup_ids
    rw [hgains.ids] at hids
    exact (List.nodup_append.1 hids).2.1.of_map _
  case same =>
    intro directory' p' j q' hmoves h'
    have habsolute' := not_isAbsolute_of_groupForPath h'
    obtain ⟨hreachable', hpath'⟩ := hreachable.moves hmoves
    obtain ⟨hlast, hgroup'⟩ := directoryGroup_of_groupForPath h'
    have hq' := hlast.wellFormed hreachable'.wellFormed
    have hgrows := hpath'.grows.trans hlast.grows
    rw [directoryText_inj habsolute' habsolute]
    constructor
    · rintro rfl
      have hway' := (hlast.placed hreachable'.wellFormed hreachable'.placed).way hgroup'
      exact hway'.unique hq' (hlast.owned hreachable'.wellFormed hreachable'.owned) (hway.grows hgrows)
    · intro heq
      rw [heq, hgrows.groupAt hgroup] at hgroup'
      exact (Option.some.inj hgroup').symm

/-- The lookup of the group of a directory whose text starts with a slash goes up without end, so it
fails, and leaves the project as it is. Any other directory is looked up. -/
theorem Reachable.looksUp (h : Reachable p) (directory : String) :
    (¬ ['/'] <+: (directoryText directory).toList → p.LooksUp directory) ∧
      (['/'] <+: (directoryText directory).toList →
        ¬ Acc IsAbove directory ∧
          groupForPath directory p = .error (.endlessDirectory directory) p) := by
  rw [← isAbsolute_iff]
  constructor
  · intro hrelative
    have hleads := leads_groupForPath h.wellFormed h.placed hrelative
    exact {
      text := directoryText_eq hrelative
      spells := spells_normalize directory
      above := groupForPath_of_none hrelative
      ends := (acc_isAbove_iff directory).2 hrelative
      fails := fun e q he => hleads.of_error he
      opens := fun i q hi => h.opens hi }
  · intro habsolute
    refine ⟨fun hacc => (acc_isAbove_iff directory).1 hacc habsolute, ?_⟩
    rw [groupForPath, if_pos habsolute]
    rfl

end

/-- Two spellings of a directory inside another one. The first lookup makes two groups, and the second
one finds the group there. -/
theorem looksUp_of_nestedDirectory :
    ∃ (p q : Project) (i : ObjectId), Reachable p ∧
      Project.groupForPath "../x" p = .ok i q ∧ q.objects.length = p.objects.length + 2 ∧
      p.Opens "../x" i q ∧ Project.groupForPath "./..//x/y/.." q = .ok i q ∧
      Project.groupForPath "//x" p = .error (.endlessDirectory "//x") p := by
  have hfound : (Project.ofValue "App" (.text "Debug")).toOption.any fun p =>
      let q := stateAfter (Project.groupForPath "../x") p
      failureOf (Project.groupForPath "../x") p = none ∧ q.objects.length = p.objects.length + 2 := by
    decide +kernel
  obtain ⟨p, hnew, hp⟩ := Project.exists_of_ofValue hfound
  obtain ⟨hsucceeds, hlength⟩ := of_decide_eq_true hp
  obtain ⟨i, hi⟩ := exists_of_failureOf_eq_none hsucceeds
  have hreachable : Reachable p := .new hnew
  obtain ⟨hrelative, -⟩ := hreachable.looksUp "../x"
  obtain ⟨-, habsolute⟩ := hreachable.looksUp "//x"
  have hopens := (hrelative (by decide)).opens i _ hi
  have hgroup := (Project.directoryGroup_of_groupForPath hi).2
  refine ⟨p, _, i, hreachable, hi, hlength, hopens, ?_, (habsolute (by decide)).2⟩
  apply Project.groupForPath_of_directoryGroup
  rw [Project.directoryGroup, if_neg (by decide)]
  exact hgroup

end ProjectGraph
