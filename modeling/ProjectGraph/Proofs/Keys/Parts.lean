import ProjectGraph.Project.Create
import ProjectGraph.Proofs.Keys.Classes
import ProjectGraph.Proofs.Operations.Groups

/-! # The parts of a key

What identifies a content can be read off its key: the name of a target, the path of a file, the target
and the place of a phase, the file, target and phase of a build file, and the directory of a group. -/

namespace ProjectGraph

namespace PhaseKind

theorem colon_not_mem_name (kind : PhaseKind) : ':' ∉ kind.name.toList := by
  cases kind <;> decide

theorem name_injective {kind kind' : PhaseKind} (h : kind.name = kind'.name) : kind = kind' := by
  cases kind <;> cases kind' <;> first | rfl | exact absurd h (by decide)

end PhaseKind

/-! ## Slots of scripts -/

/-- A slot that builds give a script: one of a stage, or the one for copying frameworks. -/
def IsBuildSlot (slot : String) : Prop :=
  slot = copyFrameworksSlot ∨
    ∃ stage index, (stage = Stage.pre ∨ stage = Stage.post) ∧ slot = scriptSlot stage index

theorem colon_not_mem_copyFrameworksSlot : ':' ∉ copyFrameworksSlot.toList := by
  decide

theorem colon_not_mem_stage {stage : Stage} (h : stage = .pre ∨ stage = .post) :
    ':' ∉ stage.name.toList := by
  rcases h with rfl | rfl <;> decide

theorem colon_not_mem_index (index : Nat) : ':' ∉ (toString index).toList := by
  intro h
  change ':' ∈ (Nat.repr index).toList at h
  rw [Nat.toList_repr] at h
  have hdigit : (':').isDigit := Nat.isDigit_of_mem_toDigits (by decide) (by decide) h
  exact absurd hdigit (by decide)

theorem index_ne_copyFrameworksSlot (index : Nat) : toString index ≠ copyFrameworksSlot := by
  intro h
  have hmem : 'c' ∈ (toString index).toList := by
    rw [h]
    decide
  change 'c' ∈ (Nat.repr index).toList at hmem
  rw [Nat.toList_repr] at hmem
  have hdigit : ('c').isDigit := Nat.isDigit_of_mem_toDigits (by decide) (by decide) hmem
  exact absurd hdigit (by decide)

/-- A target and the slot of a build can be told from both together, whatever the target's name is. -/
theorem slot_inj {t t' slot slot' : String} (hs : IsBuildSlot slot) (hs' : IsBuildSlot slot')
    (h : t ++ ":" ++ slot = t' ++ ":" ++ slot') : t = t' ∧ slot = slot' := by
  have hstage : ∀ (t : String) (stage : Stage) (index : Nat),
      t ++ ":" ++ scriptSlot stage index = (t ++ ":" ++ stage.name) ++ ":" ++ toString index := by
    intro t stage index
    rw [scriptSlot]
    simp only [String.append_assoc]
  rcases hs with rfl | ⟨stage, index, hst, rfl⟩ <;> rcases hs' with rfl | ⟨stage', index', hst', rfl⟩
  · exact Text.after_colon_inj colon_not_mem_copyFrameworksSlot colon_not_mem_copyFrameworksSlot h
  · rw [hstage] at h
    have hlast := Text.after_colon_inj colon_not_mem_copyFrameworksSlot (colon_not_mem_index _) h
    exact absurd hlast.2.symm (index_ne_copyFrameworksSlot index')
  · rw [hstage] at h
    have hlast := Text.after_colon_inj (colon_not_mem_index _) colon_not_mem_copyFrameworksSlot h
    exact absurd hlast.2 (index_ne_copyFrameworksSlot index)
  · rw [hstage, hstage] at h
    obtain ⟨hrest, hindex⟩ := Text.after_colon_inj (colon_not_mem_index _) (colon_not_mem_index _) h
    obtain ⟨rfl, hname⟩ := Text.after_colon_inj (colon_not_mem_stage hst) (colon_not_mem_stage hst') hrest
    exact ⟨rfl, by rw [scriptSlot, scriptSlot, hname, hindex]⟩

/-! ## Groups of directories -/

namespace Project

/-- The rest of the key of the group of a directory. -/
theorem toList_keyRest_newGroup (above : List String) (name : String) :
    (Content.group (newGroup above name)).keyRest.toList =
      name.toList ++ ":path:".toList ++ (leadingText above ++ name.toList) := by
  have hne : "path:" ++ (⟨0, above ++ [name]⟩ : PathName).text ≠ "" := by
    intro h
    have hlist := congrArg String.toList h
    simp at hlist
  have hdistinction : Group.distinction none (some ("path:" ++ (⟨0, above ++ [name]⟩ : PathName).text)) =
      some ("path:" ++ (⟨0, above ++ [name]⟩ : PathName).text) := by
    simp [Group.distinction, hne]
  unfold Content.keyRest newGroup
  simp only [hdistinction, Option.map_some, Option.getD_some, String.toList_append,
    toList_text_directory, List.append_assoc]
  rfl

/-- A directory can be told from the key of its group. -/
theorem directory_inj {above above' : List String} {name name' : String}
    (h : ∀ n ∈ above ++ [name], '/' ∉ n.toList) (h' : ∀ n ∈ above' ++ [name'], '/' ∉ n.toList)
    (heq : (Content.group (newGroup above name)).keyRest =
      (Content.group (newGroup above' name')).keyRest) : above ++ [name] = above' ++ [name'] := by
  have hname := h name (by simp)
  have hname' := h' name' (by simp)
  have hlist := congrArg String.toList heq
  rw [toList_keyRest_newGroup, toList_keyRest_newGroup] at hlist
  -- The name comes after the last slash, or there is no slash at all.
  have hsame : name.toList = name'.toList := by
    rcases leadingText_cases above with rfl | ⟨cs, hcs⟩ <;>
      rcases leadingText_cases above' with rfl | ⟨cs', hcs'⟩
    · have hlength := congrArg List.length hlist
      simp only [leadingText, List.map_nil, List.flatMap_nil, List.nil_append, List.length_append]
        at hlength
      rw [List.append_assoc, List.append_assoc] at hlist
      exact (List.append_inj hlist (by omega)).1
    · have hmem : '/' ∈ name.toList ++ ":path:".toList ++ (leadingText [] ++ name.toList) := by
        rw [hlist, hcs']
        simp
      simp [leadingText, hname] at hmem
    · have hmem : '/' ∈ name'.toList ++ ":path:".toList ++ (leadingText [] ++ name'.toList) := by
        rw [← hlist, hcs]
        simp
      simp [leadingText, hname'] at hmem
    · have hends : ∀ start cs last : List Char,
          start ++ (cs ++ ['/'] ++ last) = (start ++ cs) ++ '/' :: last := by simp
      rw [hcs, hcs', hends, hends] at hlist
      exact (Text.last_part_inj hname hname' hlist).2
  rw [← hsame] at hlist
  have habove := List.append_cancel_right (List.append_cancel_left hlist)
  rw [leadingText_inj (fun n hn => h n (by simp [hn])) (fun n hn => h' n (by simp [hn])) habove,
    String.toList_injective hsame]

/-- The groups of a new project have other keys than groups of directories. -/
theorem keyRest_newGroup_ne [IdScheme] (above : List String) (name : String) :
    (Content.group (newGroup above name)).keyRest ≠ (Content.group newMainGroup).keyRest ∧
      (Content.group (newGroup above name)).keyRest ≠ (Content.group newProductsGroup).keyRest := by
  have hcolons : 2 ≤ (Content.group (newGroup above name)).keyRest.toList.count ':' := by
    rw [toList_keyRest_newGroup, List.count_append, List.count_append]
    have hpath : (":path:".toList).count ':' = 2 := by decide
    omega
  have hmain : (Content.group newMainGroup).keyRest = ":main" := rfl
  have hproducts : (Content.group newProductsGroup).keyRest = "Products:products" := rfl
  constructor
  · intro h
    rw [h, hmain] at hcolons
    exact absurd hcolons (by decide)
  · intro h
    rw [h, hproducts] at hcolons
    exact absurd hcolons (by decide)

end Project

/-! ## Contents with one key -/

namespace Content

variable {c : Content}

theorem exists_of_key_eq_target {t : NativeTarget} (h : c.key = (target t).key) :
    ∃ t', c = target t' ∧ t'.name = t.name := by
  obtain ⟨hclass, hrest⟩ := objectClass_eq_of_key_eq h
  cases c with
  | target t' => exact ⟨t', rfl, hrest⟩
  | _ => cases hclass

theorem exists_of_key_eq_group {g : Group} (h : c.key = (group g).key) :
    ∃ g', c = group g' ∧ (group g').keyRest = (group g).keyRest := by
  obtain ⟨hclass, hrest⟩ := objectClass_eq_of_key_eq h
  cases c with
  | group g' => exact ⟨g', rfl, hrest⟩
  | _ => cases hclass

theorem exists_of_key_eq_file {f : FileReference} (h : c.key = (file f).key) :
    ∃ f', c = file f' ∧ f'.sourceTree = f.sourceTree ∧ f'.path = f.path := by
  have hcolon : ∀ f : FileReference, ':' ∉ f.sourceTree.toList := by
    intro f
    cases f with
    | source => exact (by decide : ':' ∉ "SOURCE_ROOT".toList)
    | product => exact (by decide : ':' ∉ "BUILT_PRODUCTS_DIR".toList)
  obtain ⟨hclass, hrest⟩ := objectClass_eq_of_key_eq h
  cases c with
  | file f' =>
    obtain ⟨htree, hpath⟩ := Text.before_colon_inj (hcolon f') (hcolon f) hrest
    exact ⟨f', rfl, htree, hpath⟩
  | _ => cases hclass

theorem exists_of_key_eq_buildFile {f : BuildFile} (hf : ':' ∉ f.file.id.text.toList)
    (hc : ∀ b, c = buildFile b → ':' ∉ b.file.id.text.toList) (h : c.key = (buildFile f).key) :
    ∃ b, c = buildFile b ∧ b.file.id = f.file.id ∧ b.target = f.target ∧ b.phase = f.phase := by
  obtain ⟨hclass, hrest⟩ := objectClass_eq_of_key_eq h
  cases c with
  | buildFile b =>
    obtain ⟨hid, hrest⟩ := Text.before_colon_inj (hc b rfl) hf hrest
    obtain ⟨htarget, hname⟩ := Text.after_colon_inj b.phase.colon_not_mem_name
      f.phase.colon_not_mem_name hrest
    exact ⟨b, rfl, congrArg ObjectId.mk hid, htarget, PhaseKind.name_injective hname⟩
  | _ => cases hclass

/-- The slots of scripts have to be slots of builds. -/
theorem exists_of_key_eq_phase {p : BuildPhase} (hp : ∀ slot, p.role.place = .inr slot → IsBuildSlot slot)
    (hc : ∀ q slot, c = phase q → q.role.place = .inr slot → IsBuildSlot slot)
    (h : c.key = (phase p).key) :
    ∃ q, c = phase q ∧ q.target = p.target ∧ q.role.place = p.role.place := by
  obtain ⟨hclass, hrest⟩ := objectClass_eq_of_key_eq h
  obtain ⟨target, role, files⟩ := p
  cases c with
  | phase q =>
    refine ⟨q, rfl, ?_⟩
    obtain ⟨target', role', files'⟩ := q
    cases role with
    | files kind =>
      cases role' with
      | files kind' =>
        cases hclass
        exact ⟨hrest, rfl⟩
      | script => cases hclass
    | script slot script =>
      cases role' with
      | files kind' => cases hclass
      | script slot' script' =>
        obtain ⟨htarget, hslot⟩ := slot_inj (hc _ slot' rfl rfl) (hp slot rfl) hrest
        exact ⟨htarget, congrArg Sum.inr hslot⟩
  | _ => cases hclass

theorem exists_of_key_eq_filesPhase {p : BuildPhase} {kind : PhaseKind} (hrole : p.role = .files kind)
    (h : c.key = (phase p).key) : ∃ q, c = phase q ∧ q.target = p.target ∧ q.role = .files kind := by
  obtain ⟨hclass, hrest⟩ := objectClass_eq_of_key_eq h
  obtain ⟨target, role, files⟩ := p
  cases hrole
  cases c with
  | phase q =>
    obtain ⟨target', role', files'⟩ := q
    cases role' with
    | files kind' =>
      cases hclass
      exact ⟨_, rfl, hrest, rfl⟩
    | script => cases hclass
  | _ => cases hclass

end Content
end ProjectGraph
