import ProjectGraph.Proofs.Keys.Fresh
import ProjectGraph.Proofs.Runs.Reachable

/-! # Clashes of ids

A run looks for an object before it makes one, and makes it with a key that no registered object has.
So if ids tell keys apart, a run can only find an id taken that is meant for a configuration or for a
list of configurations. -/

namespace ProjectGraph

/-! ## Orderly runs -/

section

variable [IdScheme] {p q : Project} {s : Step} {ds : List Declaration}

theorem InRun.orderly (h : InRun ds q s) : s.Orderly q := by
  obtain ⟨d, -, ⟨e, -, h⟩ | h⟩ := h
  · exact h.orderly
  · exact Step.orderly_of_schemeSteps h

/-- Runs of generators lead to the project from a new one, whether they have failed or not. -/
inductive RunReachable : Project → Prop
  | new {name value p} (new : Project.ofValue name value = .ok p) : RunReachable p
  | run {w : Workspace} (reachable : RunReachable w.project) (g : Generator) (ds : List Declaration) :
      RunReachable (stateAfter (g.run ds) w).project

theorem Project.findable_of_ofValue {name : String} {value : Value}
    (h : Project.ofValue name value = .ok p) : p.Findable := by
  obtain ⟨names, h⟩ := Project.exists_create_of_ofValue h
  exact findable_of_create h

namespace RunReachable

theorem reachable (h : RunReachable p) : Reachable p := by
  induction h with
  | new new => exact .new new
  | @run w _ g ds ih => exact .move ih (.run w g ds)

theorem findable (h : RunReachable p) : p.Findable := by
  induction h with
  | new new => exact Project.findable_of_ofValue new
  | @run w h g ds ih =>
    have hp := h.reachable.wellFormed
    obtain ⟨hpath, -⟩ := (Generator.performs_run hp h.reachable.owned g ds).outcome
    exact (hpath.mono fun _ _ => InRun.orderly).findable hp ih

end RunReachable

/-! ## Runs without clashes -/

/-- A run finds no id taken, unless it is one of a configuration or of a list of configurations. -/
structure Generator.ClashFree (g : Generator) (ds : List Declaration) (w : Workspace) : Prop where
  /-- The run goes through projects in steps that are due. -/
  path : Path (InRun ds) w.project (stateAfter (g.run ds) w).project
  /-- What a step of the run registers has a key of its own. -/
  key_ne : ∀ q s c, Path (InRun ds) w.project q → s.Due q → InRun ds q s → s.new? = some c →
    ¬ c.IsConfigurational → ∀ o ∈ q.objects, o.content.key ≠ c.key
  /-- If the run fails because of a taken id, that is the id of a configuration or of a list. -/
  taken : ∀ i key, failureOf (g.run ds) w = some (.duplicateId i key) →
    (∃ c : Content, c.IsConfigurational ∧ i = c.id ∧ key = c.key) ∧
      ∀ c : Content, key = c.key → c.IsConfigurational

theorem RunReachable.clashFree {w : Workspace} (hinj : Function.Injective IdScheme.ofKey)
    (h : RunReachable w.project) (g : Generator) (ds : List Declaration) : g.ClashFree ds w := by
  have hp := h.reachable.wellFormed
  have ho := h.reachable.owned
  obtain ⟨hpath, hfails⟩ := (Generator.performs_run hp ho g ds).outcome
  have hkey : ∀ q s c, Path (InRun ds) w.project q → s.Due q → InRun ds q s → s.new? = some c →
      ¬ c.IsConfigurational → ∀ i d, q.content? i = some d → d.key ≠ c.key := by
    intro q s c hq hdue hs hnew hc i d hd
    have hfind := (hq.mono fun _ _ => InRun.orderly).findable hp h.findable
    exact Step.key_ne_of_due (hq.wellFormed hp) (hq.owned hp ho) hfind hdue hs.orderly hnew hc hd
  refine ⟨hpath, ?_, ?_⟩
  · intro q s c hq hdue hs hnew hc o hmem
    have hd := Project.content?_of_mem (hq.wellFormed hp).nodup_ids hmem
    exact hkey q s c hq hdue hs hnew hc o.id o.content hd
  · intro i key hfailure
    cases hfails _ hfailure with
    | @clash s c due allowed new taken =>
      have hc : c.IsConfigurational := by
        by_contra hc
        obtain ⟨d, hd⟩ := Option.ne_none_iff_exists'.1 taken
        -- The object that has the id has the key, too.
        have hid := (hpath.wellFormed hp).id_eq _ d hd
        exact hkey _ s c hpath due allowed new hc c.id d hd (hinj hid).symm
      exact ⟨⟨c, hc, rfl, rfl⟩, fun d hd => hc.of_key_eq hd⟩
    | outer outer => cases outer

end

/-! ## Ids that spell their keys -/

/-- A character spelled with two characters, of which none is a colon. -/
def spelledChar (c : Char) : List Char := if c = ':' then ['.', '.'] else ['-', c]

theorem colon_not_mem_spelledChar (c : Char) : ':' ∉ spelledChar c := by
  unfold spelledChar
  split
  · decide
  · next hc => simpa using Ne.symm hc

theorem spelledChar_injective {c c' : Char} (h : spelledChar c = spelledChar c') : c = c' := by
  unfold spelledChar at h
  split at h
  · next hc =>
    split at h
    · next hc' => rw [hc, hc']
    · cases h
  · split at h
    · cases h
    · cases h
      rfl

theorem length_spelledChar (c : Char) : (spelledChar c).length = 2 := by
  unfold spelledChar
  split <;> rfl

theorem flatMap_spelledChar_injective {cs cs' : List Char}
    (h : cs.flatMap spelledChar = cs'.flatMap spelledChar) : cs = cs' := by
  induction cs generalizing cs' with
  | nil =>
    cases cs' with
    | nil => rfl
    | cons c' cs' =>
      have hlength := congrArg List.length h
      simp only [List.flatMap_cons, List.flatMap_nil, List.length_nil, List.length_append,
        length_spelledChar] at hlength
      omega
  | cons c cs ih =>
    cases cs' with
    | nil =>
      have hlength := congrArg List.length h
      simp only [List.flatMap_cons, List.flatMap_nil, List.length_nil, List.length_append,
        length_spelledChar] at hlength
      omega
    | cons c' cs' =>
      rw [List.flatMap_cons, List.flatMap_cons] at h
      obtain ⟨hfirst, hrest⟩ := List.append_inj h (by rw [length_spelledChar, length_spelledChar])
      rw [spelledChar_injective hfirst, ih hrest]

/-- Ids that spell their keys tell them apart. -/
@[reducible]
def spelledScheme : IdScheme where
  ofKey key := ⟨String.ofList (key.toList.flatMap spelledChar)⟩
  colonFree key := by
    intro h
    rw [String.toList_ofList, List.mem_flatMap] at h
    obtain ⟨c, -, hc⟩ := h
    exact colon_not_mem_spelledChar c hc

theorem ofKey_spelledScheme_injective : Function.Injective spelledScheme.ofKey := by
  intro key key' h
  have hlist : (String.ofList (key.toList.flatMap spelledChar)).toList =
      (String.ofList (key'.toList.flatMap spelledChar)).toList := congrArg (fun i => i.text.toList) h
  rw [String.toList_ofList, String.toList_ofList] at hlist
  exact String.toList_injective (flatMap_spelledChar_injective hlist)

/-- A framework with the name by which the project's own configurations go. -/
def frameworkNamedProject : Declaration where
  target :=
    { name := "PROJECT"
      platforms := [{ kind := .macos, minimumVersion := "10.14" }]
      language := { kind := .swift, version := "5" }
      infoPlist := "App/Info.plist"
      bundleId := "app"
      platforms_nodup := List.nodup_singleton _ }

/-- The framework makes a run clash, in nothing but its configurations. -/
theorem clashFree_of_frameworkNamedProject :
    ∃ p : Project, @Project.ofValue spelledScheme "App" (.text "Debug") = .ok p ∧
      (∃ i, failureOf (@Generator.run spelledScheme ⟨".", none⟩ [frameworkNamedProject])
        ⟨p, .withHome [], []⟩ = some (.duplicateId i "XCBuildConfiguration:PROJECT:Debug")) ∧
      @Generator.ClashFree spelledScheme ⟨".", none⟩ [frameworkNamedProject]
        ⟨p, .withHome [], []⟩ := by
  let key := "XCBuildConfiguration:PROJECT:Debug"
  have hclash : (@Project.ofValue spelledScheme "App" (.text "Debug")).toOption.any fun p =>
      failureOf (@Generator.run spelledScheme ⟨".", none⟩ [frameworkNamedProject])
        ⟨p, .withHome [], []⟩ = some (.duplicateId (spelledScheme.ofKey key) key) := by
    decide +kernel
  obtain ⟨p, hnew, hp⟩ := @Project.exists_of_ofValue spelledScheme _ _ _ hclash
  have hfree := @RunReachable.clashFree spelledScheme ⟨p, .withHome [], []⟩
    ofKey_spelledScheme_injective (@RunReachable.new spelledScheme _ _ p hnew) ⟨".", none⟩
    [frameworkNamedProject]
  exact ⟨p, hnew, ⟨_, of_decide_eq_true hp⟩, hfree⟩

end ProjectGraph
