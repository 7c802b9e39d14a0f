import ProjectGraph.Proofs.Operations.Phases

/-! # Script phases of a target -/

namespace ProjectGraph

/-! ## Slots -/

theorem toList_scriptSlot (stage : Stage) (index : Nat) :
    (scriptSlot stage index).toList = stage.name.toList ++ ':' :: Nat.toDigits 10 index := by
  show (stage.name ++ ":" ++ Nat.repr index).toList = _
  rw [String.toList_append, String.toList_append, Nat.toList_repr]
  simp

theorem scriptSlot_injective {stage : Stage} {i j : Nat}
    (h : scriptSlot stage i = scriptSlot stage j) : i = j := by
  have hlist := congrArg String.toList h
  rw [toList_scriptSlot, toList_scriptSlot, List.append_right_inj, List.cons.injEq] at hlist
  rw [← Nat.ofDigitChars_ten_toDigits (n := i), hlist.2, Nat.ofDigitChars_ten_toDigits]

theorem scriptSlot_pre_ne_post (i j : Nat) : scriptSlot .pre i ≠ scriptSlot .post j := by
  intro h
  have hlist := congrArg String.toList h
  rw [toList_scriptSlot, toList_scriptSlot] at hlist
  simp [Stage.pre, Stage.post] at hlist

theorem scriptSlot_pre_ne_copyFrameworks (i : Nat) : scriptSlot .pre i ≠ copyFrameworksSlot := by
  intro h
  have hlist := congrArg String.toList h
  rw [toList_scriptSlot] at hlist
  simp [Stage.pre, copyFrameworksSlot] at hlist

theorem scriptSlot_post_ne_copyFrameworks (i : Nat) : scriptSlot .post i ≠ copyFrameworksSlot := by
  intro h
  have hlist := congrArg String.toList h
  rw [toList_scriptSlot] at hlist
  simp [Stage.post, copyFrameworksSlot] at hlist

namespace Project

variable [IdScheme] {p q : Project} {t : ObjectId} {slot : String} {script : Script}

/-! ## The script in a slot -/

/-- The phase of the slot of a target runs the script. -/
def HasScript (p : Project) (t : ObjectId) (slot : String) (script : Script) : Prop :=
  ∃ x, p.PhaseIn t (.inr slot) x ∧ x.content.role = .script slot script

/-- A target keeps its script in a slot unless another one is set for targets of its name. -/
theorem HasScript.path {A : Project → Step → Prop} (hp : p.WellFormed) {a : NativeTarget}
    (ha : p.content? t = some (.target a)) (h : p.HasScript t slot script) (hpq : Path A p q)
    (hA : ∀ q' i j new b, Path A p q' → A q' (.script i j slot new) →
      q'.content? i = some (.target b) → b.name = a.name → new = script) :
    q.HasScript t slot script := by
  induction hpq with
  | refl => exact h
  | @step q s path due fresh allowed ih =>
    obtain ⟨x, hx, hrole⟩ := ih
    have hq := path.wellFormed hp
    obtain ⟨hphase, hplace⟩ := hx.content?
    obtain ⟨y, hy, hid, -⟩ := hx.grows hq (Step.grows_apply due)
    refine ⟨y, hy, ?_⟩
    have hrevised := hy.content?.1
    rw [hid, Step.content?_apply_of_some hphase] at hrevised
    rcases Step.role_reviseContent (Option.some.inj hrevised) with hsame | ⟨i, slot', new, rfl, hnew⟩
    · rw [hsame, hrole]
    · cases due with
      | @script _ b _ x' _ _ target listed phase place =>
        -- The phase is in this slot, and of a target of this name.
        rw [hphase] at phase
        cases phase
        rw [hplace] at place
        cases place
        obtain ⟨r, hr, hrid⟩ := listed
        obtain ⟨c, hc, hname, -⟩ := path.grows.target ha
        have howner := hq.phases i b target r hr x.content (hrid ▸ hphase)
        rw [hx.target hq hc, hname] at howner
        rw [hnew, hA q i _ new b path allowed target howner.symm]

/-- The phase of a slot is updated where it stands. -/
theorem addScriptPhase_of_phaseIn {x : Identified BuildPhase} (hp : p.WellFormed)
    (hx : p.PhaseIn t (.inr slot) x) (script : Script) :
    addScriptPhase t slot script p = .ok () ((Step.script t x.id slot script).apply p) := by
  obtain ⟨a, ha, hfirst⟩ := hx
  rw [addScriptPhase, bind_of_ok (buildPhases_eq hp ha),
    findPhase_eq (isSlot_eq slot) fun r hr => hp.phase_of_mem ha hr, hfirst]
  exact Step.modifyObject_eq_apply rfl rfl rfl rfl

/-- A slot that no phase has gets a phase. -/
theorem addScriptPhase_of_none (hp : p.WellFormed) {a : NativeTarget}
    (ha : p.content? t = some (.target a))
    (hnone : p.first (Content.phaseAt? (.inr slot)) a.buildPhases = none) (script : Script) :
    addScriptPhase t slot script p =
      discard (appendPhase t { target := a.name, role := .script slot script }
        (phaseComment (.script slot script))) p := by
  rw [addScriptPhase, bind_of_ok (buildPhases_eq hp ha),
    findPhase_eq (isSlot_eq slot) fun r hr => hp.phase_of_mem ha hr, hnone]
  exact bind_of_ok (target_of_content? ha)

/-- A script that is in its slot is not changed. -/
theorem addScriptPhase_of_hasScript (hp : p.WellFormed) (h : p.HasScript t slot script) :
    addScriptPhase t slot script p = .ok () p := by
  obtain ⟨x, hx, hrole⟩ := h
  obtain ⟨o, ho, hox⟩ := exists_find?_of_content? hx.content?.1
  rw [addScriptPhase_of_phaseIn hp hx, Step.apply_eq_self hp (i := x.id) rfl rfl rfl rfl ho]
  obtain ⟨j, c, attached⟩ := o
  cases hox
  show Object.mk j (.phase { x.content with role := .script slot script }) attached = _
  rw [← hrole]

/-- The steps that give a slot of a target a script. -/
def ScriptSteps (t : ObjectId) (owner slot : String) (script : Script) (_ : Project) (s : Step) :
    Prop :=
  s = .attach t (.phase owner (.script slot script)) ∨ ∃ j, s = .script t j slot script

/-- A slot that no phase has gets a new one. -/
theorem performs_addScriptPhase_of_free (hp : p.WellFormed) {a : NativeTarget}
    (ha : p.content? t = some (.target a))
    (hfree : p.first (Content.phaseAt? (.inr slot)) a.buildPhases = none) (script : Script) :
    Edit.Performs (fun _ s => s = .attach t (.phase a.name (.script slot script)))
      (addScriptPhase t slot script) p fun _ q => q.HasScript t slot script := by
  refine Leads.congr (addScriptPhase_of_none hp ha hfree script) ?_
  refine (performs_appendPhase hp ha (.script slot script) hfree).discard.mono (fun _ _ h => h.2) ?_
  rintro _ q - ⟨i, h⟩
  exact ⟨_, h, rfl⟩

theorem performs_addScriptPhase (hp : p.WellFormed) {a : NativeTarget}
    (ha : p.content? t = some (.target a)) (slot : String) (script : Script) :
    Edit.Performs (ScriptSteps t a.name slot script) (addScriptPhase t slot script) p
      fun _ q => q.HasScript t slot script := by
  cases hfirst : p.first (Content.phaseAt? (.inr slot)) a.buildPhases with
  | some x =>
    have hx : p.PhaseIn t (.inr slot) x := ⟨a, ha, hfirst⟩
    obtain ⟨hphase, hplace⟩ := hx.content?
    obtain ⟨b, hb, hmem⟩ := hx.exists_mem
    have hdue : (Step.script t x.id slot script).Due p := .script hb hmem hphase hplace
    have hfresh : (Step.script t x.id slot script).Fresh p := by
      intro _ h
      cases h
    refine .of_step hdue hfresh (.inr ⟨x.id, rfl⟩) (addScriptPhase_of_phaseIn hp hx script) rfl ?_
    obtain ⟨y, hy, hid, -⟩ := hx.grows hp (Step.grows_apply hdue)
    refine ⟨y, hy, ?_⟩
    have hrevised := hy.content?.1
    rw [hid, Step.content?_apply_of_some hphase] at hrevised
    simp only [Step.reviseContent, if_true, Content.withRole, Option.some.injEq,
      Content.phase.injEq] at hrevised
    rw [← hrevised]
  | none => exact (performs_addScriptPhase_of_free hp ha hfirst script).weaken fun _ _ h => .inl h

/-! ## The scripts of a stage -/

/-- The script stands at the slot's index in the list, counted from an index. -/
def Declares (stage : Stage) (index : Nat) (scripts : List Script) (slot : String)
    (script : Script) : Prop :=
  ∃ k, scripts[k]? = some script ∧ slot = scriptSlot stage (index + k)

omit [IdScheme] in
theorem Declares.unique {stage : Stage} {index : Nat} {scripts : List Script} {script' : Script}
    (h : Declares stage index scripts slot script) (h' : Declares stage index scripts slot script') :
    script' = script := by
  obtain ⟨k, hk, rfl⟩ := h
  obtain ⟨k', hk', heq⟩ := h'
  have hindex := scriptSlot_injective heq
  have hkk : k = k' := by omega
  subst hkk
  rw [hk] at hk'
  exact (Option.some.inj hk').symm

omit [IdScheme] in
theorem Declares.cons {stage : Stage} {index : Nat} {scripts : List Script} (first : Script)
    (h : Declares stage (index + 1) scripts slot script) :
    Declares stage index (first :: scripts) slot script := by
  obtain ⟨k, hk, rfl⟩ := h
  exact ⟨k + 1, by simpa using hk, by rw [Nat.add_right_comm, Nat.add_assoc]⟩

/-- The steps that give the slots of a stage the declared scripts. -/
def StageSteps (t : ObjectId) (owner : String) (stage : Stage) (index : Nat) (scripts : List Script)
    (q : Project) (s : Step) : Prop :=
  ∃ slot script, Declares stage index scripts slot script ∧ ScriptSteps t owner slot script q s

theorem addScriptsFrom_of_hasScript (hp : p.WellFormed) {stage : Stage} {scripts : List Script}
    {index : Nat}
    (h : ∀ slot script, Declares stage index scripts slot script → p.HasScript t slot script) :
    addScriptsFrom t stage index scripts p = .ok () p := by
  induction scripts generalizing index with
  | nil => rfl
  | cons script scripts ih =>
    have hfirst : p.HasScript t (scriptSlot stage index) script := h _ _ ⟨0, rfl, rfl⟩
    rw [addScriptsFrom, bind_of_ok (addScriptPhase_of_hasScript hp hfirst)]
    exact ih fun slot script' hdeclares => h slot script' (hdeclares.cons script)

theorem performs_addScriptsFrom (hp : p.WellFormed) {a : NativeTarget}
    (ha : p.content? t = some (.target a)) (stage : Stage) (index : Nat) (scripts : List Script) :
    Edit.Performs (StageSteps t a.name stage index scripts) (addScriptsFrom t stage index scripts) p
      fun _ q => ∀ slot script, Declares stage index scripts slot script →
        q.HasScript t slot script := by
  induction scripts generalizing p a index with
  | nil =>
    refine .of_ok (a := ()) rfl ?_
    rintro slot script ⟨k, hk, -⟩
    simp at hk
  | cons script scripts ih =>
    have hfirst : Declares stage index (script :: scripts) (scriptSlot stage index) script :=
      ⟨0, rfl, rfl⟩
    refine ((performs_addScriptPhase hp ha (scriptSlot stage index) script).weaken
      fun q s h => ⟨_, _, hfirst, h⟩).bind fun _ q hpq hscript => ?_
    obtain ⟨b, hb, hname, -⟩ := hpq.grows.target ha
    have hq := hpq.wellFormed hp
    refine (ih hq hb (index + 1)).mono ?_ ?_
    · rintro q' s ⟨slot, script', hdeclares, hs⟩
      exact ⟨slot, script', hdeclares.cons script, hname ▸ hs⟩
    · -- The later scripts are set in other slots.
      rintro _ q' hqq' hrest slot script' ⟨k, hk, rfl⟩
      cases k with
      | zero =>
        cases hk
        refine hscript.path hq hb hqq' ?_
        rintro q'' i j new c - ⟨slot, script'', hdeclares, hs | ⟨j', hs⟩⟩ - -
        · cases hs
        · cases hs
          exact (hfirst.unique (hdeclares.cons script))
      | succ k => exact hrest _ _ ⟨k, by simpa using hk, by rw [Nat.add_right_comm, Nat.add_assoc]⟩

theorem addBuildScripts_of_hasScript (hp : p.WellFormed) {stage : Stage}
    {scripts : Option (List Script)}
    (h : ∀ slot script, Declares stage 0 (scripts.getD []) slot script → p.HasScript t slot script) :
    addBuildScripts t stage scripts p = .ok () p := by
  cases scripts with
  | none => rfl
  | some scripts => exact addScriptsFrom_of_hasScript hp h

theorem performs_addBuildScripts (hp : p.WellFormed) {a : NativeTarget}
    (ha : p.content? t = some (.target a)) (stage : Stage) (scripts : Option (List Script)) :
    Edit.Performs (StageSteps t a.name stage 0 (scripts.getD [])) (addBuildScripts t stage scripts) p
      fun _ q => ∀ slot script, Declares stage 0 (scripts.getD []) slot script →
        q.HasScript t slot script := by
  cases scripts with
  | none =>
    refine .of_ok (a := ()) rfl ?_
    rintro slot script ⟨k, hk, -⟩
    simp at hk
  | some scripts => exact performs_addScriptsFrom hp ha stage 0 scripts

end Project
end ProjectGraph
