import ProjectGraph.Proofs.Keys.Slots
import ProjectGraph.Proofs.Runs.Clash
import ProjectGraph.Proofs.Runs.PhaseOrder

/-! # Build scripts of a target

The scripts that a stage of a target is given go into its slots, one each, in the order in which they are
listed. What the target has in other slots, and all else, stays as it is. -/

namespace ProjectGraph

open Project

/-- The role is not that of a script of this stage at an index below the number. -/
def PhaseRole.IsBeyond (stage : Stage) (n : Nat) (role : PhaseRole) : Prop :=
  (∃ kind, role = .files kind) ∨ (∃ script, role = .script copyFrameworksSlot script) ∨
    ∃ other j script, (other = Stage.pre ∨ other = Stage.post) ∧ (other = stage → n ≤ j) ∧
      role = .script (scriptSlot other j) script

/-- Other slots are other places. -/
theorem PhaseRole.IsBeyond.place_ne {stage : Stage} (hstage : stage = .pre ∨ stage = .post) {n i : Nat}
    {role : PhaseRole} (h : role.IsBeyond stage n) (hi : i < n) :
    role.place ≠ .inr (scriptSlot stage i) := by
  rcases h with ⟨kind, rfl⟩ | ⟨script, rfl⟩ | ⟨other, j, script, hother, hj, rfl⟩
  · exact Sum.inl_ne_inr
  · intro hplace
    rcases hstage with rfl | rfl
    · exact scriptSlot_pre_ne_copyFrameworks i (Sum.inr.inj hplace).symm
    · exact scriptSlot_post_ne_copyFrameworks i (Sum.inr.inj hplace).symm
  · intro hplace
    have hslot : scriptSlot other j = scriptSlot stage i := Sum.inr.inj hplace
    by_cases hsame : other = stage
    · subst hsame
      have := scriptSlot_injective hslot
      have := hj rfl
      omega
    · rcases hother with rfl | rfl <;> rcases hstage with rfl | rfl
      · exact hsame rfl
      · exact scriptSlot_pre_ne_post j i hslot
      · exact scriptSlot_pre_ne_post i j hslot.symm
      · exact hsame rfl

section

variable [IdScheme] {as : List Attempt} {p : Project} {t : ObjectId} {a : NativeTarget}

/-- If ids tell keys apart, any target that builds and runs have made can be given any scripts for a
stage. Each script is that of the only phase in its slot. The phases from before stay where they are,
under their ids, and the slots that have been missing follow them in order. Nothing else changes. -/
theorem BuildHistory.scripts_in_slots (hinj : Function.Injective IdScheme.ofKey)
    (h : BuildHistory as p) (ha : p.content? t = some (.target a)) {stage : Stage}
    (hstage : stage = .pre ∨ stage = .post) :
    addBuildScripts t stage none p = .ok () p ∧
      ∀ scripts, ∃ q, addBuildScripts t stage (some scripts) p = .ok () q ∧
        p.Assigned q t a.name (stage.roles 0 scripts) ∧
        (∀ i script, scripts[i]? = some script → ∃ x,
          (q.phasesIn t).filter (fun x => x.content.role.place = .inr (scriptSlot stage i)) = [x] ∧
            x.content.role = .script (scriptSlot stage i) script) ∧
        (p.phasesIn t).map Identified.id <+: (q.phasesIn t).map Identified.id ∧
        ∀ i x, p.content? i = some (.phase x) →
          x.role.IsBeyond stage scripts.length ∨ x.target ≠ a.name →
            q.content? i = some (.phase x) := by
  have hp := h.regular.wellFormed
  have ho := h.regular.owned
  refine ⟨rfl, fun scripts => ?_⟩
  obtain ⟨q, hadd, hassigned⟩ :=
    exists_addScriptsFrom hinj hp ho h.regular.findable ha hstage 0 scripts
  obtain ⟨hpq, -⟩ := Leads.of_ok (performs_addScriptsFrom hp ha stage 0 scripts) hadd
  refine ⟨q, hadd, hassigned, fun i script hi => ?_, ?_, fun i x hx hbeyond => ?_⟩
  · have hrole : .script (scriptSlot stage i) script ∈ stage.roles 0 scripts :=
      Stage.mem_roles.2 ⟨i, script, hi, by rw [Nat.zero_add]⟩
    exact hassigned.single (hpq.wellFormed hp) (hpq.owned hp ho) (hassigned.target a ha)
      (stage.pairwise_roles 0 scripts) hrole
  · rw [hassigned.phases, assignRoles, List.map_append, List.map_map]
    exact List.prefix_append _ _
  · refine hassigned.others i _ ?_ hx fun y hy hname role hrole => ?_
    · rintro rfl
      rw [ha] at hx
      cases hx
    · cases hy
      obtain ⟨k, script, hk, rfl⟩ := Stage.mem_roles.1 hrole
      rw [Nat.zero_add]
      exact (hbeyond.resolve_right fun hne => hne hname).place_ne hstage
        (List.getElem?_eq_some_iff.1 hk).1

end

/-- A test that is built with one script before its files and one after them is given three scripts, of
which two are equal. The first one takes the place of the script that is there, and the others come
after the script that copies frameworks. -/
theorem BuildHistory.scripts_in_slots_of_scriptedTest :
    letI : IdScheme := spelledScheme
    ∃ (p : Project) (tests : Attempt) (t : ObjectId) (a : NativeTarget) (q : Project),
      Project.ofValue "App" (.text "Debug") = .ok p ∧
      tests = ⟨scriptedTest, ⟨⟨p, oneSource, []⟩, .ofPaths "." none⟩⟩ ∧
      BuildHistory [tests] tests.after.project ∧
      tests.after.project.content? t = some (.target a) ∧
      addBuildScripts t .pre none tests.after.project = .ok () tests.after.project ∧
      addBuildScripts t .pre (some [signScript, lintScript, lintScript]) tests.after.project = .ok () q ∧
      (tests.after.project.phasesIn t).map (fun x => x.content.role) =
        [.script "pre:0" lintScript, .files .sources, .files .resources, .files .frameworks,
          .script "post:0" signScript, .script copyFrameworksSlot
            ⟨copyFrameworksName, CopyScript.text, ["Quick.framework"]⟩] ∧
      (q.phasesIn t).map (fun x => x.content.role) =
        [.script "pre:0" signScript, .files .sources, .files .resources, .files .frameworks,
          .script "post:0" signScript, .script copyFrameworksSlot
            ⟨copyFrameworksName, CopyScript.text, ["Quick.framework"]⟩,
          .script "pre:1" lintScript, .script "pre:2" lintScript] := by
  let _ : IdScheme := spelledScheme
  let t := IdScheme.ofKey "PBXNativeTarget:Tests"
  let scripts := [signScript, lintScript, lintScript]
  have hbuilt : (Project.ofValue "App" (.text "Debug")).toOption.any fun p =>
      let tests : Attempt := ⟨scriptedTest, ⟨⟨p, oneSource, []⟩, .ofPaths "." none⟩⟩
      let q := tests.after.project
      ((q.content? t).bind Content.target?).isSome ∧
        (q.phasesIn t).map (fun x => x.content.role) =
          [.script "pre:0" lintScript, .files .sources, .files .resources, .files .frameworks,
            .script "post:0" signScript, .script copyFrameworksSlot
              ⟨copyFrameworksName, CopyScript.text, ["Quick.framework"]⟩] := by
    decide +kernel
  obtain ⟨p, hnew, hp⟩ := Project.exists_of_ofValue hbuilt
  obtain ⟨htarget, hroles⟩ := of_decide_eq_true hp
  let tests : Attempt := ⟨scriptedTest, ⟨⟨p, oneSource, []⟩, .ofPaths "." none⟩⟩
  have hhistory : BuildHistory [tests] tests.after.project := .build tests (.new hnew)
  obtain ⟨a, ha⟩ := Option.isSome_iff_exists.1 htarget
  have hc := content?_of_target? ha
  obtain ⟨hnone, hgiven⟩ :=
    hhistory.scripts_in_slots ofKey_spelledScheme_injective hc (.inl (Eq.refl Stage.pre))
  obtain ⟨q, hadd, hassigned, -⟩ := hgiven scripts
  refine ⟨p, tests, t, a, q, hnew, rfl, hhistory, hc, hnone, hadd, hroles, ?_⟩
  rw [hassigned.phases, map_role_assignRoles, hroles]
  rfl

end ProjectGraph
