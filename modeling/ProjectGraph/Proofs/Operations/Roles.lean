import Mathlib.Data.List.Basic
import ProjectGraph.Proofs.Operations.Scripts

/-! # The order of the phases of a target

A phase comes last when it is made. Then it stays where it is, and does what it has been made for. -/

namespace ProjectGraph

namespace Project

variable {p : Project} {t : ObjectId} {role : PhaseRole}

/-- What the phase does that a reference leads to. -/
def roleBehind (p : Project) (r : Reference) : Option PhaseRole :=
  ((p.content? r.id).bind Content.phase?).map BuildPhase.role

/-- What the phases of a target do, in order. -/
def roles (p : Project) (t : ObjectId) : List PhaseRole :=
  match (p.content? t).bind Content.target? with
  | some a => a.buildPhases.filterMap p.roleBehind
  | none => []

theorem roleBehind_of_phase {r : Reference} {q : BuildPhase} (h : p.content? r.id = some (.phase q)) :
    p.roleBehind r = some q.role := by
  rw [roleBehind, h]
  rfl

theorem roles_of_target {a : NativeTarget} (ha : p.content? t = some (.target a)) :
    p.roles t = a.buildPhases.filterMap p.roleBehind := by
  rw [roles, ha]
  rfl

theorem roles_of_not_target (h : ∀ a, p.content? t ≠ some (.target a)) : p.roles t = [] := by
  unfold roles
  split
  · next a ha => exact absurd (content?_of_target? ha) (h a)
  · rfl

variable [IdScheme]

/-- Each reference of a target to a phase leads to one. -/
theorem map_roleBehind (hp : p.WellFormed) {a : NativeTarget}
    (ha : p.content? t = some (.target a)) : a.buildPhases.map p.roleBehind = (p.roles t).map some := by
  rw [roles_of_target ha, List.map_filterMap, ← List.filterMap_eq_map]
  refine List.filterMap_congr fun r hr => ?_
  obtain ⟨q, hq⟩ := hp.phase_of_mem ha hr
  rw [Function.comp_apply, roleBehind_of_phase hq]
  rfl

theorem mem_roles (hp : p.WellFormed) {a : NativeTarget} (ha : p.content? t = some (.target a)) :
    role ∈ p.roles t ↔ ∃ r ∈ a.buildPhases, ∃ q, p.content? r.id = some (.phase q) ∧ q.role = role := by
  rw [roles_of_target ha, List.mem_filterMap]
  refine exists_congr fun r => and_congr_right fun hr => ?_
  obtain ⟨q, hq⟩ := hp.phase_of_mem ha hr
  simp [roleBehind_of_phase hq, hq]

/-- A place in a target is free if no phase has it. -/
theorem first_phaseAt?_eq_none_iff (hp : p.WellFormed) {a : NativeTarget}
    (ha : p.content? t = some (.target a)) {place : PhaseKind ⊕ String} :
    p.first (Content.phaseAt? place) a.buildPhases = none ↔ ∀ r ∈ p.roles t, r.place ≠ place := by
  rw [first_eq_none_iff]
  constructor
  · intro h role hrole hplace
    obtain ⟨r, hr, q, hq, rfl⟩ := (mem_roles hp ha).1 hrole
    have hview := h r hr _ hq
    rw [Content.phaseAt?_eq_some.2 ⟨rfl, hplace⟩] at hview
    cases hview
  · intro h r hr c hc
    cases hview : c.phaseAt? place with
    | none => rfl
    | some q =>
      obtain ⟨rfl, hplace⟩ := Content.phaseAt?_eq_some.1 hview
      exact absurd hplace (h _ ((mem_roles hp ha).2 ⟨r, hr, q, hc, rfl⟩))

theorem PhaseIn.mem_roles (hp : p.WellFormed) {place : PhaseKind ⊕ String} {x : Identified BuildPhase}
    (h : p.PhaseIn t place x) : x.content.role ∈ p.roles t := by
  obtain ⟨a, ha, r, hr, hid⟩ := h.exists_mem
  exact (Project.mem_roles hp ha).2 ⟨r, hr, _, hid ▸ h.content?.1, rfl⟩

theorem HasPhase.mem_roles {kind : PhaseKind} (hp : p.WellFormed) (h : p.HasPhase t kind) :
    .files kind ∈ p.roles t := by
  obtain ⟨x, hx⟩ := h
  rw [← PhaseRole.place_eq_inl.1 hx.content?.2]
  exact hx.mem_roles hp

theorem HasScript.mem_roles {slot : String} {script : Script} (hp : p.WellFormed)
    (h : p.HasScript t slot script) : .script slot script ∈ p.roles t := by
  obtain ⟨x, hx, hrole⟩ := h
  rw [← hrole]
  exact hx.mem_roles hp

end Project

/-! ## After a step -/

namespace Step

open Project

/-- The step neither makes a phase nor changes a script. -/
def keepsRoles : Step → Bool
  | attach _ (.phase ..) | script .. => false
  | _ => true

variable [IdScheme] {p : Project} {s : Step} {t i : ObjectId} {role : PhaseRole}

theorem role_of_keepsRoles (hs : s.keepsRoles) {a b : BuildPhase}
    (h : s.reviseContent i (.phase a) = .phase b) : b.role = a.role := by
  rcases role_reviseContent h with hsame | ⟨t, slot, new, rfl, -⟩
  · exact hsame
  · cases hs

theorem buildPhases_of_keepsRoles (hs : s.keepsRoles) {a b : NativeTarget}
    (h : s.reviseContent i (.target a) = .target b) : b.buildPhases = a.buildPhases := by
  cases s with
  | attach owner x =>
    simp only [reviseContent] at h
    split at h
    · cases x with
      | phase => cases hs
      | _ => cases h; rfl
    · cases h
      rfl
  | configurationList | settings | product | script =>
    simp only [reviseContent] at h
    split at h <;> cases h <;> rfl
  | configuration | scheme | schemeChange =>
    cases h
    rfl

/-- Phases do after a step what they have done before. -/
theorem roleBehind_apply (hd : s.Due p) {r : Reference} {q : BuildPhase}
    (hq : p.content? r.id = some (.phase q))
    (hrole : ∀ b, s.reviseContent r.id (.phase q) = .phase b → b.role = q.role) :
    (s.apply p).roleBehind r = p.roleBehind r := by
  obtain ⟨b, hb, -⟩ := (grows_apply hd).phase hq
  rw [roleBehind_of_phase hb, roleBehind_of_phase hq, hrole b]
  rw [content?_apply_of_some hq] at hb
  exact Option.some.inj hb

theorem roles_of_keepsRoles (hp : p.WellFormed) (hd : s.Due p) (hf : s.Fresh p) (hs : s.keepsRoles)
    (t : ObjectId) : (s.apply p).roles t = p.roles t := by
  by_cases htarget : ∃ a, p.content? t = some (.target a)
  · obtain ⟨a, ha⟩ := htarget
    obtain ⟨b, hb, -⟩ := (grows_apply hd).target ha
    have hrevised := hb
    rw [content?_apply_of_some ha] at hrevised
    rw [roles_of_target ha, roles_of_target hb, buildPhases_of_keepsRoles hs (Option.some.inj hrevised)]
    refine List.filterMap_congr fun r hr => ?_
    obtain ⟨q, hq⟩ := hp.phase_of_mem ha hr
    exact roleBehind_apply hd hq fun b => role_of_keepsRoles hs
  · push Not at htarget
    rw [roles_of_not_target htarget]
    -- A target that is new has no phases.
    by_cases hafter : ∃ b, (s.apply p).content? t = some (.target b)
    · obtain ⟨b, hb⟩ := hafter
      rw [roles_of_target hb]
      rcases content?_apply_grows hp hd hf hb with ⟨c, hc, hgrow⟩ | ⟨hnew, -⟩
      · cases hgrow
        exact absurd hc (htarget _)
      · cases hd with
        | target =>
          cases hnew
          rfl
        | _ => cases hnew
    · push Not at hafter
      exact roles_of_not_target hafter

/-- A phase is made where there is none, and comes last. -/
theorem roles_of_phase {name : String} (hp : p.WellFormed) (hs : s = .attach t (.phase name role))
    (hd : s.Due p) (hf : s.Fresh p) :
    (∀ r ∈ p.roles t, r.place ≠ role.place) ∧ (s.apply p).roles t = p.roles t ++ [role] := by
  have hdue := hs ▸ hd
  cases hdue with
  | @phase _ a _ ha habsent =>
    refine ⟨fun r hr => ?_, ?_⟩
    · obtain ⟨r', hr', q, hq, rfl⟩ := (mem_roles hp ha).1 hr
      exact habsent r' hr' q hq
    · have hnew : (s.apply p).content? (Part.reference (.phase a.name role)).id =
          some (.phase { target := a.name, role := role }) := content?_apply_new hp hd hf (hs ▸ rfl)
      have hafter : (s.apply p).content? t = some (.target { a with
          buildPhases := a.buildPhases ++ [Part.reference (.phase a.name role)] }) := by
        rw [content?_apply_of_some ha, hs, reviseContent, if_pos rfl]
        rfl
      rw [roles_of_target hafter, roles_of_target ha, List.filterMap_append]
      congr 1
      · refine List.filterMap_congr fun r hr => ?_
        obtain ⟨q, hq⟩ := hp.phase_of_mem ha hr
        refine roleBehind_apply hd hq fun b hb => ?_
        rcases role_reviseContent hb with hsame | ⟨_, _, _, h, -⟩
        · exact hsame
        · rw [hs] at h
          cases h
      · rw [List.filterMap_cons, roleBehind_of_phase hnew]
        rfl

end Step

/-! ## Along a path -/

namespace Path

open Project

variable [IdScheme] {A : Project → Step → Prop} {p q : Project} {t : ObjectId} {role : PhaseRole}

theorem roles_of_keepsRoles (hpq : Path A p q) (hp : p.WellFormed)
    (hA : ∀ r s, A r s → s.keepsRoles) (t : ObjectId) : q.roles t = p.roles t := by
  induction hpq with
  | refl => rfl
  | step path due fresh allowed ih =>
    rw [Step.roles_of_keepsRoles (path.wellFormed hp) due fresh (hA _ _ allowed), ih]

/-- Where steps make no phases but one, its role comes last or was there before. -/
theorem roles_cases (hpq : Path A p q) (hp : p.WellFormed)
    (hA : ∀ r s, A r s → s.keepsRoles ∨ ∃ name, s = .attach t (.phase name role)) :
    q.roles t = p.roles t ∨
      (∀ r ∈ p.roles t, r.place ≠ role.place) ∧ q.roles t = p.roles t ++ [role] := by
  induction hpq with
  | refl => exact .inl rfl
  | @step q s path due fresh allowed ih =>
    have hq := path.wellFormed hp
    rcases hA q s allowed with hkeeps | ⟨name, hs⟩
    · rwa [Step.roles_of_keepsRoles hq due fresh hkeeps]
    · obtain ⟨hfree, hlast⟩ := Step.roles_of_phase hq hs due fresh
      rcases ih with ih | ⟨-, ih⟩
      · rw [ih] at hfree hlast
        exact .inr ⟨hfree, hlast⟩
      · rw [ih] at hfree
        exact absurd rfl (hfree role (by simp))

end Path
end ProjectGraph
