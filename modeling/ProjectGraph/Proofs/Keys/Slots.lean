import ProjectGraph.Proofs.Builds.PhaseOrder
import ProjectGraph.Proofs.Keys.Linking

/-! # Scripts in their slots

The phases of a target are like a table in order: a script goes into the phase that has its slot, which
stays where it is, or into a new phase at the end. If ids tell keys apart, there is always room for it,
and nothing else changes. -/

namespace ProjectGraph

/-! ## Roles in their places -/

namespace PhaseRole

/-- The role that comes into the place of this one: the first of these that has its place, or itself. -/
def replacedBy (roles : List PhaseRole) (role : PhaseRole) : PhaseRole :=
  (roles.find? fun new => new.place = role.place).getD role

theorem place_replacedBy (roles : List PhaseRole) (role : PhaseRole) :
    (role.replacedBy roles).place = role.place := by
  unfold replacedBy
  cases hfind : roles.find? fun new => new.place = role.place with
  | none => rfl
  | some new => simpa using List.find?_some hfind

theorem replacedBy_of_forall_ne {roles : List PhaseRole} {role : PhaseRole}
    (h : ∀ new ∈ roles, new.place ≠ role.place) : role.replacedBy roles = role := by
  have hfind : (roles.find? fun new => new.place = role.place) = none := by
    simpa [List.find?_eq_none] using h
  rw [replacedBy, hfind, Option.getD_none]

theorem replacedBy_cons (new : PhaseRole) (roles : List PhaseRole) (role : PhaseRole) :
    role.replacedBy (new :: roles) = if new.place = role.place then new else role.replacedBy roles := by
  unfold replacedBy
  rw [List.find?_cons]
  by_cases h : new.place = role.place <;> simp [h]

/-- Among roles with places of their own each one comes into its place. -/
theorem replacedBy_of_mem {roles : List PhaseRole} {new role : PhaseRole}
    (hapart : roles.Pairwise fun r r' => r.place ≠ r'.place) (hnew : new ∈ roles)
    (hplace : new.place = role.place) : role.replacedBy roles = new := by
  induction roles with
  | nil => cases hnew
  | cons first roles ih =>
    rw [List.pairwise_cons] at hapart
    rw [replacedBy_cons]
    rcases List.mem_cons.1 hnew with rfl | hrest
    · rw [if_pos hplace]
    · rw [if_neg fun h => hapart.1 new hrest (h.trans hplace.symm)]
      exact ih hapart.2 hrest

end PhaseRole

/-- A new phase of a target of this name, under its id. -/
def newPhase [IdScheme] (owner : String) (role : PhaseRole) : Identified BuildPhase :=
  ⟨(Part.phase owner role).content.id, { target := owner, role := role }⟩

/-- The roles whose places none of the phases has, in order. -/
def missingRoles (roles : List PhaseRole) (phases : List (Identified BuildPhase)) : List PhaseRole :=
  roles.filter fun role => ∀ x ∈ phases, x.content.role.place ≠ role.place

/-- The phase with the role for its place, if there is one among these. -/
def takeRole (roles : List PhaseRole) (x : Identified BuildPhase) : Identified BuildPhase :=
  ⟨x.id, { x.content with role := x.content.role.replacedBy roles }⟩

/-- The phases of a target of this name once roles have been put into their places: each phase stays
where it is, and takes the role for its place, if there is one; the other roles come last, in order. -/
def assignRoles [IdScheme] (owner : String) (roles : List PhaseRole)
    (phases : List (Identified BuildPhase)) : List (Identified BuildPhase) :=
  phases.map (takeRole roles) ++ (missingRoles roles phases).map (newPhase owner)

section

variable [IdScheme] {owner : String} {roles : List PhaseRole} {role : PhaseRole}
  {phases : List (Identified BuildPhase)}

omit [IdScheme] in
theorem mem_missingRoles :
    role ∈ missingRoles roles phases ↔
      role ∈ roles ∧ ∀ x ∈ phases, x.content.role.place ≠ role.place := by
  simp [missingRoles]

omit [IdScheme] in
theorem missingRoles_cons (role : PhaseRole) (roles : List PhaseRole)
    (phases : List (Identified BuildPhase)) :
    missingRoles (role :: roles) phases = missingRoles [role] phases ++ missingRoles roles phases := by
  unfold missingRoles
  rw [← List.filter_append, List.singleton_append]

omit [IdScheme] in
/-- A role is missing alone, or not at all. -/
theorem missingRoles_singleton (role : PhaseRole) (phases : List (Identified BuildPhase)) :
    missingRoles [role] phases =
      if ∀ x ∈ phases, x.content.role.place ≠ role.place then [role] else [] := by
  rw [missingRoles, List.filter_singleton]
  exact Bool.cond_decide _ _ _

theorem assignRoles_nil (owner : String) (phases : List (Identified BuildPhase)) :
    assignRoles owner [] phases = phases := by
  unfold assignRoles
  rw [show missingRoles [] phases = [] from rfl, List.map_nil, List.append_nil]
  exact List.map_id' phases

/-- The places of the phases, and then those that were missing. -/
theorem map_place_assignRoles :
    (assignRoles owner roles phases).map (fun x => x.content.role.place) =
      phases.map (fun x => x.content.role.place) ++ (missingRoles roles phases).map PhaseRole.place := by
  simp only [assignRoles, List.map_append, List.map_map]
  congr 1
  exact List.map_congr_left fun x _ => PhaseRole.place_replacedBy roles x.content.role

/-- What the phases do in the end can be told from what they do. -/
theorem map_role_assignRoles :
    (assignRoles owner roles phases).map (fun x => x.content.role) =
      (phases.map fun x => x.content.role).map (PhaseRole.replacedBy roles) ++
        roles.filter fun role =>
          ∀ old ∈ phases.map (fun x => x.content.role), old.place ≠ role.place := by
  have hmissing : missingRoles roles phases = roles.filter fun role =>
      ∀ old ∈ phases.map (fun x => x.content.role), old.place ≠ role.place := by
    refine List.filter_congr fun role _ => decide_eq_decide.2 ?_
    simp
  rw [assignRoles, hmissing, List.map_append, List.map_map, List.map_map, List.map_map]
  exact congrArg (_ ++ ·) (List.map_id _)

/-- A role that has another place is missing after an assignment if it was so before. -/
theorem missingRoles_assignRoles {more : List PhaseRole}
    (hapart : ∀ new ∈ more, ∀ role ∈ roles, new.place ≠ role.place) :
    missingRoles more (assignRoles owner roles phases) = missingRoles more phases := by
  refine List.filter_congr fun new hnew => decide_eq_decide.2 ?_
  have hmem : ∀ xs : List (Identified BuildPhase), (∀ x ∈ xs, x.content.role.place ≠ new.place) ↔
      new.place ∉ xs.map fun x => x.content.role.place := by
    simp
  rw [hmem, hmem, map_place_assignRoles, List.mem_append, not_or, and_iff_left]
  rintro h
  obtain ⟨role, hrole, hplace⟩ := List.mem_map.1 h
  exact hapart new hnew role (mem_missingRoles.1 hrole).1 hplace.symm

/-- Among roles with places of their own each one is what some phase does in the end. -/
theorem exists_mem_assignRoles (hapart : roles.Pairwise fun r r' => r.place ≠ r'.place)
    (hrole : role ∈ roles) : ∃ x ∈ assignRoles owner roles phases, x.content.role = role := by
  by_cases hmissing : role ∈ missingRoles roles phases
  · exact ⟨newPhase owner role, List.mem_append_right _ (List.mem_map_of_mem hmissing), rfl⟩
  · obtain ⟨x, hx, hplace⟩ : ∃ x ∈ phases, x.content.role.place = role.place := by
      simpa [mem_missingRoles, hrole] using hmissing
    refine ⟨takeRole roles x, List.mem_append_left _ (List.mem_map_of_mem hx), ?_⟩
    exact PhaseRole.replacedBy_of_mem hapart hrole hplace.symm

omit [IdScheme] in
theorem takeRole_of_forall_ne {x : Identified BuildPhase}
    (h : ∀ new ∈ roles, new.place ≠ x.content.role.place) : takeRole roles x = x := by
  rw [takeRole, PhaseRole.replacedBy_of_forall_ne h]

/-- Roles can be put into their places one after the other. -/
theorem assignRoles_cons (hapart : ∀ new ∈ roles, new.place ≠ role.place) :
    assignRoles owner (role :: roles) phases =
      assignRoles owner roles (assignRoles owner [role] phases) := by
  have hnew : ((missingRoles [role] phases).map (newPhase owner)).map (takeRole roles) =
      (missingRoles [role] phases).map (newPhase owner) := by
    rw [List.map_map]
    refine List.map_congr_left fun new hnew => takeRole_of_forall_ne ?_
    rwa [List.mem_singleton.1 (mem_missingRoles.1 hnew).1]
  -- A phase in the place of the first role takes it, and no other role has this place.
  have htwice : ∀ x : Identified BuildPhase,
      takeRole roles (takeRole [role] x) = takeRole (role :: roles) x := by
    intro x
    unfold takeRole
    rw [PhaseRole.replacedBy_cons, PhaseRole.replacedBy_cons]
    by_cases hplace : role.place = x.content.role.place
    · rw [if_pos hplace, if_pos hplace, PhaseRole.replacedBy_of_forall_ne hapart]
    · rw [if_neg hplace, if_neg hplace]
      rfl
  calc assignRoles owner (role :: roles) phases
    _ = phases.map (takeRole (role :: roles)) ++ ((missingRoles [role] phases).map (newPhase owner) ++
        (missingRoles roles phases).map (newPhase owner)) := by
      rw [assignRoles, missingRoles_cons, List.map_append]
    _ = (assignRoles owner [role] phases).map (takeRole roles) ++
        (missingRoles roles phases).map (newPhase owner) := by
      rw [assignRoles, List.map_append, hnew, List.map_map, List.append_assoc]
      exact congrArg (· ++ _) (List.map_congr_left fun x _ => (htwice x).symm)
    _ = assignRoles owner roles (assignRoles owner [role] phases) := by
      conv_rhs => rw [assignRoles, missingRoles_assignRoles (by simpa using hapart)]

end

theorem Stage.pairwise_roles (stage : Stage) (index : Nat) (scripts : List Script) :
    (stage.roles index scripts).Pairwise fun r r' => r.place ≠ r'.place := by
  unfold roles
  rw [List.pairwise_iff_getElem]
  intro i j hi hj hij hplace
  simp only [List.getElem_mapIdx, PhaseRole.place, Sum.inr.injEq] at hplace
  have := scriptSlot_injective hplace
  omega

theorem Stage.mem_roles {stage : Stage} {index : Nat} {scripts : List Script} {role : PhaseRole} :
    role ∈ stage.roles index scripts ↔
      ∃ k script, scripts[k]? = some script ∧ role = .script (scriptSlot stage (index + k)) script := by
  unfold roles
  rw [List.mem_mapIdx]
  constructor
  · rintro ⟨k, hk, rfl⟩
    exact ⟨k, scripts[k], List.getElem?_eq_getElem hk, rfl⟩
  · rintro ⟨k, script, hscript, rfl⟩
    obtain ⟨hk, rfl⟩ := List.getElem?_eq_some_iff.1 hscript
    exact ⟨k, hk, rfl⟩

namespace Project

/-! ## The phases of a target -/

/-- The phase that a reference leads to. -/
def phaseBehind (p : Project) (r : Reference) : Option (Identified BuildPhase) :=
  ((p.content? r.id).bind Content.phase?).map fun q => ⟨r.id, q⟩

/-- The phases that a target lists, in order. -/
def phasesIn (p : Project) (t : ObjectId) : List (Identified BuildPhase) :=
  match (p.content? t).bind Content.target? with
  | some a => a.buildPhases.filterMap p.phaseBehind
  | none => []

section

variable {p : Project} {t : ObjectId} {a : NativeTarget}

theorem phaseBehind_of_phase {r : Reference} {q : BuildPhase} (h : p.content? r.id = some (.phase q)) :
    p.phaseBehind r = some ⟨r.id, q⟩ := by
  rw [phaseBehind, h]
  rfl

theorem phasesIn_of_target (ha : p.content? t = some (.target a)) :
    p.phasesIn t = a.buildPhases.filterMap p.phaseBehind := by
  rw [phasesIn, ha]
  rfl

variable [IdScheme]

theorem mem_phasesIn (hp : p.WellFormed) (ha : p.content? t = some (.target a))
    {x : Identified BuildPhase} :
    x ∈ p.phasesIn t ↔ ∃ r ∈ a.buildPhases, r.id = x.id ∧ p.content? x.id = some (.phase x.content) := by
  rw [phasesIn_of_target ha, List.mem_filterMap]
  refine exists_congr fun r => and_congr_right fun hr => ?_
  obtain ⟨q, hq⟩ := hp.phase_of_mem ha hr
  rw [phaseBehind_of_phase hq, Option.some.injEq]
  constructor
  · rintro rfl
    exact ⟨rfl, hq⟩
  · rintro ⟨hid, hx⟩
    rw [← hid, hq] at hx
    cases hx
    obtain ⟨i, q⟩ := x
    cases hid
    rfl

/-- A target lists the phases with its name. -/
theorem mem_phasesIn_iff (hp : p.WellFormed) (ho : p.Owned) (ha : p.content? t = some (.target a))
    {x : Identified BuildPhase} :
    x ∈ p.phasesIn t ↔ p.content? x.id = some (.phase x.content) ∧ x.content.target = a.name := by
  rw [mem_phasesIn hp ha]
  constructor
  · rintro ⟨r, hr, hid, hx⟩
    exact ⟨hx, hp.phases t a ha r hr _ (hid ▸ hx)⟩
  · rintro ⟨hx, hname⟩
    obtain ⟨b, hb, r, hr, hid⟩ := (ho.phaseIn hp ha hx hname).exists_mem
    rw [ha] at hb
    cases hb
    exact ⟨r, hr, hid, hx⟩

/-- A target has one phase in a place. -/
theorem eq_of_place_eq (hp : p.WellFormed) (ho : p.Owned) {x y : Identified BuildPhase}
    (ha : p.content? t = some (.target a)) (hx : x ∈ p.phasesIn t) (hy : y ∈ p.phasesIn t)
    (hplace : x.content.role.place = y.content.role.place) : x = y := by
  obtain ⟨hx, hxname⟩ := (mem_phasesIn_iff hp ho ha).1 hx
  obtain ⟨hy, hyname⟩ := (mem_phasesIn_iff hp ho ha).1 hy
  obtain ⟨b, hb, hxfirst⟩ := ho.phaseIn hp ha hx hxname
  obtain ⟨c, hc, hyfirst⟩ := ho.phaseIn hp ha hy hyname
  rw [ha] at hb hc
  cases hb
  cases hc
  rw [hplace, hyfirst] at hxfirst
  exact (Option.some.inj hxfirst).symm

/-- The places of the phases of a target differ. -/
theorem nodup_places (hp : p.WellFormed) (ho : p.Owned) (ha : p.content? t = some (.target a)) :
    ((p.phasesIn t).map fun x => x.content.role.place).Nodup := by
  have hpairs := ho.pairwise_places hp ha
  rw [phasesIn_of_target ha, List.Nodup, List.pairwise_map, List.pairwise_filterMap]
  refine hpairs.imp fun {r r'} h x hx y hy => ?_
  unfold phaseBehind at hx hy
  simp only [Option.map_eq_some_iff, Option.bind_eq_some_iff] at hx hy
  obtain ⟨q, ⟨c, hc, hq⟩, rfl⟩ := hx
  obtain ⟨q', ⟨c', hc', hq'⟩, rfl⟩ := hy
  cases c <;> cases hq
  cases c' <;> cases hq'
  exact h q q' hc hc'

end

/-! ## One script -/

/-- In a list in which the values of a function differ, one item has the value that it has. -/
theorem filter_eq_singleton_of_nodup {α β : Type} [DecidableEq β] {f : α → β} {xs : List α} {x : α}
    (h : (xs.map f).Nodup) (hx : x ∈ xs) : xs.filter (fun y => f y = f x) = [x] := by
  induction xs with
  | nil => cases hx
  | cons y ys ih =>
    rw [List.map_cons, List.nodup_cons] at h
    rcases List.mem_cons.1 hx with rfl | hrest
    · have hnone : ys.filter (fun z => f z = f x) = [] := by
        refine List.filter_eq_nil_iff.2 fun z hz heq => h.1 ?_
        exact of_decide_eq_true heq ▸ List.mem_map_of_mem hz
      rw [List.filter_cons_of_pos (by simp), hnone]
    · rw [List.filter_cons_of_neg, ih h.2 hrest]
      intro heq
      exact h.1 (of_decide_eq_true heq ▸ List.mem_map_of_mem hrest)

variable [IdScheme]

/-- What has become of a project in which roles have been put into their places in a target of this
name. -/
structure Assigned (p q : Project) (t : ObjectId) (owner : String) (roles : List PhaseRole) : Prop where
  phases : q.phasesIn t = assignRoles owner roles (p.phasesIn t)
  /-- The references to the phases stay what they are, and new ones come last. -/
  target : ∀ a, p.content? t = some (.target a) → q.content? t = some (.target { a with
    buildPhases := a.buildPhases ++
      (missingRoles roles (p.phasesIn t)).map fun role => (Part.phase owner role).reference })
  /-- Other objects stay what they are, and so do the phases of the target in other places. -/
  others : ∀ i c, i ≠ t → p.content? i = some c →
    (∀ x, c = .phase x → x.target = owner → ∀ role ∈ roles, x.role.place ≠ role.place) →
      q.content? i = some c
  /-- Nothing is registered but the new phases, which come last. -/
  ids : q.objects.map Object.id = p.objects.map Object.id ++
    (missingRoles roles (p.phasesIn t)).map fun role => (newPhase owner role).id
  rest : q = { p with objects := q.objects }

variable {p q r : Project} {t : ObjectId} {a : NativeTarget} {owner slot : String}
  {roles : List PhaseRole} {role : PhaseRole}

theorem Assigned.refl (p : Project) (t : ObjectId) (owner : String) : p.Assigned p t owner [] where
  phases := (assignRoles_nil owner _).symm
  target a ha := by
    rw [ha]
    exact congrArg (fun rs => some (Content.target { a with buildPhases := rs }))
      (List.append_nil _).symm
  others _ _ _ h _ := h
  ids := (List.append_nil _).symm
  rest := rfl

/-- Each role is that of the only phase in its place. -/
theorem Assigned.single (h : p.Assigned q t owner roles) (hq : q.WellFormed) (ho : q.Owned)
    (ha : q.content? t = some (.target a)) (hapart : roles.Pairwise fun r r' => r.place ≠ r'.place)
    (hrole : role ∈ roles) :
    ∃ x, (q.phasesIn t).filter (fun x => x.content.role.place = role.place) = [x] ∧
      x.content.role = role := by
  obtain ⟨x, hx, hxrole⟩ := exists_mem_assignRoles hapart hrole
  rw [← h.phases] at hx
  refine ⟨x, ?_, hxrole⟩
  rw [← hxrole]
  exact filter_eq_singleton_of_nodup (nodup_places hq ho ha) hx

/-- One role is put into its place, and then the others. -/
theorem Assigned.cons (h : p.Assigned q t owner [role]) (h' : q.Assigned r t owner roles)
    (hapart : ∀ new ∈ roles, new.place ≠ role.place) : p.Assigned r t owner (role :: roles) := by
  have hmissing : missingRoles (role :: roles) (p.phasesIn t) =
      missingRoles [role] (p.phasesIn t) ++ missingRoles roles (q.phasesIn t) := by
    rw [h.phases, missingRoles_assignRoles (by simpa using hapart), missingRoles_cons]
  refine ⟨?_, fun a ha => ?_, fun i c hi hc hplaces => ?_, ?_, ?_⟩
  · rw [h'.phases, h.phases, assignRoles_cons hapart]
  · rw [h'.target _ (h.target a ha), hmissing, List.map_append, List.append_assoc]
  · refine h'.others i c hi (h.others i c hi hc ?_) ?_
    · intro x hx hname new hnew
      rw [List.mem_singleton.1 hnew]
      exact hplaces x hx hname role (by simp)
    · exact fun x hx hname new hnew => hplaces x hx hname new (List.mem_cons_of_mem role hnew)
  · rw [h'.ids, h.ids, hmissing, List.map_append, List.append_assoc]
  · rw [h'.rest, h.rest]

/-- A script that is set changes its phase only. -/
theorem content?_script_of_some {u i j : ObjectId} {c : Content} (hi : i ≠ j) (slot : String)
    (script : Script) (hc : p.content? i = some c) :
    ((Step.script u j slot script).apply p).content? i = some c :=
  (Step.content?_apply_of_some hc).trans (congrArg some (if_neg hi))

/-- A part that is attached changes its owner only. -/
theorem content?_attach_of_some {i j : ObjectId} {c : Content} (hi : i ≠ j) (x : Part)
    (hc : p.content? i = some c) : ((Step.attach j x).apply p).content? i = some c :=
  (Step.content?_apply_of_some hc).trans (congrArg some (if_neg hi))

/-- The phase that has a slot takes the script, and stays where it is. -/
theorem phasesIn_apply_script (hp : p.WellFormed) (ho : p.Owned) (ha : p.content? t = some (.target a))
    {x : Identified BuildPhase} (hx : p.PhaseIn t (.inr slot) x) (script : Script)
    (ha' : ((Step.script t x.id slot script).apply p).content? t = some (.target a)) :
    ((Step.script t x.id slot script).apply p).phasesIn t =
      (p.phasesIn t).map (takeRole [.script slot script]) := by
  obtain ⟨hphase, hplace⟩ := hx.content?
  have hmem : x ∈ p.phasesIn t := (mem_phasesIn_iff hp ho ha).2 ⟨hphase, hx.target hp ha⟩
  rw [phasesIn_of_target ha', phasesIn_of_target ha, List.map_filterMap]
  refine List.filterMap_congr fun r hr => ?_
  obtain ⟨q, hq⟩ := hp.phase_of_mem ha hr
  rw [phaseBehind_of_phase hq, Option.map_some]
  by_cases hid : r.id = x.id
  · -- This is the phase in the slot.
    have hrole : q.role.replacedBy [.script slot script] = .script slot script := by
      rw [hid, hphase] at hq
      cases hq
      rw [PhaseRole.replacedBy_cons]
      exact if_pos hplace.symm
    rw [takeRole, hrole, phaseBehind, Step.content?_apply_of_some hq, Step.reviseContent, if_pos hid]
    rfl
  · have hne : (PhaseRole.script slot script).place ≠ q.role.place := by
      intro heq
      have hr' : (⟨r.id, q⟩ : Identified BuildPhase) ∈ p.phasesIn t :=
        (mem_phasesIn hp ha).2 ⟨r, hr, rfl, hq⟩
      exact hid (congrArg Identified.id (eq_of_place_eq hp ho ha hr' hmem (heq.symm.trans hplace.symm)))
    rw [phaseBehind_of_phase (content?_script_of_some hid slot script hq),
      takeRole_of_forall_ne (by simpa using hne)]

/-- A phase that has the slot takes the script. -/
theorem assigned_of_phaseIn (hp : p.WellFormed) (ho : p.Owned) (ha : p.content? t = some (.target a))
    {x : Identified BuildPhase} (hx : p.PhaseIn t (.inr slot) x) (script : Script) :
    p.Assigned ((Step.script t x.id slot script).apply p) t a.name [.script slot script] := by
  obtain ⟨hphase, hplace⟩ := hx.content?
  have hname := hx.target hp ha
  have hmem : x ∈ p.phasesIn t := (mem_phasesIn_iff hp ho ha).2 ⟨hphase, hname⟩
  have hmissing : missingRoles [.script slot script] (p.phasesIn t) = [] := by
    rw [missingRoles_singleton, if_neg fun hfree => hfree x hmem hplace]
  have htarget : t ≠ x.id := by
    rintro rfl
    rw [ha] at hphase
    cases hphase
  have ha' := content?_script_of_some (u := t) htarget slot script ha
  have hnil : p.detached.map (Step.script t x.id slot script).revise = p.detached := by
    rw [hp.detached, List.map_nil]
  refine ⟨?_, ?_, ?_, ?_, ?_⟩
  · rw [assignRoles, hmissing, List.map_nil, List.append_nil, phasesIn_apply_script hp ho ha hx script ha']
  · intro b hb
    rw [ha] at hb
    cases hb
    rw [hmissing, List.map_nil, List.append_nil]
    exact ha'
  · intro i c hi hc hplaces
    refine content?_script_of_some ?_ slot script hc
    rintro rfl
    rw [hphase] at hc
    cases hc
    exact hplaces _ rfl hname (.script slot script) (by simp) hplace
  · rw [hmissing, List.map_nil, List.append_nil, Step.ids_apply]
    exact List.append_nil _
  · show ({ p with objects := _, detached := _ } : Project) = _
    rw [hnil]
    rfl

/-- A new phase comes last. -/
theorem phasesIn_apply_attach (hp : p.WellFormed) (ha : p.content? t = some (.target a))
    (hd : (Step.attach t (.phase a.name role)).Due p)
    (hf : (Step.attach t (.phase a.name role)).Fresh p)
    (ha' : ((Step.attach t (.phase a.name role)).apply p).content? t = some (.target { a with
      buildPhases := a.buildPhases ++ [(Part.phase a.name role).reference] })) :
    ((Step.attach t (.phase a.name role)).apply p).phasesIn t =
      p.phasesIn t ++ [newPhase a.name role] := by
  have hnew : ((Step.attach t (.phase a.name role)).apply p).content?
      (Part.phase a.name role).reference.id = some (.phase { target := a.name, role := role }) :=
    Step.content?_apply_new hp hd hf rfl
  rw [phasesIn_of_target ha', phasesIn_of_target ha, List.filterMap_append]
  congr 1
  · refine List.filterMap_congr fun r hr => ?_
    obtain ⟨q, hq⟩ := hp.phase_of_mem ha hr
    have hne : r.id ≠ t := by
      intro hid
      rw [hid, ha] at hq
      cases hq
    rw [phaseBehind_of_phase (content?_attach_of_some hne _ hq), phaseBehind_of_phase hq]
  · rw [List.filterMap_cons, phaseBehind_of_phase hnew]
    rfl

/-- A slot that no phase has gets a new one. -/
theorem assigned_of_attach (hp : p.WellFormed) (ha : p.content? t = some (.target a))
    (habsent : ∀ ref ∈ a.buildPhases, ∀ q, p.content? ref.id = some (.phase q) →
      q.role.place ≠ role.place)
    (hf : (Step.attach t (.phase a.name role)).Fresh p) :
    p.Assigned ((Step.attach t (.phase a.name role)).apply p) t a.name [role] := by
  have hd : (Step.attach t (.phase a.name role)).Due p := .phase ha habsent
  have hplaces : ∀ x ∈ p.phasesIn t, x.content.role.place ≠ role.place := by
    intro x hx
    obtain ⟨r, hr, hid, hphase⟩ := (mem_phasesIn hp ha).1 hx
    exact habsent r hr _ (hid ▸ hphase)
  have hmissing : missingRoles [role] (p.phasesIn t) = [role] := by
    rw [missingRoles_singleton, if_pos hplaces]
  have hkept : (p.phasesIn t).map (takeRole [role]) = p.phasesIn t := by
    refine (List.map_congr_left fun x hx => ?_).trans (List.map_id' _)
    exact takeRole_of_forall_ne (by simpa using (hplaces x hx).symm)
  have ha' : ((Step.attach t (.phase a.name role)).apply p).content? t = some (.target { a with
      buildPhases := a.buildPhases ++ [(Part.phase a.name role).reference] }) := by
    rw [Step.content?_apply_of_some ha, Step.reviseContent, if_pos rfl]
    rfl
  have hnil : p.detached.map (Step.attach t (.phase a.name role)).revise = p.detached := by
    rw [hp.detached, List.map_nil]
  refine ⟨?_, ?_, ?_, ?_, ?_⟩
  · rw [assignRoles, hmissing, hkept, phasesIn_apply_attach hp ha hd hf ha']
    rfl
  · intro b hb
    rw [ha] at hb
    cases hb
    rw [hmissing]
    exact ha'
  · intro i c hi hc _
    exact content?_attach_of_some hi _ hc
  · rw [hmissing, Step.ids_apply]
    rfl
  · show ({ p with objects := _, detached := _ } : Project) = _
    rw [hnil]
    rfl

/-- If ids tell keys apart, a script can be given to any slot of builds. -/
theorem exists_addScriptPhase (hinj : Function.Injective IdScheme.ofKey) (hp : p.WellFormed)
    (ho : p.Owned) (hfind : p.Findable) (ha : p.content? t = some (.target a)) (hslot : IsBuildSlot slot)
    (script : Script) :
    ∃ q, addScriptPhase t slot script p = .ok () q ∧ p.Assigned q t a.name [.script slot script] := by
  cases hfirst : p.first (Content.phaseAt? (.inr slot)) a.buildPhases with
  | some x =>
    have hx : p.PhaseIn t (.inr slot) x := ⟨a, ha, hfirst⟩
    exact ⟨_, addScriptPhase_of_phaseIn hp hx script, assigned_of_phaseIn hp ho ha hx script⟩
  | none =>
    have habsent : ∀ ref ∈ a.buildPhases, ∀ q, p.content? ref.id = some (.phase q) →
        q.role.place ≠ (PhaseRole.script slot script).place := by
      intro ref href q hq hplace
      obtain ⟨x, hx⟩ := first_of_mem href hq (Content.phaseAt?_eq_some.2 ⟨rfl, hplace⟩)
      rw [show (PhaseRole.script slot script).place = .inr slot from rfl, hfirst] at hx
      cases hx
    have hfree : p.content? (Part.phase a.name (.script slot script)).content.id = none := by
      refine content?_eq_none_of_key_ne hinj hp fun i d => key_ne_of_phase hp ho hfind ha habsent ?_
      rintro s ⟨⟩
      exact hslot
    have hfresh : (Step.attach t (.phase a.name (.script slot script))).Fresh p := by
      rintro c ⟨⟩
      exact hfree
    refine ⟨_, ?_, assigned_of_attach hp ha habsent hfresh⟩
    rw [addScriptPhase_of_none hp ha hfirst]
    refine discard_of_ok (a := (Part.phase a.name (.script slot script)).content.id) ?_
    rw [appendPhase]
    exact (bind_of_ok (register_of_free hfree)).trans rfl

/-! ## The scripts of a stage -/

/-- If ids tell keys apart, the slots of a stage can be given scripts. -/
theorem exists_addScriptsFrom (hinj : Function.Injective IdScheme.ofKey) (hp : p.WellFormed)
    (ho : p.Owned) (hfind : p.Findable) (ha : p.content? t = some (.target a)) {stage : Stage}
    (hstage : stage = .pre ∨ stage = .post) (index : Nat) (scripts : List Script) :
    ∃ q, addScriptsFrom t stage index scripts p = .ok () q ∧
      p.Assigned q t a.name (stage.roles index scripts) := by
  induction scripts generalizing p a index with
  | nil => exact ⟨p, rfl, .refl p t a.name⟩
  | cons script scripts ih =>
    have hslot : ∀ k, IsBuildSlot (scriptSlot stage k) := fun k => .inr ⟨stage, k, hstage, rfl⟩
    obtain ⟨q, hadd, hassigned⟩ := exists_addScriptPhase hinj hp ho hfind ha (hslot index) script
    obtain ⟨hpq, -⟩ := Leads.of_ok (performs_addScriptPhase hp ha _ script) hadd
    have hfind' : q.Findable :=
      (hpq.mono fun _ _ h => (Step.quiet_of_scriptSteps (hslot index) h).orderly).findable hp hfind
    obtain ⟨r, hrest, hassigned'⟩ := ih (hpq.wellFormed hp) (hpq.owned hp ho) hfind'
      (hassigned.target a ha) (index + 1)
    refine ⟨r, (bind_of_ok hadd).trans hrest, ?_⟩
    rw [Stage.roles_cons]
    refine hassigned.cons hassigned' ?_
    have hpairs := Stage.pairwise_roles stage index (script :: scripts)
    rw [Stage.roles_cons, List.pairwise_cons] at hpairs
    exact fun new hnew => (hpairs.1 new hnew).symm

end Project
end ProjectGraph
