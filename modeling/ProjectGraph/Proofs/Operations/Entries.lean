import ProjectGraph.Proofs.Operations.Scripts

/-! # Entries for scripts

A target lists its phases by references. The reference to a phase that runs a script is made with the
name of the script as its comment, and stays as it is while the phase is given other scripts. -/

namespace ProjectGraph

/-- The target lists the reference, which leads to the phase that runs the script in the slot. -/
def Project.ScriptEntry (p : Project) (t : ObjectId) (r : Reference) (slot : String)
    (script : Script) : Prop :=
  ∃ a x, p.content? t = some (.target a) ∧ r ∈ a.buildPhases ∧ p.content? r.id = some (.phase x) ∧
    x.role = .script slot script

/-- An entry stays, and its phase in its slot. -/
theorem Project.ScriptEntry.grows {p q : Project} {t : ObjectId} {r : Reference} {slot : String}
    {script : Script} (h : p.ScriptEntry t r slot script) (hpq : p.Grows q) :
    ∃ new, q.ScriptEntry t r slot new := by
  obtain ⟨a, x, ha, hr, hx, hrole⟩ := h
  obtain ⟨b, hb, -, -, hphases, -⟩ := hpq.target ha
  obtain ⟨y, hy, -, hplace, -⟩ := hpq.phase hx
  rw [hrole] at hplace
  cases hy' : y.role with
  | files kind =>
    rw [hy'] at hplace
    cases hplace
  | script slot' new =>
    rw [hy'] at hplace
    cases hplace
    exact ⟨new, b, y, hb, hphases.subset hr, hy, hy'⟩

namespace Step

variable [IdScheme] {p : Project} {s : Step} {t : ObjectId} {r : Reference} {slot : String}
  {script : Script}

/-- The step gives the slot of a target of this name the script. -/
def Gives (p : Project) (s : Step) (name slot : String) (script : Script) : Prop :=
  (∃ i, s = .attach i (.phase name (.script slot script))) ∨
    ∃ t a i, s = .script t i slot script ∧ p.content? t = some (.target a) ∧ a.name = name

/-- What a step makes of a phase that runs a script: the phase goes on running it, or the step gives
the slot another one. -/
theorem script_of_reviseContent (hp : p.WellFormed) (hd : s.Due p) {a : NativeTarget}
    (ha : p.content? t = some (.target a)) (hr : r ∈ a.buildPhases) {x y : BuildPhase}
    (hx : p.content? r.id = some (.phase x)) (hy : s.reviseContent r.id (.phase x) = .phase y)
    (hrole : y.role = .script slot script) :
    ∃ old, x.role = .script slot old ∧ (script = old ∨ s.Gives p a.name slot script) := by
  rcases role_reviseContent hy with hsame | ⟨u, slot', new, rfl, hnew⟩
  · exact ⟨script, hsame.symm.trans hrole, .inl rfl⟩
  · rw [hnew] at hrole
    cases hrole
    cases hd with
    | @script _ b _ x' _ _ target listed phase place =>
      rw [hx] at phase
      cases phase
      -- Both targets list the phase, so they have the name that it tells.
      obtain ⟨r', hr', hid⟩ := listed
      have howner := hp.phases u b target r' hr' x (hid ▸ hx)
      have hname := hp.phases t a ha r hr x hx
      have hgives : (Step.script u r.id slot script).Gives p a.name slot script :=
        .inr ⟨u, b, r.id, rfl, target, howner.symm.trans hname⟩
      cases hold : x.role with
      | files kind =>
        rw [hold] at place
        cases place
      | script slot' old =>
        rw [hold] at place
        cases place
        exact ⟨old, rfl, .inr hgives⟩

/-- An entry for a script after a step was there before, or the step makes it with the name of the
script. -/
theorem scriptEntry_apply (hp : p.WellFormed) (hd : s.Due p) (hf : s.Fresh p) {b : NativeTarget}
    (hb : (s.apply p).content? t = some (.target b)) (h : (s.apply p).ScriptEntry t r slot script) :
    (∃ old, p.ScriptEntry t r slot old ∧ (script = old ∨ s.Gives p b.name slot script)) ∨
      (s.Gives p b.name slot script ∧ r.comment = some script.name) := by
  obtain ⟨b', y, hb', hr, hy, hrole⟩ := h
  rw [hb] at hb'
  cases hb'
  have hl : ⟨.buildPhase, r⟩ ∈ (Content.target b).links := by simp [Content.links, hr]
  rcases link_apply_cases hp hd hf hb hl with ⟨c, hc, hgrow, hl | hl⟩ | hnew
  · cases hgrow with
    | @target a _ hname =>
      have hr : r ∈ a.buildPhases := by simpa [Content.links] using hl
      obtain ⟨x, hx⟩ := hp.phase_of_mem hc hr
      have hrevised := content?_apply_of_some (s := s) hx
      rw [hy] at hrevised
      obtain ⟨old, hold, hgives⟩ :=
        script_of_reviseContent hp hd hc hr hx (Option.some.inj hrevised).symm hrole
      exact .inl ⟨old, ⟨a, x, hc, hr, hx, hold⟩, by rwa [hname]⟩
  · have hnew : ∀ c, s.new? = some c → (s.apply p).content? c.id = some c := fun c hc =>
      content?_apply_new hp hd hf hc
    cases hd with
    | @phase j a role target =>
      cases hl
      rw [target] at hc
      cases hc
      have hphase := hnew _ rfl
      change (Step.apply _ p).content? (Part.phase a.name role).reference.id = _ at hphase
      rw [hy] at hphase
      cases hphase
      obtain rfl : role = .script slot script := hrole
      cases hgrow with
      | target hname => exact .inr ⟨.inl ⟨t, by rw [hname]⟩, rfl⟩
    | _ => cases hl
  · cases hd with
    | target =>
      cases hnew
      cases hr
    | _ => cases hnew

end Step

/-- Steps of these kinds give the slot of a target scripts of one name only. -/
def GivesOneName [IdScheme] (A : Project → Step → Prop) : Prop :=
  ∀ p s q s' name slot script script', A p s → A q s' → s.Gives p name slot script →
    s'.Gives q name slot script' → script'.name = script.name

namespace Path

variable [IdScheme] {A : Project → Step → Prop} {p q : Project} {t : ObjectId} {r : Reference}
  {slot : String} {script : Script}

/-- On a path on which slots are given scripts of one name, a new entry says the name of a script that
its slot has been given. -/
theorem gives_of_scriptEntry (hpq : Path A p q) (hp : p.WellFormed) (hA : GivesOneName A)
    {b : NativeTarget} (hb : q.content? t = some (.target b)) (h : q.ScriptEntry t r slot script) :
    (r.comment = some script.name ∧
      ∃ q' s first, A q' s ∧ s.Gives q' b.name slot first ∧ first.name = script.name) ∨
      ∃ old, p.ScriptEntry t r slot old := by
  induction hpq generalizing script b with
  | refl => exact .inr ⟨script, h⟩
  | @step q s path due fresh allowed ih =>
    have hq := path.wellFormed hp
    rcases Step.scriptEntry_apply hq due fresh hb h with ⟨old, hold, hgives⟩ | ⟨hgives, hcomment⟩
    · have hentry := hold
      obtain ⟨a, x, ha, -⟩ := hold
      obtain ⟨b', hb', hname, -⟩ := (Step.grows_apply due).target ha
      rw [hb] at hb'
      cases hb'
      refine (ih ha hentry).imp_left ?_
      rintro ⟨hcomment, q', s', first, hs', hfirst, hsame⟩
      rw [← hname] at hfirst
      rcases hgives with rfl | hgives
      · exact ⟨hcomment, q', s', first, hs', hfirst, hsame⟩
      · have hlast := hA q' s' q s b.name slot first script hs' allowed hfirst hgives
        exact ⟨by rw [hcomment, ← hsame, hlast], q', s', first, hs', hfirst, hlast.symm⟩
    · exact .inl ⟨hcomment, q, s, script, allowed, hgives, rfl⟩

/-- The entries after such a path were there before, or say the name of their script. -/
theorem scriptEntry_cases (hpq : Path A p q) (hp : p.WellFormed) (hA : GivesOneName A)
    (h : q.ScriptEntry t r slot script) :
    r.comment = some script.name ∨ ∃ old, p.ScriptEntry t r slot old := by
  have hentry := h
  obtain ⟨b, x, hb, -⟩ := h
  exact (hpq.gives_of_scriptEntry hp hA hb hentry).imp_left fun h => h.1

end Path
end ProjectGraph
