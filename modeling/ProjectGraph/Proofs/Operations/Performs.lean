import ProjectGraph.Build.Basic
import ProjectGraph.Proofs.Registry.Path

/-! # Operations as paths

An operation takes a project along a path, whether it fails or not. It fails because of an id that is
taken, or for a reason from outside of the registry: nothing that it reads is missing. Only the check of
a whole project reports problems with it. -/

namespace ProjectGraph

/-- The errors that say nothing of the registered objects. -/
def Error.IsOuter : Error → Prop
  | .endlessDirectory _ | .file _ | .noScriptsDirectory | .repeatedTarget _ => True
  | .invalidProject _ | .invalidTargets _ => True
  | _ => False

/-- The errors that report what is wrong with a whole project. -/
def Error.IsCheck : Error → Prop
  | .invalidProject _ | .invalidTargets _ => True
  | _ => False

theorem Error.IsCheck.isOuter {e : Error} (h : e.IsCheck) : e.IsOuter := by
  cases e <;> trivial

/-- How an operation with allowed steps can fail at a project. -/
inductive Failure [IdScheme] (A : Project → Step → Prop) (q : Project) : Error → Prop
  /-- The id of what comes next is taken. -/
  | clash {s c} (due : s.Due q) (allowed : A q s) (new : s.new? = some c)
      (taken : q.content? c.id ≠ none) : Failure A q (.duplicateId c.id c.key)
  | outer {e} (outer : e.IsOuter) : Failure A q e

theorem Failure.restrict [IdScheme] {A B : Project → Step → Prop} {q : Project} {e : Error}
    (h : Failure A q e) (hAB : ∀ s, s.Due q → A q s → B q s) : Failure B q e := by
  cases h with
  | clash due allowed new taken => exact .clash due (hAB _ due allowed) new taken
  | outer outer => exact .outer outer

theorem Failure.mono [IdScheme] {A B : Project → Step → Prop} {q : Project} {e : Error}
    (hAB : ∀ q s, A q s → B q s) (h : Failure A q e) : Failure B q e :=
  h.restrict fun s _ => hAB q s

/-- The project that a build state holds. -/
def BuildState.project (s : BuildState) : Project := s.workspace.project

/-- The operation takes allowed steps, and its result and its last state have `R`. It checks nothing. -/
def Performs [IdScheme] {σ α : Type} (view : σ → Project) (A : Project → Step → Prop)
    (x : EStateM Error σ α) (s : σ) (R : α → σ → Prop) : Prop :=
  Leads x s (fun a s' => Path A (view s) (view s') ∧ R a s')
    fun e s' => Path A (view s) (view s') ∧ Failure A (view s') e ∧ ¬ e.IsCheck

/-- The operation takes allowed steps, and its result and its last state have `R`. It may check the
project. -/
def Concludes [IdScheme] {σ α : Type} (view : σ → Project) (A : Project → Step → Prop)
    (x : EStateM Error σ α) (s : σ) (R : α → σ → Prop) : Prop :=
  Leads x s (fun a s' => Path A (view s) (view s') ∧ R a s')
    fun e s' => Path A (view s) (view s') ∧ Failure A (view s') e

/-- Whether the operation fails or not, it takes allowed steps, and it fails as it may. -/
theorem Concludes.outcome [IdScheme] {σ α : Type} {view : σ → Project} {A : Project → Step → Prop}
    {x : EStateM Error σ α} {s : σ} {R : α → σ → Prop} (h : Concludes view A x s R) :
    Path A (view s) (view (stateAfter x s)) ∧
      ∀ e, failureOf x s = some e → Failure A (view (stateAfter x s)) e := by
  unfold stateAfter failureOf
  cases hx : x s with
  | ok a s' => exact ⟨(Leads.of_ok h hx).1, by simp⟩
  | error e s' =>
    refine ⟨(Leads.of_error h hx).1, ?_⟩
    rintro _ ⟨⟩
    exact (Leads.of_error h hx).2

namespace Performs

variable [IdScheme] {σ α β : Type} {view : σ → Project} {A B : Project → Step → Prop}
  {x : EStateM Error σ α} {f : α → EStateM Error σ β} {s s' : σ} {a : α} {R R' : α → σ → Prop}
  {S : β → σ → Prop}

/-! ## Rules -/

theorem of_ok (hx : x s = .ok a s) (h : R a s) : Performs view A x s R :=
  Leads.of_eq_ok hx ⟨.refl, h⟩

theorem of_outer {e : Error} (hx : x s = .error e s) (he : e.IsOuter) (hc : ¬ e.IsCheck) :
    Performs view A x s R :=
  Leads.of_eq_error hx ⟨.refl, .outer he, hc⟩

/-- The operation takes one step that registers nothing taken. -/
theorem of_step {u : σ} {t : Step} (hd : t.Due (view s)) (hf : t.Fresh (view s)) (ha : A (view s) t)
    (hx : x s = .ok a u) (hu : view u = t.apply (view s)) (h : R a u) : Performs view A x s R := by
  refine Leads.of_eq_ok hx ⟨?_, h⟩
  rw [hu]
  exact .single hd hf ha

theorem mono (h : Performs view A x s R) (hA : ∀ q t, A q t → B q t)
    (hR : ∀ a s', Path A (view s) (view s') → R a s' → R' a s') : Performs view B x s R' :=
  Leads.mono h (fun a s' h => ⟨h.1.mono hA, hR a s' h.1 h.2⟩) fun _ _ h =>
    ⟨h.1.mono hA, h.2.1.mono hA, h.2.2⟩

theorem weaken (h : Performs view A x s R) (hA : ∀ q t, A q t → B q t) : Performs view B x s R :=
  h.mono hA fun _ _ _ h => h

/-- Where more steps are allowed, it is still known which ones have been taken. -/
theorem widen (h : Performs view A x s R) (hA : ∀ q t, A q t → B q t) :
    Performs view B x s fun a s' => Path A (view s) (view s') ∧ R a s' :=
  h.mono hA fun _ _ hpath hR => ⟨hpath, hR⟩

/-- What is allowed may depend on how far the operation has come. -/
theorem restrict (h : Performs view A x s R)
    (hA : ∀ q t, Path A (view s) q → t.Due q → A q t → B q t) : Performs view B x s R :=
  Leads.mono h (fun _ _ h => ⟨h.1.restrict hA, h.2⟩) fun _ _ h =>
    ⟨h.1.restrict hA, h.2.1.restrict fun t => hA _ t h.1, h.2.2⟩

theorem bind (hx : Performs view A x s R)
    (hf : ∀ a s', Path A (view s) (view s') → R a s' → Performs view A (f a) s' S) :
    Performs view A (x >>= f) s S := by
  refine Leads.bind hx fun a s' h => ?_
  exact Leads.mono (hf a s' h.1 h.2) (fun _ _ h' => ⟨h.1.trans h'.1, h'.2⟩)
    fun _ _ h' => ⟨h.1.trans h'.1, h'.2⟩

/-- What is only read takes no step. -/
theorem bind_read (hx : x s = .ok a s) (hf : Performs view A (f a) s S) :
    Performs view A (x >>= f) s S :=
  Leads.bind_read hx hf

theorem map {g : α → β} (hx : Performs view A x s R) (hS : ∀ a s', R a s' → S (g a) s') :
    Performs view A (g <$> x) s S := by
  cases hxs : x s with
  | ok a s' =>
    have h := Leads.of_ok hx hxs
    exact Leads.of_eq_ok (map_of_ok hxs) ⟨h.1, hS a s' h.2⟩
  | error e s' =>
    exact Leads.of_eq_error (map_of_error hxs) (Leads.of_error hx hxs)

theorem discard (hx : Performs view A x s R) : Performs view A (discard x) s fun _ s' => ∃ a, R a s' :=
  hx.map fun a _ h => ⟨a, h⟩

/-- Each round of a loop brings about what lasts during the later rounds. -/
theorem forM {xs : List β} {f : β → EStateM Error σ PUnit} {K : β → σ → Prop}
    (hround : ∀ y ∈ xs, ∀ s', Path A (view s) (view s') → Performs view A (f y) s' fun _ => K y)
    (hlast : ∀ y s' s'', Path A (view s) (view s') → K y s' → Path A (view s') (view s'') → K y s'') :
    Performs view A (xs.forM f) s fun _ s' => ∀ y ∈ xs, K y s' := by
  induction xs generalizing s with
  | nil => exact .of_ok (a := ⟨⟩) rfl (by simp)
  | cons y ys ih =>
    show Performs view A (f y >>= fun _ => ys.forM f) s _
    refine (hround y (by simp) s .refl).bind fun _ s₁ h₁ hy => ?_
    have hrest := ih (s := s₁)
      (fun z hz s' h => hround z (List.mem_cons_of_mem y hz) s' (h₁.trans h))
      fun z s' s'' h => hlast z s' s'' (h₁.trans h)
    refine hrest.mono (fun _ _ h => h) fun _ s₂ h₂ hys => ?_
    intro z hz
    rcases List.mem_cons.1 hz with rfl | hz
    · exact hlast z s₁ s₂ h₁ hy h₂
    · exact hys z hz

theorem concludes (h : Performs view A x s R) : Concludes view A x s R :=
  Leads.mono h (fun _ _ h => h) fun _ _ h => ⟨h.1, h.2.1⟩

theorem outcome (h : Performs view A x s R) :
    Path A (view s) (view (stateAfter x s)) ∧
      ∀ e, failureOf x s = some e → Failure A (view (stateAfter x s)) e :=
  h.concludes.outcome

theorem not_isCheck (h : Performs view A x s R) {e : Error} (he : failureOf x s = some e) :
    ¬ e.IsCheck := by
  unfold failureOf at he
  cases hx : x s with
  | ok a s' =>
    rw [hx] at he
    cases he
  | error e' s' =>
    rw [hx] at he
    cases he
    exact (Leads.of_error h hx).2.2

end Performs

/-- The edit takes allowed steps, and its result and the project after it have `R`. -/
abbrev Edit.Performs [IdScheme] {α : Type} (A : Project → Step → Prop) (x : Edit α) (p : Project)
    (R : α → Project → Prop) : Prop :=
  ProjectGraph.Performs (fun p => p) A x p R

/-- The build takes allowed steps, and its result and the state after it have `R`. -/
abbrev Build.Performs [IdScheme] {α : Type} (A : Project → Step → Prop) (x : Build α)
    (s : BuildState) (R : α → BuildState → Prop) : Prop :=
  ProjectGraph.Performs BuildState.project A x s R

/-! ## Edits in a build -/

theorem Build.edit_eq {α : Type} (x : Edit α) (s : BuildState) :
    Build.edit x s =
      match x s.project with
      | .ok a p => .ok a { s with workspace.project := p }
      | .error e p => .error e { s with workspace.project := p } :=
  rfl

section

variable {α : Type} {x : Edit α} {s : BuildState} {q : Project} {a : α} {e : Error}

theorem Build.edit_of_eq_ok (h : x s.project = .ok a q) :
    Build.edit x s = .ok a { s with workspace.project := q } := by
  rw [edit_eq, h]

theorem Build.edit_of_eq_error (h : x s.project = .error e q) :
    Build.edit x s = .error e { s with workspace.project := q } := by
  rw [edit_eq, h]

end

/-- An edit as a part of a build takes the same steps, and changes nothing but the project. -/
theorem Edit.Performs.edit [IdScheme] {α : Type} {A : Project → Step → Prop} {x : Edit α}
    {s : BuildState} {R : α → Project → Prop} (h : Edit.Performs A x s.project R) :
    Build.Performs A (Build.edit x) s fun a s' =>
      R a s'.project ∧ s' = { s with workspace.project := s'.project } := by
  cases hx : x s.project with
  | ok a p =>
    have hleads := Leads.of_ok h hx
    exact Leads.of_eq_ok (Build.edit_of_eq_ok hx) ⟨hleads.1, hleads.2, rfl⟩
  | error e p => exact Leads.of_eq_error (Build.edit_of_eq_error hx) (Leads.of_error h hx)

/-! ## Registering -/

namespace Project

variable [IdScheme] {p : Project} {c : Content}

theorem register_of_free (h : p.content? c.id = none) :
    register c p = .ok c.id { p with objects := p.objects ++ [c.object] } := by
  rw [register, find?_eq_none_iff.2 h]

theorem register_of_taken (h : p.content? c.id ≠ none) :
    register c p = .error (.duplicateId c.id c.key) p := by
  obtain ⟨d, hd⟩ := Option.ne_none_iff_exists'.1 h
  obtain ⟨o, ho, -⟩ := exists_find?_of_content? hd
  rw [register, ho]

end Project

/-- Registering the new content and doing the rest of a step is taking the step, unless the id is
taken. -/
theorem Edit.performs_register [IdScheme] {A : Project → Step → Prop} {s : Step} {c : Content}
    {p : Project} {β : Type} {f : ObjectId → Edit β} {b : β} {R : β → Project → Prop} (hd : s.Due p)
    (ha : A p s) (hc : s.new? = some c)
    (hf : f c.id { p with objects := p.objects ++ [c.object] } = .ok b (s.apply p))
    (hR : s.Fresh p → R b (s.apply p)) : Edit.Performs A (Project.register c >>= f) p R := by
  by_cases hfree : p.content? c.id = none
  · have hfresh : s.Fresh p := by
      intro d hd
      rw [hc] at hd
      cases hd
      exact hfree
    refine .of_step hd hfresh ha ?_ rfl (hR hfresh)
    rw [bind_of_ok (Project.register_of_free hfree)]
    exact hf
  · exact Leads.of_eq_error (bind_of_error (Project.register_of_taken hfree))
      ⟨.refl, .clash hd ha hc hfree, id⟩

end ProjectGraph
