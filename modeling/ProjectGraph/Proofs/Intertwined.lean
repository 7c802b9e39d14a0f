import ProjectGraph.Proofs.Outcome

/-! # Operations at a changed state

An operation does not depend on what a change of the state touches if running it after the change is the
same as changing what it leads to. It is then enough to know one of the two runs. -/

namespace ProjectGraph

variable {ε σ α β γ δ : Type} {φ : σ → σ}

/-- What an operation has led to, with the value and the state changed. -/
def mapResult (g : α → β) (φ : σ → σ) : EStateM.Result ε σ α → EStateM.Result ε σ β
  | .ok a s => .ok (g a) (φ s)
  | .error e s => .error e (φ s)

/-- At the changed state, the second operation leads to what the first one leads to, changed. -/
def Intertwined (φ : σ → σ) (g : α → β) (x : EStateM ε σ α) (y : EStateM ε σ β) : Prop :=
  ∀ s, y (φ s) = mapResult g φ (x s)

namespace Intertwined

variable {g : α → β} {h : γ → δ} {x : EStateM ε σ α} {y : EStateM ε σ β} {k : α → EStateM ε σ γ}
  {l : β → EStateM ε σ δ}

theorem pure (a : α) : Intertwined φ g (pure a : EStateM ε σ α) (pure (g a)) := fun _ => rfl

theorem throw (e : ε) : Intertwined φ g (throw e : EStateM ε σ α) (throw e) := fun _ => rfl

theorem get : Intertwined φ φ (get : EStateM ε σ σ) get := fun _ => rfl

theorem modify {f : σ → σ} (hf : ∀ s, f (φ s) = φ (f s)) :
    Intertwined φ (fun a => a) (modify f : EStateM ε σ PUnit) (modify f) := fun s =>
  congrArg (EStateM.Result.ok PUnit.unit) (hf s)

theorem bind (hx : Intertwined φ g x y) (hk : ∀ a, Intertwined φ h (k a) (l (g a))) :
    Intertwined φ h (x >>= k) (y >>= l) := by
  intro s
  cases hs : x s with
  | ok a s' =>
    have hy : y (φ s) = .ok (g a) (φ s') := by rw [hx, hs, mapResult]
    rw [bind_of_ok hs, bind_of_ok hy, hk a s']
  | error e s' =>
    have hy : y (φ s) = .error e (φ s') := by rw [hx, hs, mapResult]
    rw [bind_of_error hs, bind_of_error hy, mapResult]

/-- The second operations get what the first ones return. -/
theorem bind_id {x y : EStateM ε σ α} {k : α → EStateM ε σ γ} {l : α → EStateM ε σ δ}
    (hx : Intertwined φ (fun a => a) x y) (hk : ∀ a, Intertwined φ h (k a) (l a)) :
    Intertwined φ h (x >>= k) (y >>= l) := hx.bind hk

theorem discard (hx : Intertwined φ g x y) : Intertwined φ (fun a => a) (discard x) (discard y) := by
  rw [discard_eq_bind, discard_eq_bind]
  exact hx.bind fun _ => .pure ()

theorem forM {xs : List α} {f : α → EStateM ε σ PUnit} (h : ∀ a ∈ xs, Intertwined φ (fun a => a) (f a) (f a)) :
    Intertwined φ (fun a => a) (xs.forM f) (xs.forM f) := by
  induction xs with
  | nil => exact .pure _
  | cons a xs ih =>
    exact (h a List.mem_cons_self).bind fun _ => ih fun b hb => h b (List.mem_cons_of_mem a hb)

theorem mapM {xs : List γ} {f : γ → EStateM ε σ α} {f' : γ → EStateM ε σ β}
    (h : ∀ c, Intertwined φ g (f c) (f' c)) : Intertwined φ (List.map g) (xs.mapM f) (xs.mapM f') := by
  induction xs with
  | nil =>
    rw [List.mapM_nil, List.mapM_nil]
    exact .pure []
  | cons c xs ih =>
    rw [List.mapM_cons, List.mapM_cons]
    exact (h c).bind fun _ => ih.bind fun _ => .pure _

end Intertwined

theorem stateAfter_of_mapResult {x : EStateM ε σ α} {y : EStateM ε σ β} {g : β → α} {s : σ}
    (h : x s = mapResult g φ (y s)) : stateAfter x s = φ (stateAfter y s) := by
  rw [stateAfter, stateAfter, h]
  cases y s <;> rfl

/-- Two operations that end alike: with the same value or the same error, and in related states. -/
inductive EndsAlike (J : σ → σ → Prop) : EStateM.Result ε σ α → EStateM.Result ε σ α → Prop
  | ok {a : α} {s u : σ} (related : J s u) : EndsAlike J (.ok a s) (.ok a u)
  | error {e : ε} {s u : σ} (related : J s u) : EndsAlike J (.error e s) (.error e u)

/-- What has been changed ends like what it has been changed from. -/
theorem endsAlike_mapResult {J : σ → σ → Prop} {x : EStateM ε σ α} {s : σ}
    (h : J (stateAfter x s) (φ (stateAfter x s))) : EndsAlike J (x s) (mapResult (fun a => a) φ (x s)) := by
  unfold stateAfter at h
  cases hx : x s with
  | ok a s' =>
    rw [hx] at h
    exact .ok h
  | error e s' =>
    rw [hx] at h
    exact .error h

end ProjectGraph
