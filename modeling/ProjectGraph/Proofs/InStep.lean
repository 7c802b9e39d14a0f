import ProjectGraph.Proofs.Outcome

/-! # Two runs of an operation

Two runs of one operation from two states are in step if they return the same and end in states that
are related again, provided that both of them succeed. -/

namespace ProjectGraph

variable {ε σ α β : Type} {J J' : σ → σ → Prop} {x : EStateM ε σ α} {f : α → EStateM ε σ β}
  {s s' u u' : σ} {a : α}

/-- If both runs of the operation succeed, they return the same, and `J` holds of their states. -/
def InStep (J : σ → σ → Prop) (x : EStateM ε σ α) (s u : σ) : Prop :=
  ∀ a s' b u', x s = .ok a s' → x u = .ok b u' → a = b ∧ J s' u'

namespace InStep

theorem of_ok (hs : x s = .ok a s') (hu : x u = .ok a u') (h : J s' u') : InStep J x s u := by
  intro b s₁ c u₁ hs₁ hu₁
  rw [hs] at hs₁
  rw [hu] at hu₁
  cases hs₁
  cases hu₁
  exact ⟨rfl, h⟩

theorem pure (a : α) (h : J s u) : InStep J (pure a : EStateM ε σ α) s u :=
  of_ok rfl rfl h

/-- A run that fails is in step with any other one. -/
theorem of_error {e : ε} (hs : x s = .error e s') : InStep J x s u := by
  intro a s₁ b u₁ hs₁
  rw [hs] at hs₁
  cases hs₁

/-- Runs are in step if the ones of another operation are that do the same. -/
theorem congr {y : EStateM ε σ α} (hs : x s = y s) (hu : x u = y u) (h : InStep J y s u) :
    InStep J x s u := by
  intro a s' b u' hs' hu'
  exact h a s' b u' (hs ▸ hs') (hu ▸ hu')

/-- What is known of each of the runs can be used for their relation. -/
theorem mono (h : InStep J x s u)
    (hJ : ∀ a s' u', x s = .ok a s' → x u = .ok a u' → J s' u' → J' s' u') : InStep J' x s u := by
  intro a s' b u' hs hu
  obtain ⟨rfl, h⟩ := h a s' b u' hs hu
  exact ⟨rfl, hJ a s' u' hs hu h⟩

theorem bind (hx : InStep J x s u)
    (hf : ∀ a s' u', x s = .ok a s' → x u = .ok a u' → J s' u' → InStep J' (f a) s' u') :
    InStep J' (x >>= f) s u := by
  intro b s'' c u'' hs hu
  obtain ⟨a, s', hxs, hfs⟩ := exists_of_bind_eq_ok hs
  obtain ⟨a', u', hxu, hfu⟩ := exists_of_bind_eq_ok hu
  obtain ⟨rfl, hJ⟩ := hx a s' a' u' hxs hxu
  exact hf a s' u' hxs hxu hJ b s'' c u'' hfs hfu

/-- What is only read, with the same result, keeps the runs where they are. -/
theorem bind_read (hs : x s = .ok a s) (hu : x u = .ok a u) (hf : InStep J (f a) s u) :
    InStep J (x >>= f) s u := by
  intro b s' c u' hs' hu'
  rw [bind_of_ok hs] at hs'
  rw [bind_of_ok hu] at hu'
  exact hf b s' c u' hs' hu'

theorem map (hx : InStep J x s u) (g : α → β) : InStep J (g <$> x) s u := by
  intro b s' c u' hs hu
  obtain ⟨a, hxs, rfl⟩ := exists_of_map_eq_ok hs
  obtain ⟨a', hxu, rfl⟩ := exists_of_map_eq_ok hu
  obtain ⟨rfl, hJ⟩ := hx a s' a' u' hxs hxu
  exact ⟨rfl, hJ⟩

theorem discard (hx : InStep J x s u) : InStep J (discard x) s u :=
  hx.map _

/-- A loop is in step if each of its rounds is. -/
theorem forM {xs : List β} {f : β → EStateM ε σ PUnit}
    (hround : ∀ y ∈ xs, ∀ s u, J s u → InStep J (f y) s u) (h : J s u) : InStep J (xs.forM f) s u := by
  induction xs generalizing s u with
  | nil => exact .pure _ h
  | cons y xs ih =>
    refine .bind (hround y (by simp) s u h) fun _ s' u' _ _ h' => ?_
    exact ih (fun z hz => hround z (List.mem_cons_of_mem y hz)) h'

end InStep
end ProjectGraph
