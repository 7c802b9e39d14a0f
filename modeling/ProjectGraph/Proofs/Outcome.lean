/-! # Outcomes

An operation that can fail leads to a value or to an error, and to a state in both cases. Two
conditions tell what is known of them. -/

namespace ProjectGraph

variable {ε σ α β : Type}

/-- The operation leads to a value and a state with `Q`, or to an error and a state with `E`. -/
structure Leads (x : EStateM ε σ α) (s : σ) (Q : α → σ → Prop) (E : ε → σ → Prop) : Prop where
  of_ok : ∀ {a s'}, x s = .ok a s' → Q a s'
  of_error : ∀ {e s'}, x s = .error e s' → E e s'

/-- The state in which an operation ends, whether it fails or not. -/
def stateAfter (x : EStateM ε σ α) (s : σ) : σ :=
  match x s with
  | .ok _ s' => s'
  | .error _ s' => s'

/-- The error with which an operation ends, if it fails. -/
def failureOf (x : EStateM ε σ α) (s : σ) : Option ε :=
  match x s with
  | .ok _ _ => none
  | .error e _ => some e

section

variable {x : EStateM ε σ α} {s s' : σ} {a : α} {e : ε}

theorem stateAfter_of_ok (h : x s = .ok a s') : stateAfter x s = s' := by
  rw [stateAfter, h]

theorem stateAfter_of_error (h : x s = .error e s') : stateAfter x s = s' := by
  rw [stateAfter, h]

theorem failureOf_of_ok (h : x s = .ok a s') : failureOf x s = none := by
  rw [failureOf, h]

theorem failureOf_of_error (h : x s = .error e s') : failureOf x s = some e := by
  rw [failureOf, h]

/-- An operation that does not fail leads to a value. -/
theorem exists_of_failureOf_eq_none (h : failureOf x s = none) : ∃ a, x s = .ok a (stateAfter x s) := by
  unfold failureOf stateAfter at *
  cases hx : x s with
  | ok a s' => exact ⟨a, rfl⟩
  | error e s' =>
    rw [hx] at h
    cases h

end

/-! ## Running operations one after the other -/

theorem bind_of_ok {x : EStateM ε σ α} {f : α → EStateM ε σ β} {s s' : σ} {a : α}
    (h : x s = .ok a s') : (x >>= f) s = f a s' := by
  show EStateM.bind x f s = f a s'
  rw [EStateM.bind, h]

theorem bind_of_error {x : EStateM ε σ α} {f : α → EStateM ε σ β} {s s' : σ} {e : ε}
    (h : x s = .error e s') : (x >>= f) s = .error e s' := by
  show EStateM.bind x f s = .error e s'
  rw [EStateM.bind, h]

theorem get_bind (f : σ → EStateM ε σ β) (s : σ) : (get >>= f) s = f s s :=
  rfl

/-- An operation that succeeds has succeeded in its first part. -/
theorem exists_of_bind_eq_ok {x : EStateM ε σ α} {f : α → EStateM ε σ β} {s s'' : σ} {b : β}
    (h : (x >>= f) s = .ok b s'') : ∃ a s', x s = .ok a s' ∧ f a s' = .ok b s'' := by
  cases hx : x s with
  | ok a s' => exact ⟨a, s', rfl, by rwa [bind_of_ok hx] at h⟩
  | error e s' =>
    rw [bind_of_error hx] at h
    cases h

theorem stateAfter_bind_of_ok {x : EStateM ε σ α} {f : α → EStateM ε σ β} {s s' : σ} {a : α}
    (h : x s = .ok a s') : stateAfter (x >>= f) s = stateAfter (f a) s' := by
  rw [stateAfter, bind_of_ok h, stateAfter]

theorem stateAfter_bind_of_error {x : EStateM ε σ α} {f : α → EStateM ε σ β} {s s' : σ} {e : ε}
    (h : x s = .error e s') : stateAfter (x >>= f) s = s' :=
  stateAfter_of_error (bind_of_error h)

theorem failureOf_bind_of_ok {x : EStateM ε σ α} {f : α → EStateM ε σ β} {s s' : σ} {a : α}
    (h : x s = .ok a s') : failureOf (x >>= f) s = failureOf (f a) s' := by
  rw [failureOf, bind_of_ok h, failureOf]

theorem failureOf_bind_of_error {x : EStateM ε σ α} {f : α → EStateM ε σ β} {s s' : σ} {e : ε}
    (h : x s = .error e s') : failureOf (x >>= f) s = some e :=
  failureOf_of_error (bind_of_error h)

theorem map_of_ok {x : EStateM ε σ α} {f : α → β} {s s' : σ} {a : α} (h : x s = .ok a s') :
    (f <$> x) s = .ok (f a) s' := by
  show EStateM.map f x s = .ok (f a) s'
  rw [EStateM.map, h]

theorem map_of_error {x : EStateM ε σ α} {f : α → β} {s s' : σ} {e : ε} (h : x s = .error e s') :
    (f <$> x) s = .error e s' := by
  show EStateM.map f x s = .error e s'
  rw [EStateM.map, h]

theorem stateAfter_map (f : α → β) (x : EStateM ε σ α) (s : σ) :
    stateAfter (f <$> x) s = stateAfter x s := by
  cases h : x s with
  | ok a s' => rw [stateAfter_of_ok h, stateAfter_of_ok (map_of_ok h)]
  | error e s' => rw [stateAfter_of_error h, stateAfter_of_error (map_of_error h)]

theorem failureOf_map (f : α → β) (x : EStateM ε σ α) (s : σ) :
    failureOf (f <$> x) s = failureOf x s := by
  cases h : x s with
  | ok a s' => rw [failureOf_of_ok h, failureOf_of_ok (map_of_ok h)]
  | error e s' => rw [failureOf_of_error h, failureOf_of_error (map_of_error h)]

theorem exists_of_map_eq_ok {x : EStateM ε σ α} {f : α → β} {s s' : σ} {b : β}
    (h : (f <$> x) s = .ok b s') : ∃ a, x s = .ok a s' ∧ f a = b := by
  cases hx : x s with
  | ok a s'' =>
    rw [map_of_ok hx] at h
    cases h
    exact ⟨a, rfl, rfl⟩
  | error e s'' =>
    rw [map_of_error hx] at h
    cases h

theorem discard_of_ok {x : EStateM ε σ α} {s s' : σ} {a : α} (h : x s = .ok a s') :
    (discard x) s = .ok () s' :=
  map_of_ok h

theorem discard_of_error {x : EStateM ε σ α} {s s' : σ} {e : ε} (h : x s = .error e s') :
    (discard x) s = .error e s' :=
  map_of_error h

theorem exists_of_discard_eq_ok {x : EStateM ε σ α} {s s' : σ} {u : PUnit}
    (h : (discard x) s = .ok u s') : ∃ a, x s = .ok a s' := by
  obtain ⟨a, ha, -⟩ := exists_of_map_eq_ok (f := fun _ => PUnit.unit) h
  exact ⟨a, ha⟩

theorem discard_eq_bind (x : EStateM ε σ α) : discard x = x >>= fun _ => pure () :=
  (bind_pure_comp (fun _ => ()) x).symm

/-- A loop whose every round leaves the state alone leaves it alone. -/
theorem forM_of_ok {f : α → EStateM ε σ PUnit} {xs : List α} {s : σ}
    (h : ∀ x ∈ xs, f x s = .ok ⟨⟩ s) : xs.forM f s = .ok ⟨⟩ s := by
  induction xs with
  | nil => rfl
  | cons x xs ih =>
    show (f x >>= fun _ => xs.forM f) s = .ok ⟨⟩ s
    rw [bind_of_ok (h x (by simp))]
    exact ih fun y hy => h y (List.mem_cons_of_mem x hy)

/-! ## Reasoning about outcomes -/

namespace Leads

variable {x : EStateM ε σ α} {s : σ} {Q Q' : α → σ → Prop} {E E' : ε → σ → Prop}

theorem of_eq_ok {a : α} {s' : σ} (hx : x s = .ok a s') (h : Q a s') : Leads x s Q E where
  of_ok h' := by
    rw [hx] at h'
    cases h'
    exact h
  of_error h' := by
    rw [hx] at h'
    cases h'

theorem of_eq_error {e : ε} {s' : σ} (hx : x s = .error e s') (h : E e s') : Leads x s Q E where
  of_ok h' := by
    rw [hx] at h'
    cases h'
  of_error h' := by
    rw [hx] at h'
    cases h'
    exact h

/-- What is known of an operation is known of another one that does the same. -/
theorem congr {y : EStateM ε σ α} (heq : x s = y s) (h : Leads y s Q E) : Leads x s Q E where
  of_ok h' := h.of_ok (heq ▸ h')
  of_error h' := h.of_error (heq ▸ h')

theorem mono (h : Leads x s Q E) (hQ : ∀ a s', Q a s' → Q' a s') (hE : ∀ e s', E e s' → E' e s') :
    Leads x s Q' E' where
  of_ok h' := hQ _ _ (h.of_ok h')
  of_error h' := hE _ _ (h.of_error h')

/-- What two accounts of an operation tell holds together. -/
theorem and (h : Leads x s Q E) (h' : Leads x s Q' E') :
    Leads x s (fun a s' => Q a s' ∧ Q' a s') fun e s' => E e s' ∧ E' e s' where
  of_ok hx := ⟨h.of_ok hx, h'.of_ok hx⟩
  of_error hx := ⟨h.of_error hx, h'.of_error hx⟩

theorem bind {R : β → σ → Prop} {f : α → EStateM ε σ β} (h : Leads x s Q E)
    (hf : ∀ a s', Q a s' → Leads (f a) s' R E) : Leads (x >>= f) s R E := by
  cases hx : x s with
  | ok a s' =>
    have hfa := hf a s' (h.of_ok hx)
    constructor
    · intro b s'' hb
      rw [bind_of_ok hx] at hb
      exact hfa.of_ok hb
    · intro e s'' he
      rw [bind_of_ok hx] at he
      exact hfa.of_error he
  | error e s' => exact of_eq_error (bind_of_error hx) (h.of_error hx)

/-- What is known of the second operation is known of both if the first one only reads. -/
theorem bind_read {R : β → σ → Prop} {a : α} {f : α → EStateM ε σ β} (hx : x s = .ok a s)
    (h : Leads (f a) s R E) : Leads (x >>= f) s R E where
  of_ok h' := by
    rw [bind_of_ok hx] at h'
    exact h.of_ok h'
  of_error h' := by
    rw [bind_of_ok hx] at h'
    exact h.of_error h'

end Leads
end ProjectGraph
