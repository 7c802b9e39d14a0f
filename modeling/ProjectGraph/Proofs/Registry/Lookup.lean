import ProjectGraph.Project.Basic
import ProjectGraph.Proofs.Outcome

/-! # Looking up contents

The registry is read as a partial function from ids to contents. What an operation finds out about a
project follows from the values of this function, and finding it out leaves the project alone. -/

namespace ProjectGraph.Project

variable {α : Type} {p : Project} {i : ObjectId} {o : Object} {c : Content}

/-- The content that is registered under an id. -/
def content? (p : Project) (i : ObjectId) : Option Content := (p.find? i).map Object.content

theorem id_of_find? (h : p.find? i = some o) : o.id = i := by
  have hid := List.find?_some h
  simpa using hid

theorem content?_of_find? (h : p.find? i = some o) : p.content? i = some o.content := by
  rw [content?, h]
  rfl

theorem exists_find?_of_content? (h : p.content? i = some c) :
    ∃ o, p.find? i = some o ∧ o.content = c := by
  simpa [content?] using h

theorem find?_eq_none_iff : p.find? i = none ↔ p.content? i = none := by
  simp [content?]

theorem content?_eq_none_iff : p.content? i = none ↔ ∀ o ∈ p.objects, o.id ≠ i := by
  simp [content?, find?]

theorem mem_ids_iff : i ∈ p.objects.map Object.id ↔ (p.content? i).isSome := by
  rw [← Option.ne_none_iff_isSome, ne_eq, content?_eq_none_iff]
  simp

theorem exists_mem_of_content? (h : p.content? i = some c) :
    ∃ o ∈ p.objects, o.id = i ∧ o.content = c := by
  obtain ⟨o, ho, hc⟩ := exists_find?_of_content? h
  exact ⟨o, List.mem_of_find?_eq_some ho, id_of_find? ho, hc⟩

/-- An item is found by what tells it apart from all others. -/
theorem find?_of_nodup_map {β γ : Type} [DecidableEq γ] {f : β → γ} {items : List β} {b : β}
    (hn : (items.map f).Nodup) (hb : b ∈ items) : items.find? (fun x => f x = f b) = some b := by
  induction items with
  | nil => cases hb
  | cons a items ih =>
    rw [List.map_cons, List.nodup_cons] at hn
    rcases List.mem_cons.1 hb with rfl | hb
    · exact List.find?_cons_of_pos (by simp)
    · have hne : f a ≠ f b := fun h => hn.1 (h ▸ List.mem_map_of_mem hb)
      rw [List.find?_cons_of_neg (by simpa using hne)]
      exact ih hn.2 hb

/-- Objects with different ids are found under their ids. -/
theorem find?_of_mem (hn : (p.objects.map Object.id).Nodup) (ho : o ∈ p.objects) :
    p.find? o.id = some o :=
  find?_of_nodup_map hn ho

theorem content?_of_mem (hn : (p.objects.map Object.id).Nodup) (ho : o ∈ p.objects) :
    p.content? o.id = some o.content :=
  content?_of_find? (find?_of_mem hn ho)

theorem content?_of_file? {f : FileReference} (h : (p.content? i).bind Content.file? = some f) :
    p.content? i = some (.file f) := by
  obtain ⟨c, hc, hview⟩ := Option.bind_eq_some_iff.1 h
  cases c <;> cases hview
  exact hc

theorem content?_of_target? {t : NativeTarget} (h : (p.content? i).bind Content.target? = some t) :
    p.content? i = some (.target t) := by
  obtain ⟨c, hc, hview⟩ := Option.bind_eq_some_iff.1 h
  cases c <;> cases hview
  exact hc

/-! ## Reading operations -/

theorem resolve_of_find? (h : p.find? i = some o) : resolve i p = .ok o p := by
  rw [resolve, h]

theorem partOf_of_eq_some {part : Object → Option α} {a : α} (h : part o = some a) :
    partOf part o p = .ok a p := by
  rw [partOf, h]
  rfl

theorem viewAs_of_eq_some {view : Content → Option α} {a : α} (h : view o.content = some a) :
    viewAs view o p = .ok a p :=
  partOf_of_eq_some h

theorem resolvePart_of_find? {part : Object → Option α} {a : α} (h : p.find? i = some o)
    (hp : part o = some a) : resolvePart part i p = .ok a p := by
  rw [resolvePart, bind_of_ok (resolve_of_find? h)]
  exact partOf_of_eq_some hp

theorem resolveAs_of_content? {view : Content → Option α} {a : α} (h : p.content? i = some c)
    (hv : view c = some a) : resolveAs view i p = .ok a p := by
  obtain ⟨o, ho, rfl⟩ := exists_find?_of_content? h
  rw [resolveAs, bind_of_ok (resolve_of_find? ho)]
  exact viewAs_of_eq_some hv

theorem heldAs_of_content? {view : Content → Option α} {a : α} (h : p.content? i = some c)
    (hv : view c = some a) : heldAs view i p = .ok a p := by
  obtain ⟨o, ho, rfl⟩ := exists_find?_of_content? h
  have hheld : p.held? i = some o := by
    rw [held?, List.find?_append]
    rw [find?] at ho
    rw [ho]
    rfl
  simp [heldAs, hheld, hv]

theorem target_of_content? {t : NativeTarget} (h : p.content? i = some (.target t)) :
    target i p = .ok t p :=
  resolveAs_of_content? h rfl

theorem projectRecord_of_content? {r : ProjectRecord} (h : p.content? p.record = some (.project r)) :
    projectRecord p = .ok r p := by
  show (get >>= fun p => heldAs Content.project? p.record) p = .ok r p
  rw [get_bind]
  exact heldAs_of_content? h rfl

/-- The registered objects that references lead to, in order. -/
def objectsAt (p : Project) (rs : List Reference) : List Object := rs.filterMap fun r => p.find? r.id

theorem mem_objectsAt {rs : List Reference} :
    o ∈ p.objectsAt rs ↔ ∃ r ∈ rs, p.find? r.id = some o := by
  simp [objectsAt]

theorem objectsAt_cons {r : Reference} {rs : List Reference} (h : p.find? r.id = some o) :
    p.objectsAt (r :: rs) = o :: p.objectsAt rs := by
  rw [objectsAt, List.filterMap_cons, h]
  rfl

theorem mapM_follow {rs : List Reference} (h : ∀ r ∈ rs, (p.content? r.id).isSome) :
    rs.mapM follow p = .ok (p.objectsAt rs) p := by
  induction rs with
  | nil => rfl
  | cons r rs ih =>
    obtain ⟨c, hc⟩ := Option.isSome_iff_exists.1 (h r (by simp))
    obtain ⟨o, ho, -⟩ := exists_find?_of_content? hc
    have hr : follow r p = .ok o p := resolve_of_find? ho
    have hrest := ih fun r' hr => h r' (List.mem_cons_of_mem r hr)
    rw [List.mapM_cons, bind_of_ok hr, bind_of_ok hrest]
    rw [objectsAt_cons ho]
    rfl

end ProjectGraph.Project
