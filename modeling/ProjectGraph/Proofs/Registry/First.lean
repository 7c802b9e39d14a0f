import ProjectGraph.Project.Groups
import ProjectGraph.Project.Phases
import ProjectGraph.Proofs.Registry.Path

/-! # Searches

Each search of a project goes through references in order and takes the first one that leads to what
is looked for. What a search has found it goes on finding while the project grows. -/

namespace ProjectGraph

/-! ## What is looked for -/

namespace Content

/-- The target of this name. -/
def targetNamed? (name : String) (c : Content) : Option NativeTarget :=
  c.target?.filter fun t => t.name = name

/-- The file with this path. -/
def fileAt? (path : String) (c : Content) : Option FileReference :=
  c.file?.filter fun f => f.path = path

/-- The phase in this place of a target. -/
def phaseAt? (place : PhaseKind ⊕ String) (c : Content) : Option BuildPhase :=
  c.phase?.filter fun q => q.role.place = place

/-- The build file of this file. -/
def buildFileOf? (file : ObjectId) (c : Content) : Option BuildFile :=
  c.buildFile?.filter fun f => f.file.id = file

theorem targetNamed?_eq_some {name : String} {c : Content} {t : NativeTarget} :
    c.targetNamed? name = some t ↔ c = .target t ∧ t.name = name := by
  cases c <;> simp [targetNamed?, target?, Option.filter_eq_some_iff]

theorem fileAt?_eq_some {path : String} {c : Content} {f : FileReference} :
    c.fileAt? path = some f ↔ c = .file f ∧ f.path = path := by
  cases c <;> simp [fileAt?, file?, Option.filter_eq_some_iff]

theorem phaseAt?_eq_some {place : PhaseKind ⊕ String} {c : Content} {q : BuildPhase} :
    c.phaseAt? place = some q ↔ c = .phase q ∧ q.role.place = place := by
  cases c <;> simp [phaseAt?, phase?, Option.filter_eq_some_iff]

theorem buildFileOf?_eq_some {file : ObjectId} {c : Content} {f : BuildFile} :
    c.buildFileOf? file = some f ↔ c = .buildFile f ∧ f.file.id = file := by
  cases c <;> simp [buildFileOf?, buildFile?, Option.filter_eq_some_iff]

/-- A view that a content has or has not, whatever becomes of the content. -/
def StableView {α : Type} (view : Content → Option α) : Prop :=
  ∀ c d, c.Grows d → (view c).isSome = (view d).isSome

theorem stableView_targetNamed? (name : String) : StableView (targetNamed? name) := by
  intro c d h
  cases h with
  | target hname => simp [targetNamed?, target?, Option.isSome_filter, hname]
  | _ => rfl

theorem stableView_fileAt? (path : String) : StableView (fileAt? path) := by
  intro c d h
  cases h <;> rfl

theorem stableView_phaseAt? (place : PhaseKind ⊕ String) : StableView (phaseAt? place) := by
  intro c d h
  cases h with
  | phase _ hplace => simp [phaseAt?, phase?, Option.isSome_filter, hplace]
  | _ => rfl

theorem stableView_buildFileOf? (file : ObjectId) : StableView (buildFileOf? file) := by
  intro c d h
  cases h <;> rfl

end Content

/-! ## The first reference that leads to it -/

namespace Project

variable {α : Type} {p q : Project} {view : Content → Option α} {rs rs' : List Reference}
  {x : Identified α}

/-- What the first of the references with this view leads to. -/
def first (p : Project) (view : Content → Option α) (rs : List Reference) :
    Option (Identified α) :=
  rs.findSome? fun r => ((p.content? r.id).bind view).map fun a => ⟨r.id, a⟩

theorem first_cons (r : Reference) (rs : List Reference) :
    p.first view (r :: rs) =
      match (p.content? r.id).bind view with
      | some a => some ⟨r.id, a⟩
      | none => p.first view rs := by
  rw [first, List.findSome?_cons]
  cases (p.content? r.id).bind view <;> rfl

theorem exists_of_first (h : p.first view rs = some x) :
    ∃ r ∈ rs, r.id = x.id ∧ ∃ c, p.content? r.id = some c ∧ view c = some x.content := by
  obtain ⟨r, hr, hx⟩ := List.exists_of_findSome?_eq_some h
  obtain ⟨a, ha, rfl⟩ := Option.map_eq_some_iff.1 hx
  obtain ⟨c, hc, hv⟩ := Option.bind_eq_some_iff.1 ha
  exact ⟨r, hr, rfl, c, hc, hv⟩

theorem first_eq_none_iff :
    p.first view rs = none ↔ ∀ r ∈ rs, ∀ c, p.content? r.id = some c → view c = none := by
  simp [first, List.findSome?_eq_none_iff]

theorem first_of_mem {r : Reference} {c : Content} {a : α} (hr : r ∈ rs)
    (hc : p.content? r.id = some c) (hv : view c = some a) : ∃ x, p.first view rs = some x := by
  cases hfirst : p.first view rs with
  | some x => exact ⟨x, rfl⟩
  | none =>
    rw [first_eq_none_iff.1 hfirst r hr c hc] at hv
    cases hv

theorem first_append (rs rs' : List Reference) :
    p.first view (rs ++ rs') = (p.first view rs).or (p.first view rs') :=
  List.findSome?_append

/-- While the project grows, a search through the same references ends at the same one. -/
theorem id_first_of_grows (hstable : Content.StableView view) (h : p.Grows q)
    (hrs : ∀ r ∈ rs, (p.content? r.id).isSome) :
    (q.first view rs).map Identified.id = (p.first view rs).map Identified.id := by
  induction rs with
  | nil => rfl
  | cons r rs ih =>
    obtain ⟨c, hc⟩ := Option.isSome_iff_exists.1 (hrs r (by simp))
    obtain ⟨d, hd, hcd⟩ := h.content r.id c hc
    have hviews := hstable c d hcd
    rw [first_cons, first_cons, hc, hd, Option.bind_some, Option.bind_some]
    cases hvc : view c with
    | some a =>
      rw [hvc] at hviews
      obtain ⟨b, hb⟩ := Option.isSome_iff_exists.1 hviews.symm
      rw [hb]
      rfl
    | none =>
      rw [hvc] at hviews
      have hvd : view d = none := by simpa using hviews.symm
      rw [hvd]
      exact ih fun r' hr => hrs r' (List.mem_cons_of_mem r hr)

/-- While the list gets longer too, a search goes on finding what it has found. -/
theorem first_of_grows (hstable : Content.StableView view) (h : p.Grows q)
    (hrs : ∀ r ∈ rs, (p.content? r.id).isSome) (hbegins : rs <+: rs')
    (hx : p.first view rs = some x) : ∃ y, q.first view rs' = some y ∧ y.id = x.id := by
  obtain ⟨more, rfl⟩ := hbegins
  have hids := id_first_of_grows hstable h hrs
  rw [hx, Option.map_some, Option.map_eq_some_iff] at hids
  obtain ⟨y, hy, hid⟩ := hids
  refine ⟨y, ?_, hid⟩
  rw [first_append, hy, Option.some_or]

/-- What has been attached because a search did not find it is what the search finds then. -/
theorem first_attached [IdScheme] {owner : ObjectId} {part : Part} {a : α} (hp : p.WellFormed)
    (hd : (Step.attach owner part).Due p) (hf : (Step.attach owner part).Fresh p)
    (hstable : Content.StableView view) (hrs : ∀ r ∈ rs, (p.content? r.id).isSome)
    (hnone : p.first view rs = none) (hview : view part.content = some a) :
    ((Step.attach owner part).apply p).first view (rs ++ [part.reference]) =
      some ⟨part.content.id, a⟩ := by
  have hids := id_first_of_grows hstable (Step.grows_apply hd) hrs
  rw [hnone, Option.map_none, Option.map_eq_none_iff] at hids
  have hnew : ((Step.attach owner part).apply p).content? part.reference.id = some part.content :=
    Step.content?_apply_new hp hd hf rfl
  rw [first_append, hids, Option.none_or, first_cons, hnew, Option.bind_some, hview]
  rfl

end Project
end ProjectGraph
