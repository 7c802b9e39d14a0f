import ProjectGraph.Object.Basic
import ProjectGraph.Project.Basic
import ProjectGraph.Proofs.Intertwined
import ProjectGraph.Proofs.Registry.Lookup

/-! # Projects with other settings

The settings of objects can be changed without a change of anything else. Operations that do not read
settings are indifferent to such a change: they find the same, and fail for the same reasons. -/

namespace ProjectGraph

/-! ## Changing settings -/

/-- The object with its settings, if it has any, changed as its id tells. -/
def Object.mapSettings (f : ObjectId → Settings → Settings) (o : Object) : Object :=
  match o.settings? with
  | some s => o.withSettings (f o.id s)
  | none => o

/-- The project with the settings of its objects changed. -/
def Project.mapSettings (f : ObjectId → Settings → Settings) (p : Project) : Project :=
  { p with
    objects := p.objects.map (Object.mapSettings f)
    detached := p.detached.map (Object.mapSettings f) }

/-- The operation does the same whatever settings objects have. -/
abbrev Edit.Indifferent {α : Type} (f : ObjectId → Settings → Settings) (x : Edit α) : Prop :=
  Intertwined (Project.mapSettings f) (fun a => a) x x

variable {f : ObjectId → Settings → Settings} {α : Type}

theorem Content.configuration_or (c : Content) :
    (∃ x, c = .configuration x) ∨ ∀ x, c ≠ .configuration x := by
  cases c with
  | configuration x => exact .inl ⟨x, rfl⟩
  | _ => exact .inr nofun

namespace Object

variable {o : Object}

theorem mapSettings_of_eq {c : Configuration} (h : o.content = .configuration c) :
    o.mapSettings f = { o with content := .configuration { c with settings := f o.id c.settings } } := by
  obtain ⟨i, _, a⟩ := o
  cases h
  rfl

/-- An object of another type can have settings that are attached to it. -/
theorem mapSettings_of_ne (h : ∀ c, o.content ≠ .configuration c) :
    o.mapSettings f = { o with attached.settings := o.attached.settings.map (f o.id) } := by
  obtain ⟨i, c, a, b, s⟩ := o
  cases c with
  | configuration c => exact absurd rfl (h c)
  | _ => cases s <;> rfl

theorem id_mapSettings (f : ObjectId → Settings → Settings) (o : Object) :
    (o.mapSettings f).id = o.id := by
  rcases o.content.configuration_or with ⟨c, hc⟩ | hc
  · rw [mapSettings_of_eq hc]
  · rw [mapSettings_of_ne hc]

theorem mapSettings_eq_self (h : o.settings? = none) : o.mapSettings f = o := by
  rw [mapSettings, h]


theorem mapSettings_withSettings (s : Settings) (o : Object) :
    (o.withSettings s).mapSettings f = o.withSettings (f o.id s) := by
  obtain ⟨i, c, a⟩ := o
  cases c <;> rfl

theorem withSettings_mapSettings (s : Settings) (o : Object) :
    (o.mapSettings f).withSettings s = o.withSettings s := by
  obtain ⟨i, c, a, b, s'⟩ := o
  cases c <;> cases s' <;> rfl

theorem mapSettings_congr {g : ObjectId → Settings → Settings} (h : f o.id = g o.id) :
    o.mapSettings f = o.mapSettings g := by
  rw [mapSettings, mapSettings, h]

/-- Settings that a change leaves as they are. -/
theorem mapSettings_of_fixed (h : ∀ s, f o.id s = s) : o.mapSettings f = o := by
  obtain ⟨i, c, a, b, s⟩ := o
  cases c with
  | configuration c => rw [mapSettings_of_eq rfl, h]
  | _ =>
    cases s with
    | none => rfl
    | some s => exact congrArg (fun s => Object.mk i _ ⟨a, b, some s⟩) (h s)

theorem withProductReference_mapSettings (r : Option Reference) (o : Object) :
    (o.mapSettings f).withProductReference r = (o.withProductReference r).mapSettings f := by
  obtain ⟨i, c, a, b, s⟩ := o
  cases c <;> cases s <;> rfl

/-- The part of an object can be seen without its settings. -/
def IgnoresSettings (part : Object → Option α) : Prop := ∀ f o, part (o.mapSettings f) = part o

theorem ignoresSettings_of_view {view : Content → Option α}
    (h : ∀ (c : Configuration) s,
      view (.configuration { c with settings := s }) = view (.configuration c)) :
    IgnoresSettings fun o => view o.content := by
  intro f o
  rcases o.content.configuration_or with ⟨c, hc⟩ | hc
  · simp only [mapSettings_of_eq hc, hc, h]
  · rw [mapSettings_of_ne hc]

end Object

namespace Project

variable {i : ObjectId} {part : Object → Option α} {view : Content → Option α}

theorem mapSettings_of_fixed (h : ∀ i s, f i s = s) (p : Project) : p.mapSettings f = p := by
  have hobject : ∀ o : Object, o.mapSettings f = o := fun o => Object.mapSettings_of_fixed (h o.id)
  have hlist : ∀ os : List Object, os.map (Object.mapSettings f) = os := fun os =>
    (List.map_congr_left fun o _ => hobject o).trans (List.map_id os)
  rw [mapSettings, hlist, hlist]

/-- Nothing but registered objects changes as long as none has been forgotten. -/
theorem mapSettings_of_detached {p : Project} (h : p.detached = []) :
    p.mapSettings f = { p with objects := p.objects.map (Object.mapSettings f) } := by
  rw [mapSettings, h]
  rfl

theorem directories_mapSettings (f : ObjectId → Settings → Settings) (p : Project) :
    (p.mapSettings f).directories = p.directories := rfl

/-! ## Reading -/

theorem find?_map_mapSettings (f : ObjectId → Settings → Settings) (i : ObjectId) (os : List Object) :
    (os.map (Object.mapSettings f)).find? (fun o => o.id = i) =
      (os.find? fun o => o.id = i).map (Object.mapSettings f) := by
  rw [List.find?_map]
  simp only [Function.comp_def, Object.id_mapSettings]

theorem find?_mapSettings (f : ObjectId → Settings → Settings) (p : Project) (i : ObjectId) :
    (p.mapSettings f).find? i = (p.find? i).map (Object.mapSettings f) :=
  find?_map_mapSettings f i p.objects

theorem held?_mapSettings (f : ObjectId → Settings → Settings) (p : Project) (i : ObjectId) :
    (p.mapSettings f).held? i = (p.held? i).map (Object.mapSettings f) := by
  rw [held?, held?, ← find?_map_mapSettings, List.map_append]
  rfl

theorem intertwined_resolve (f : ObjectId → Settings → Settings) (i : ObjectId) :
    Intertwined (mapSettings f) (Object.mapSettings f) (resolve i) (resolve i) := by
  intro p
  rw [resolve, resolve, find?_mapSettings]
  cases p.find? i <;> rfl

theorem intertwined_partOf (hpart : Object.IgnoresSettings part) (o : Object) :
    Intertwined (mapSettings f) (fun a => a) (partOf part o) (partOf part (o.mapSettings f)) := by
  intro p
  rw [partOf, partOf, hpart, Object.id_mapSettings]
  cases part o <;> rfl

theorem indifferent_resolveAs (hview : Object.IgnoresSettings fun o => view o.content) (i : ObjectId) :
    Edit.Indifferent f (resolveAs view i) :=
  (intertwined_resolve f i).bind (intertwined_partOf hview)

theorem indifferent_heldAs (hview : Object.IgnoresSettings fun o => view o.content) (i : ObjectId) :
    Edit.Indifferent f (heldAs view i) := by
  intro p
  have hheld : ((p.mapSettings f).held? i).bind (fun o => view o.content) =
      (p.held? i).bind fun o => view o.content := by
    rw [held?_mapSettings, Option.bind_map]
    exact congrArg _ (funext (hview f))
  rw [heldAs, heldAs, hheld]
  cases (p.held? i).bind fun o => view o.content <;> rfl

theorem indifferent_target (i : ObjectId) :
    Edit.Indifferent f (target i) :=
  indifferent_resolveAs (Object.ignoresSettings_of_view fun _ _ => rfl) i

/-! ## Changing -/

/-- Contents that are no configurations come without settings. -/
theorem indifferent_register [IdScheme] (c : Content) (hc : c.configuration? = none := by rfl) :
    Edit.Indifferent f (register c) := by
  intro p
  have hobject : c.object.mapSettings f = c.object := by
    refine Object.mapSettings_eq_self ?_
    cases c with
    | configuration => cases hc
    | _ => rfl
  rw [register, register, find?_mapSettings]
  cases p.find? c.id with
  | some o => rfl
  | none =>
    show _ = EStateM.Result.ok c.id (mapSettings f { p with objects := p.objects ++ [c.object] })
    simp only [mapSettings, List.map_append, List.map_cons, List.map_nil, hobject, Option.map_none]

theorem indifferent_modifyObject {h : Object → Object}
    (hh : ∀ o, h (o.mapSettings f) = (h o).mapSettings f) (i : ObjectId) :
    Edit.Indifferent f (modifyObject i h) := by
  have hupdate : ∀ o, Object.updateAt i h (o.mapSettings f) = (Object.updateAt i h o).mapSettings f := by
    intro o
    rw [Object.updateAt, Object.updateAt, Object.id_mapSettings]
    split
    · exact hh o
    · rfl
  refine .modify fun p => ?_
  simp only [mapSettings, List.map_map, Function.comp_def, hupdate]

/-- What changes contents of a type other than that of configurations. -/
theorem indifferent_modifyContent {h : Content → Content}
    (hself : ∀ x, h (.configuration x) = .configuration x)
    (hother : ∀ c, (∀ x, c ≠ .configuration x) → ∀ x, h c ≠ .configuration x) (i : ObjectId) :
    Edit.Indifferent f (modifyContent i h) := by
  refine indifferent_modifyObject (fun o => ?_) i
  obtain ⟨j, c, a⟩ := o
  rcases c.configuration_or with ⟨x, rfl⟩ | hc
  · rw [Object.mapSettings_of_eq rfl]
    simp only [hself]
    rfl
  · rw [Object.mapSettings_of_ne hc, Object.mapSettings_of_ne (hother c hc)]

theorem indifferent_modifyPhase (i : ObjectId) (h : BuildPhase → BuildPhase) :
    Edit.Indifferent f (modifyPhase i h) := by
  refine indifferent_modifyContent (fun _ => rfl) (fun c hc => ?_) i
  cases c with
  | phase => exact nofun
  | _ => exact hc

theorem indifferent_modifyTarget (i : ObjectId) (h : NativeTarget → NativeTarget) :
    Edit.Indifferent f (modifyTarget i h) := by
  refine indifferent_modifyContent (fun _ => rfl) (fun c hc => ?_) i
  cases c with
  | target => exact nofun
  | _ => exact hc

theorem indifferent_modifyGroup (i : ObjectId) (h : Group → Group) :
    Edit.Indifferent f (modifyGroup i h) := by
  refine indifferent_modifyContent (fun _ => rfl) (fun c hc => ?_) i
  cases c with
  | group => exact nofun
  | _ => exact hc

theorem indifferent_addChild (group : ObjectId) (r : Reference) :
    Edit.Indifferent f (addChild group r) := indifferent_modifyGroup group _

end Project
end ProjectGraph
