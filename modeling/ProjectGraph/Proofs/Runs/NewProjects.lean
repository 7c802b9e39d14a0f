import ProjectGraph.FirstRepeat
import ProjectGraph.Proofs.Keys.Classes
import ProjectGraph.Proofs.Runs.Clash

/-! # Making projects

A project is made from an untyped value that names its configurations. The value is read first, from its
first element on. Then the configurations are registered in order, so the first name that is repeated
finds its id taken. -/

namespace ProjectGraph

/-! ## Reading names -/

namespace Value

variable {v : Value} {items : List Value} {names : List String} {e : Error}

theorem name_of_not_text (h : ∀ s, v ≠ text s) : v.name = .error (.notName v.typeName v.shown) := by
  cases v with
  | text s => exact absurd rfl (h s)
  | _ => rfl

theorem mapM_name_texts (names : List String) : (names.map text).mapM name = .ok names := by
  induction names with
  | nil => rfl
  | cons n names ih =>
    rw [List.map_cons, List.mapM_cons, ih]
    rfl

/-- The first element that is no name is reported. -/
theorem mapM_name_of_not_text (earlier : List String) (h : ∀ s, v ≠ text s) (later : List Value) :
    (earlier.map text ++ v :: later).mapM name = .error (.notName v.typeName v.shown) := by
  induction earlier with
  | nil =>
    rw [List.map_nil, List.nil_append, List.mapM_cons, name_of_not_text h]
    rfl
  | cons n earlier ih =>
    rw [List.map_cons, List.cons_append, List.mapM_cons, ih]
    rfl

/-- A list holds names only, or has a first element that is none. -/
theorem texts_or_not (items : List Value) :
    (∃ names : List String, items = names.map text) ∨
      ∃ (earlier : List String) (v : Value) (later : List Value),
        items = earlier.map text ++ v :: later ∧ ∀ s, v ≠ text s := by
  induction items with
  | nil => exact .inl ⟨[], rfl⟩
  | cons v items ih =>
    by_cases htext : ∃ s, v = text s
    · obtain ⟨s, rfl⟩ := htext
      rcases ih with ⟨names, rfl⟩ | ⟨earlier, v, later, rfl, hv⟩
      · exact .inl ⟨s :: names, rfl⟩
      · exact .inr ⟨s :: earlier, v, later, rfl, hv⟩
    · exact .inr ⟨[], v, items, rfl, fun s hs => htext ⟨s, hs⟩⟩

end Value

/-! ## Registering configurations -/

namespace Project

section

variable [IdScheme] {p : Project} {name : String} {names : List String}

/-- Contents whose ids are free and differ can be registered. -/
theorem forM_register_of_nodup {cs : List Content}
    (h : (p.objects.map Object.id ++ cs.map Content.id).Nodup) :
    cs.forM (discard <| register ·) p =
      .ok () { p with objects := p.objects ++ cs.map Content.object } := by
  induction cs generalizing p with
  | nil =>
    rw [List.map_nil, List.append_nil]
    rfl
  | cons c cs ih =>
    have hfree : p.content? c.id = none := by
      rw [content?_eq_none_iff]
      intro o ho hid
      exact List.disjoint_of_nodup_append h (List.mem_map_of_mem ho) (hid ▸ List.mem_cons_self)
    show (discard (register c) >>= fun _ => cs.forM (discard <| register ·)) p = _
    rw [bind_of_ok (discard_of_ok (register_of_free hfree)), ih]
    · simp
    · simpa [Content.object] using h

/-- The first content whose id is taken is reported. -/
theorem forM_register_of_taken {earlier later : List Content} {c : Content}
    (h : (p.objects.map Object.id ++ earlier.map Content.id).Nodup)
    (hc : c.id ∈ earlier.map Content.id) :
    ∃ q, (earlier ++ c :: later).forM (discard <| register ·) p =
      .error (.duplicateId c.id c.key) q := by
  have htaken : Project.content?
      { p with objects := p.objects ++ earlier.map Content.object } c.id ≠ none := by
    obtain ⟨d, hd, hid⟩ := List.mem_map.1 hc
    intro hnone
    exact content?_eq_none_iff.1 hnone d.object
      (List.mem_append_right _ (List.mem_map_of_mem hd)) hid
  have hsplit : (earlier ++ c :: later).forM (discard <| register ·) =
      (earlier.forM (discard <| register ·) >>= fun _ =>
        discard (register c) >>= fun _ => later.forM (discard <| register ·)) :=
    List.forM_append
  rw [hsplit, bind_of_ok (forM_register_of_nodup h),
    bind_of_error (discard_of_error (register_of_taken htaken))]
  exact ⟨_, rfl⟩

/-- What a new project holds up to its configurations. -/
def openingContents (names : List String) : List Content :=
  .group newMainGroup :: .group newProductsGroup ::
    names.map fun n => .configuration (newConfiguration n)

/-- The key of a configuration of the project itself. -/
def configurationKey (name : String) : String := "XCBuildConfiguration:PROJECT:" ++ name

/-- Contents of a new project differ in their keys if the names of the configurations differ. -/
theorem nodup_keys_initialContents {hne : names ≠ []} (hn : names.Nodup) :
    ((initialContents name names hne).map Content.key).Nodup := by
  have hparts : (initialContents name names hne).map (fun c => (c.objectClass, c.keyRest)) =
      (.group, ":main") :: (.group, "Products:products") ::
        names.map (fun n => (.configuration, "PROJECT:" ++ n)) ++
          [(.configurationList, "PROJECT"), (.project, name)] := by
    simp only [initialContents, List.map_append, List.map_cons, List.map_map]
    rfl
  have hconfigurations : (names.map fun n => (ObjectClass.configuration, "PROJECT:" ++ n)).Nodup :=
    hn.map fun n m h => (String.append_right_inj _).1 (congrArg Prod.snd h)
  have hnodup : ((initialContents name names hne).map fun c => (c.objectClass, c.keyRest)).Nodup := by
    rw [hparts]
    simp [List.nodup_append, hconfigurations]
  rw [List.Nodup, List.pairwise_map] at hnodup ⊢
  exact hnodup.imp fun h hkey => h (Prod.ext_iff.2 (Content.objectClass_eq_of_key_eq hkey))

variable (hinj : Function.Injective (IdScheme.ofKey))
include hinj

theorem nodup_ids_initialContents {hne : names ≠ []} (hn : names.Nodup) :
    ((initialContents name names hne).map Content.id).Nodup := by
  have hkeys : ((initialContents name names hne).map Content.key).Nodup := nodup_keys_initialContents hn
  have hids := hkeys.map hinj
  rwa [List.map_map] at hids

theorem create_of_nodup (hne : names ≠ []) (hn : names.Nodup) :
    create name names = .ok { blank name names hne with
      objects := (initialContents name names hne).map Content.object } := by
  have hfree : ((blank name names hne).objects.map Object.id ++
      (initialContents name names hne).map Content.id).Nodup :=
    nodup_ids_initialContents hinj hn
  rw [create, dif_pos hne, forM_register_of_nodup hfree]
  rfl

/-- The first name that is repeated finds its id taken. -/
theorem create_of_repeat {earlier later : List String} {n : String} (hn : earlier.Nodup)
    (hmem : n ∈ earlier) :
    create name (earlier ++ n :: later) =
      .error (.duplicateId (IdScheme.ofKey (configurationKey n)) (configurationKey n)) := by
  have hne : earlier ++ n :: later ≠ [] := by simp
  have hcontents : ∃ rest, initialContents name (earlier ++ n :: later) hne =
      openingContents earlier ++ .configuration (newConfiguration n) :: rest :=
    ⟨_, by simp [initialContents, openingContents]; rfl⟩
  obtain ⟨rest, hcontents⟩ := hcontents
  have hids : ((openingContents earlier).map Content.id).Nodup := by
    have hids : ((initialContents name earlier (List.ne_nil_of_mem hmem)).map Content.id).Nodup :=
      nodup_ids_initialContents hinj hn
    rw [initialContents, List.map_append] at hids
    exact hids.of_append_left
  have htaken : (Content.configuration (newConfiguration n)).id ∈
      (openingContents earlier).map Content.id :=
    List.mem_map_of_mem (List.mem_cons_of_mem _ (List.mem_cons_of_mem _ (List.mem_map_of_mem hmem)))
  have hfree : ((blank name (earlier ++ n :: later) hne).objects.map Object.id ++
      (openingContents earlier).map Content.id).Nodup := by
    simpa [blank] using hids
  obtain ⟨q, hloop⟩ := forM_register_of_taken hfree htaken
  rw [create, dif_pos hne, hcontents, hloop]
  rfl

end
end Project

/-! ## Values that are accepted and refused -/

/-- The value gives these names to the configurations of a new project. -/
inductive Value.Gives : Value → List String → Prop
  | text (s : String) : Gives (text s) [s]
  | list {names : List String} (hne : names ≠ []) (hn : names.Nodup) : Gives (list (names.map text)) names

/-- The value gives no names to the configurations of a new project, for this reason. -/
inductive Value.Refused [IdScheme] : Value → Error → Prop
  | notNames {v : Value} (htext : ∀ s, v ≠ text s) (hlist : ∀ items, v ≠ list items) :
      Refused v (.notNames v.typeName)
  /-- The first element that is no name is reported, whether or not names before it repeat. -/
  | notName (earlier : List String) {v : Value} (htext : ∀ s, v ≠ text s) (later : List Value) :
      Refused (list (earlier.map text ++ v :: later)) (.notName v.typeName v.shown)
  | none : Refused (list []) .noConfigurations
  | repeated {earlier : List String} {name : String} (hn : earlier.Nodup) (hmem : name ∈ earlier)
      (later : List String) :
      Refused (list ((earlier ++ name :: later).map text))
        (.duplicateId (IdScheme.ofKey (Project.configurationKey name)) (Project.configurationKey name))

section

variable [IdScheme] {p : Project} {name : String} {names : List String} {value : Value} {e : Error}

/-- Each value gives names, or there is a reason why it does not. -/
theorem Value.gives_or_refused (value : Value) :
    (∃ names, value.Gives names) ∨ ∃ e, value.Refused e := by
  by_cases htext : ∃ s, value = text s
  · obtain ⟨s, rfl⟩ := htext
    exact .inl ⟨[s], .text s⟩
  by_cases hlist : ∃ items, value = list items
  · obtain ⟨items, rfl⟩ := hlist
    rcases texts_or_not items with ⟨names, rfl⟩ | ⟨earlier, v, later, rfl, hv⟩
    · by_cases hn : names.Nodup
      · cases names with
        | nil => exact .inr ⟨_, .none⟩
        | cons n names => exact .inl ⟨_, .list (List.cons_ne_nil n names) hn⟩
      · rw [← firstRepeat?_eq_none_iff] at hn
        obtain ⟨n, hfirst⟩ := Option.ne_none_iff_exists'.1 hn
        obtain ⟨earlier, later, rfl, hearlier, hmem⟩ := firstRepeat?_eq_some_iff.1 hfirst
        exact .inr ⟨_, .repeated hearlier hmem later⟩
    · exact .inr ⟨_, .notName earlier hv later⟩
  · exact .inr ⟨_, .notNames (fun s hs => htext ⟨s, hs⟩) fun items hs => hlist ⟨items, hs⟩⟩

namespace Project

theorem ofValue_of_gives (h : value.Gives names) : ofValue name value = create name names := by
  cases h with
  | text s => rfl
  | list hne hn =>
    rw [ofValue, Value.names, Value.mapM_name_texts]
    rfl

theorem ofValue_of_refused (hinj : Function.Injective (IdScheme.ofKey)) (h : value.Refused e) :
    ofValue name value = .error e := by
  cases h with
  | notNames htext hlist =>
    cases value with
    | text s => exact absurd rfl (htext s)
    | list items => exact absurd rfl (hlist items)
    | _ => rfl
  | notName earlier htext later =>
    rw [ofValue, Value.names, Value.mapM_name_of_not_text earlier htext]
    rfl
  | none => rfl
  | repeated hn hmem later =>
    rw [ofValue, Value.names, Value.mapM_name_texts]
    exact create_of_repeat hinj hn hmem

/-- The project's own list holds one configuration without settings for each name, in order. -/
def HasOwnConfigurations (p : Project) (names : List String) : Prop :=
  ∃ r list l, p.content? p.record = some (.project r) ∧ r.configurationList = some list ∧
    p.content? list.id = some (.configurationList l) ∧
    l.configurations.map (fun c => p.content? c.id) =
      names.map fun n => some (.configuration ⟨n, "PROJECT", ∅⟩)

theorem hasOwnConfigurations_of_create {name : String} (h : create name names = .ok p) :
    p.HasOwnConfigurations names := by
  obtain ⟨hne, hp, hn⟩ := eq_of_create h
  have hcontent {c : Content} (hc : c ∈ initialContents name names hne) : p.content? c.id = some c :=
    (content?_initial hp hn).2 ⟨hc, rfl⟩
  have hrecord : p.record = (Content.project (newRecord name names hne)).id := by
    rw [hp]
    rfl
  refine ⟨newRecord name names hne, _, newProjectList names hne, ?_, rfl, ?_, ?_⟩
  · rw [hrecord]
    exact hcontent (mem_initialContents.2 (by simp))
  · exact hcontent (mem_initialContents.2 (by simp))
  · rw [newProjectList, newConfigurationListOf, List.map_map]
    refine List.map_congr_left fun n hmem => ?_
    exact hcontent (mem_initialContents.2 (.inr (.inr (.inl ⟨n, hmem, rfl⟩))))

theorem exists_create_of_gives (hinj : Function.Injective (IdScheme.ofKey)) (h : value.Gives names) :
    ∃ p, create name names = .ok p := by
  cases h with
  | text s => exact ⟨_, create_of_nodup hinj (List.cons_ne_nil s []) (List.nodup_singleton s)⟩
  | list hne hn => exact ⟨_, create_of_nodup hinj hne hn⟩

/-- A value makes a project with the configurations that it names, or is refused. -/
theorem ofValue_cases (hinj : Function.Injective (IdScheme.ofKey)) (name : String) (value : Value) :
    (∃ p names, ofValue name value = .ok p ∧ value.Gives names ∧ p.HasOwnConfigurations names) ∨
      ∃ e, ofValue name value = .error e ∧ value.Refused e := by
  rcases value.gives_or_refused with ⟨names, h⟩ | ⟨e, h⟩
  · obtain ⟨p, hp⟩ : ∃ p, create name names = .ok p := exists_create_of_gives hinj h
    exact .inl ⟨p, names, (ofValue_of_gives h).trans hp, h, hasOwnConfigurations_of_create hp⟩
  · exact .inr ⟨e, ofValue_of_refused hinj h, h⟩

theorem configurations_of_ofValue (hinj : Function.Injective (IdScheme.ofKey))
    (h : ofValue name value = .ok p) : ∃ names, value.Gives names ∧ p.HasOwnConfigurations names := by
  rcases ofValue_cases hinj name value with ⟨q, names, hq, hgives, hconfigurations⟩ | ⟨e, he, -⟩
  · rw [h] at hq
    cases hq
    exact ⟨names, hgives, hconfigurations⟩
  · rw [h] at he
    cases he

theorem refused_of_ofValue (hinj : Function.Injective (IdScheme.ofKey))
    (h : ofValue name value = .error e) : value.Refused e := by
  rcases ofValue_cases hinj name value with ⟨p, names, hp, -⟩ | ⟨e', he', hrefused⟩
  · rw [h] at hp
    cases hp
  · rw [h] at he'
    cases he'
    exact hrefused

/-- A value that gives names makes a project with these configurations. Any other value is refused for its
reason, and a generator reports it before it looks at its paths. -/
theorem ofValue_outcome (hinj : Function.Injective (IdScheme.ofKey)) (name : String) (value : Value) :
    ((∃ p, ofValue name value = .ok p) ↔ ∃ names, value.Gives names) ∧
      (∀ e, ofValue name value = .error e ↔ value.Refused e) ∧
      (∀ p, ofValue name value = .ok p → ∃ names, value.Gives names ∧ p.HasOwnConfigurations names) ∧
      ∀ tree root scripts extra e, value.Refused e →
        Generator.start tree ⟨name, root, value, scripts, extra⟩ = .error e := by
  refine ⟨⟨?_, ?_⟩, fun e => ⟨refused_of_ofValue hinj, ofValue_of_refused hinj⟩,
    fun p => configurations_of_ofValue hinj, ?_⟩
  · rintro ⟨p, hp⟩
    obtain ⟨names, hgives, -⟩ := configurations_of_ofValue hinj hp
    exact ⟨names, hgives⟩
  · rintro ⟨names, hgives⟩
    rw [ofValue_of_gives hgives]
    exact exists_create_of_gives hinj hgives
  · intro tree root scripts extra e h
    rw [Generator.start, ofValue_of_refused hinj h]
    rfl

end Project
end

/-- Two names make a project. A list with a repeated name makes none, and with an element that is no name,
too, that element is what is reported. -/
theorem Project.ofValue_outcome_of_repeatedNames :
    let _ : IdScheme := spelledScheme
    (∃ p, ofValue "App" (.list [.text "Debug", .text "Release"]) = .ok p) ∧
      ofValue "App" (.list [.text "Debug", .text "Release", .text "Debug"]) =
        .error (.duplicateId (IdScheme.ofKey "XCBuildConfiguration:PROJECT:Debug")
          "XCBuildConfiguration:PROJECT:Debug") ∧
      ofValue "App" (.list [.text "Debug", .text "Debug", .null]) = .error (.notName "NoneType" "None") ∧
      Generator.start (.withHome []) ⟨"App", "missing", .list [], none, []⟩ = .error .noConfigurations := by
  intro _
  have houtcome := ofValue_outcome ofKey_spelledScheme_injective "App"
  refine ⟨?_, ?_, ?_, ?_⟩
  · exact (houtcome _).1.2 ⟨_, .list (List.cons_ne_nil "Debug" ["Release"]) (by decide)⟩
  · have hn : ["Debug", "Release"].Nodup := by decide
    exact ((houtcome _).2.1 _).2 (.repeated hn List.mem_cons_self [])
  · exact ((houtcome _).2.1 _).2 (.notName ["Debug", "Debug"] (v := .null) (by simp) [])
  · exact (houtcome _).2.2.2 _ _ _ _ _ .none

end ProjectGraph
