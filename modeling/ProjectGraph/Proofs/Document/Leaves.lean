import Mathlib.Data.List.Basic
import ProjectGraph.Document.Checks
import ProjectGraph.Proofs.Registry.Links

/-! # The leaves of a document

The document of a snapshot is made of the contents in it, one record for each. The ids in the document
are theirs, and what the checks look at is what they hold: their links, and their settings of unknown
types. -/

namespace ProjectGraph

/-! ## Contexts -/

/-- The items of a list with their contexts. -/
def itemsAt {α : Type} (context : String) (items : List α) : List (String × α) :=
  items.zipIdx.map fun x => (context ++ "[" ++ toString x.2 ++ "]", x.1)

theorem map_snd_itemsAt {α : Type} (context : String) (items : List α) :
    (itemsAt context items).map Prod.snd = items := by
  rw [itemsAt, List.map_map]
  exact List.zipIdx_map_fst 0 items

/-- The reference that a leaf is, if it is one. -/
def Leaf.reference? : Leaf → Option Reference
  | reference r => some r
  | foreign _ => none

/-- The leaves of a record as they stand in a document, each in its field. -/
def within (context : String) (leaves : List (String × Leaf)) : List (String × Leaf) :=
  leaves.map fun l => (context ++ "." ++ l.1, l.2)

/-- A list of references in the field of a record. -/
def referencesAt (field : String) (rs : List Reference) : List (String × Leaf) :=
  (itemsAt field rs).map fun x => (x.1, .reference x.2)

def referenceAt (field : String) (r : Option Reference) : List (String × Leaf) :=
  r.toList.map fun r => (field, .reference r)

/-- A value of an unknown type, if it is one. -/
def SettingValue.leaves (context : String) : SettingValue → List (String × Leaf)
  | foreign typeName _ => [(context, .foreign typeName)]
  | _ => []

/-- The values of unknown types among settings. Each value stands under its key, at a place of its own. -/
def Settings.leaves (field place : String) (s : Settings) : List (String × Leaf) :=
  s.entries.flatMap fun e => e.2.leaves (field ++ "." ++ e.1 ++ place)

@[simp] theorem within_nil (context : String) : within context [] = [] := rfl

@[simp] theorem within_cons (context : String) (l : String × Leaf) (ls : List (String × Leaf)) :
    within context (l :: ls) = (context ++ "." ++ l.1, l.2) :: within context ls :=
  rfl

@[simp] theorem within_append (context : String) (ls ms : List (String × Leaf)) :
    within context (ls ++ ms) = within context ls ++ within context ms :=
  List.map_append

@[simp] theorem within_referencesAt (context field : String) (rs : List Reference) :
    within context (referencesAt field rs) = referencesAt (context ++ "." ++ field) rs := by
  simp [within, referencesAt, itemsAt, String.append_assoc]

@[simp] theorem within_referenceAt (context field : String) (r : Option Reference) :
    within context (referenceAt field r) = referenceAt (context ++ "." ++ field) r := by
  simp [within, referenceAt]

@[simp] theorem within_settingLeaves (context field place : String) (s : Settings) :
    within context (s.leaves field place) = s.leaves (context ++ "." ++ field) place := by
  rw [within, Settings.leaves, List.map_flatMap, Settings.leaves]
  refine List.flatMap_congr fun e _ => ?_
  cases e.2 <;> simp [SettingValue.leaves, String.append_assoc]

/-! The references among leaves. -/

def referencesOf (ls : List (String × Leaf)) : List Reference := ls.filterMap fun l => l.2.reference?

@[simp] theorem referencesOf_nil : referencesOf [] = [] := rfl

@[simp] theorem referencesOf_cons (context : String) (r : Reference) (ls : List (String × Leaf)) :
    referencesOf ((context, .reference r) :: ls) = r :: referencesOf ls :=
  rfl

@[simp] theorem referencesOf_append (ls ms : List (String × Leaf)) :
    referencesOf (ls ++ ms) = referencesOf ls ++ referencesOf ms :=
  List.filterMap_append

@[simp] theorem referencesOf_within (context : String) (ls : List (String × Leaf)) :
    referencesOf (within context ls) = referencesOf ls := by
  simp [referencesOf, within, List.filterMap_map]

@[simp] theorem referencesOf_referencesAt (field : String) (rs : List Reference) :
    referencesOf (referencesAt field rs) = rs := by
  conv_rhs => rw [← map_snd_itemsAt field rs, ← List.filterMap_eq_map]
  rw [referencesOf, referencesAt, List.filterMap_map]
  rfl

@[simp] theorem referencesOf_referenceAt (field : String) (r : Option Reference) :
    referencesOf (referenceAt field r) = r.toList := by
  cases r <;> rfl

@[simp] theorem referencesOf_settingLeaves (field place : String) (s : Settings) :
    referencesOf (s.leaves field place) = [] := by
  rw [referencesOf, List.filterMap_eq_nil_iff]
  intro l hl
  obtain ⟨e, -, he⟩ := List.mem_flatMap.1 hl
  cases hv : e.2 <;> simp_all [SettingValue.leaves, Leaf.reference?]

/-! ## Lists, tables and records -/

namespace Node

theorem leavesOfItems_eq (context : String) (index : Nat) (ns : List Node) :
    leavesOfItems context index ns =
      (ns.zipIdx index).flatMap fun x => x.1.leaves (context ++ "[" ++ toString x.2 ++ "]") := by
  induction ns generalizing index with
  | nil => rfl
  | cons n ns ih => rw [leavesOfItems, ih, List.zipIdx_cons, List.flatMap_cons]

theorem leavesOfEntries_eq (context : String) (es : List (String × Node)) :
    leavesOfEntries context es = es.flatMap fun e => e.2.leaves (context ++ "." ++ e.1) := by
  induction es with
  | nil => rfl
  | cons e es ih => rw [leavesOfEntries, ih, List.flatMap_cons]

theorem leaves_list {α : Type} (f : α → Node) (context : String) (items : List α) :
    (list (items.map f)).leaves context =
      (itemsAt context items).flatMap fun x => (f x.2).leaves x.1 := by
  rw [leaves, leavesOfItems_eq, itemsAt, List.flatMap_map, List.zipIdx_map, List.flatMap_map]
  rfl

theorem leaves_record (context type : String) (id : Option ObjectId) (fields : List (String × Node)) :
    (record type id fields).leaves context =
      fields.flatMap fun e => e.2.leaves (context ++ "." ++ e.1) :=
  leavesOfEntries_eq context fields

theorem leaves_text (context a : String) : (text a).leaves context = [] := rfl

theorem leaves_flag (context : String) (b : Bool) : (flag b).leaves context = [] := rfl

theorem leaves_references (context : String) (rs : List Reference) :
    (references rs).leaves context = referencesAt context rs := by
  rw [references, leaves_list, referencesAt]
  exact List.map_eq_flatMap.symm

theorem leaves_texts (context : String) (items : List String) : (texts items).leaves context = [] := by
  rw [texts, leaves_list, List.flatMap_eq_nil_iff]
  exact fun _ _ => rfl

theorem leaves_optional_text (context : String) (a : Option String) :
    (optional text a).leaves context = [] := by
  cases a <;> rfl

theorem leaves_optional_reference (context : String) (r : Option Reference) :
    (optional reference r).leaves context = referenceAt context r := by
  cases r <;> rfl

theorem settingLeaves_eq (context : String) (v : SettingValue) :
    settingLeaves context v = v.leaves (context ++ ".value") := by
  cases v <;> rfl

theorem leaves_settingNode (context : String) (v : SettingValue) :
    v.node.leaves context = v.leaves context := by
  cases v with
  | list items => exact leaves_texts context items
  | _ => rfl

/-- The settings of a build file. -/
theorem leaves_fileSettings (context : String) (settings : Option Settings) :
    (optional (fun s : Settings => table (s.entries.map fun e => (e.1, e.2.node))) settings).leaves
      context = settings.toList.flatMap (Settings.leaves context "") := by
  cases settings with
  | none => rfl
  | some s =>
    simp [optional, leaves, leavesOfEntries_eq, List.flatMap_map, Settings.leaves, leaves_settingNode]

/-- The settings of a configuration, each a record of its own. -/
theorem leavesOfEntries_settings (context : String) (s : Settings) :
    leavesOfEntries context (s.entries.map fun e => (e.1, setting e.2)) = s.leaves context ".value" := by
  simp [leaves, leavesOfEntries_eq, List.flatMap_map, Settings.leaves, settingLeaves_eq]

theorem ids_list {α : Type} (f : α → Node) (items : List α) :
    (list (items.map f)).ids = items.flatMap fun a => (f a).ids := by
  have hitems : ∀ ns : List Node, idsOfItems ns = ns.flatMap ids := by
    intro ns
    induction ns with
    | nil => rfl
    | cons n ns ih => rw [idsOfItems, ih, List.flatMap_cons]
  rw [ids, hitems, List.flatMap_map]

theorem idsOfEntries_eq (es : List (String × Node)) :
    idsOfEntries es = es.flatMap fun e => e.2.ids := by
  induction es with
  | nil => rfl
  | cons e es ih => rw [idsOfEntries, ih, List.flatMap_cons]

theorem ids_record (type : String) (id : Option ObjectId) (fields : List (String × Node)) :
    (record type id fields).ids = id.toList ++ fields.flatMap fun e => e.2.ids := by
  rw [ids, idsOfEntries_eq]

theorem ids_text (a : String) : (text a).ids = [] := rfl

theorem ids_flag (b : Bool) : (flag b).ids = [] := rfl

theorem ids_references (rs : List Reference) : (references rs).ids = [] := by
  rw [references, ids_list, List.flatMap_eq_nil_iff]
  exact fun _ _ => rfl

theorem ids_texts (items : List String) : (texts items).ids = [] := by
  rw [texts, ids_list, List.flatMap_eq_nil_iff]
  exact fun _ _ => rfl

theorem ids_optional {α : Type} {f : α → Node} (hf : ∀ a, (f a).ids = []) (a : Option α) :
    (optional f a).ids = [] := by
  cases a with
  | none => rfl
  | some a => exact hf a

theorem idsOfEntries_map {α : Type} {f : α → Node} (hf : ∀ a, (f a).ids = [])
    (entries : List (String × α)) : idsOfEntries (entries.map fun e => (e.1, f e.2)) = [] := by
  rw [idsOfEntries_eq, List.flatMap_map, List.flatMap_eq_nil_iff]
  exact fun _ _ => hf _

theorem ids_settingNode (v : SettingValue) : v.node.ids = [] := by
  cases v with
  | list items => exact ids_texts items
  | _ => rfl

end Node

/-! ## Contents -/

namespace Content

/-- What the checks look at in the document of a content, in order. -/
def leaves : Content → List (String × Leaf)
  | file _ => []
  | buildFile f =>
    ("fileRef", .reference f.file) :: f.settings.toList.flatMap (Settings.leaves "settings" "")
  | phase p => referencesAt "files" p.files
  | group g => referencesAt "children" g.children
  | configuration c => c.settings.leaves "buildSettings" ".value"
  | configurationList l => referencesAt "buildConfigurations" l.configurations
  | target t =>
    referencesAt "buildPhases" t.buildPhases ++
      (referenceAt "buildConfigurationList" t.configurationList ++
        referenceAt "productReference" t.productReference)
  | project r =>
    referenceAt "buildConfigurationList" r.configurationList ++
      ("mainGroup", .reference r.mainGroup) :: ("productRefGroup", .reference r.productsGroup) ::
        referencesAt "targets" r.targets

open Node

theorem leaves_node (c : Content) (id : ObjectId) (context : String) :
    (c.node id).leaves context = within context c.leaves := by
  cases c with
  | file f => cases f <;> rfl
  | buildFile f =>
    cases hs : f.settings <;>
      simp [node, BuildFile.node, leaves_record, leaves_fileSettings, leaves, Node.leaves, hs]
  | phase q =>
    obtain ⟨target, role, files⟩ := q
    cases role <;>
      simp [node, BuildPhase.node, leaves_record, leaves_references, leaves_texts, leaves, Node.leaves]
  | group g =>
    simp [node, Group.node, leaves_record, leaves_references, leaves_optional_text, leaves, Node.leaves]
  | configuration k =>
    simp [node, Configuration.node, leaves_record, leavesOfEntries_settings, leaves, Node.leaves]
  | configurationList l =>
    simp [node, ConfigurationList.node, leaves_record, leaves_references, leaves, Node.leaves]
  | target t =>
    simp [node, NativeTarget.node, leaves_record, leaves_references, leaves_optional_reference, leaves,
      Node.leaves]
  | project r =>
    simp [node, ProjectRecord.node, leaves_record, leaves_references, leaves_optional_reference, leaves,
      Node.leaves, leaves_texts]

theorem ids_node (c : Content) (id : ObjectId) : (c.node id).ids = [id] := by
  have htext := ids_optional (f := Node.text) fun _ => rfl
  have hreference := ids_optional (f := Node.reference) fun _ => rfl
  cases c with
  | file f => cases f <;> rfl
  | buildFile f =>
    have hsettings : (optional (fun s : Settings => table (s.entries.map fun e => (e.1, e.2.node)))
        f.settings).ids = [] :=
      ids_optional (fun s => by rw [ids, idsOfEntries_map ids_settingNode]) f.settings
    simp [node, BuildFile.node, ids_record, hsettings, ids]
  | phase q =>
    obtain ⟨target, role, files⟩ := q
    cases role <;> simp [node, BuildPhase.node, ids_record, ids_references, ids_texts, ids]
  | group g => simp [node, Group.node, ids_record, ids_references, htext, ids]
  | configuration k =>
    have hsettings := idsOfEntries_map (f := Node.setting) (fun _ => rfl) k.settings.entries
    simp [node, Configuration.node, ids_record, hsettings, ids]
  | configurationList l => simp [node, ConfigurationList.node, ids_record, ids_references, ids]
  | target t => simp [node, NativeTarget.node, ids_record, ids_references, hreference, ids]
  | project r =>
    simp [node, ProjectRecord.node, ids_record, ids_references, ids_texts, hreference, ids]

/-- The references in a content are its links, in order. -/
theorem references_leaves (c : Content) : referencesOf c.leaves = c.links.map Link.reference := by
  cases c with
  | buildFile f => cases hs : f.settings <;> simp [leaves, links, hs]
  | _ => simp [leaves, links, Function.comp_def]

end Content

/-! ## Schemes -/

/-- Schemes are no objects, and refer to targets in a way of their own. -/
theorem Scheme.leaves_node (s : Scheme) (context : String) : s.node.leaves context = [] := by
  have hentries : ∀ (es : List BuildableReference) (context : String),
      (Node.list (es.map BuildableReference.node)).leaves context = [] := by
    intro es context
    rw [Node.leaves_list, List.flatMap_eq_nil_iff]
    intro e _
    simp [BuildableReference.node, Node.leaves_record, Node.leaves_optional_text, Node.leaves]
  have harguments : ∀ context, (Node.list (s.launchArguments.map LaunchArgument.node)).leaves
      context = [] := by
    intro context
    rw [Node.leaves_list, List.flatMap_eq_nil_iff]
    exact fun _ _ => rfl
  have henvironment : ∀ context, (Node.list (s.environmentVariables.map
      EnvironmentVariable.node)).leaves context = [] := by
    intro context
    rw [Node.leaves_list, List.flatMap_eq_nil_iff]
    exact fun _ _ => rfl
  simp [Scheme.node, Node.leaves_record, Node.leaves_text, Node.leaves_flag, hentries, harguments,
    henvironment]

theorem Scheme.ids_node (s : Scheme) : s.node.ids = [] := by
  have hentries (es : List BuildableReference) :
      (Node.list (es.map BuildableReference.node)).ids = [] := by
    have hproduct := Node.ids_optional (f := Node.text) fun _ => rfl
    rw [Node.ids_list, List.flatMap_eq_nil_iff]
    intro e _
    simp [BuildableReference.node, Node.ids_record, hproduct, Node.ids]
  have harguments : (Node.list (s.launchArguments.map LaunchArgument.node)).ids = [] := by
    rw [Node.ids_list, List.flatMap_eq_nil_iff]
    exact fun _ _ => rfl
  have henvironment : (Node.list (s.environmentVariables.map EnvironmentVariable.node)).ids = [] := by
    rw [Node.ids_list, List.flatMap_eq_nil_iff]
    exact fun _ _ => rfl
  simp [Scheme.node, Node.ids_record, Node.ids_text, Node.ids_flag, hentries, harguments, henvironment]

/-! ## Snapshots -/

/-- The contents in a list of things of one type. -/
def Identified.contents {α : Type} (content : α → Content) (xs : List (Identified α)) :
    List (Identified Content) :=
  xs.map fun x => ⟨x.id, content x.content⟩

namespace Snapshot

/-- The contents in a snapshot with their contexts, in the order of the document. -/
def parts (s : Snapshot) : List (String × Identified Content) :=
  itemsAt "project.fileReferences" (Identified.contents .file s.fileReferences) ++
    (itemsAt "project.groups" (Identified.contents .group s.groups) ++
      (itemsAt "project.buildFiles" (Identified.contents .buildFile s.buildFiles) ++
        (itemsAt "project.buildPhases" (Identified.contents .phase s.buildPhases) ++
          (itemsAt "project.nativeTargets" (s.nativeTargets.map fun o => ⟨o.id, o.content⟩) ++
            (("project.project", ⟨s.project.id, .project s.project.content⟩) ::
              (itemsAt "project.buildConfigurations"
                  (Identified.contents .configuration s.buildConfigurations) ++
                itemsAt "project.configurationLists"
                  (Identified.contents .configurationList s.configurationLists)))))))

/-- The contents in a snapshot. -/
def contents (s : Snapshot) : List (Identified Content) := s.parts.map Prod.snd

/-- What the checks look at in a snapshot, in order. -/
def leaves (s : Snapshot) : List (String × Leaf) :=
  s.parts.flatMap fun x => within x.1 x.2.content.leaves

theorem contents_eq (s : Snapshot) :
    s.contents = Identified.contents .file s.fileReferences ++
      (Identified.contents .group s.groups ++ (Identified.contents .buildFile s.buildFiles ++
        (Identified.contents .phase s.buildPhases ++
          (s.nativeTargets.map (fun o => ⟨o.id, o.content⟩) ++
            (⟨s.project.id, .project s.project.content⟩ ::
              (Identified.contents .configuration s.buildConfigurations ++
                Identified.contents .configurationList s.configurationLists)))))) := by
  simp [contents, parts, map_snd_itemsAt]

/-- The nodes of contents. -/
def contentNodes (xs : List (Identified Content)) : Node := .list (xs.map fun x => x.content.node x.id)

theorem leaves_contentNodes (context : String) (xs : List (Identified Content)) :
    (contentNodes xs).leaves context =
      (itemsAt context xs).flatMap fun x => within x.1 x.2.content.leaves := by
  rw [contentNodes, Node.leaves_list]
  exact List.flatMap_congr fun x _ => x.2.content.leaves_node x.2.id x.1

theorem ids_contentNodes (xs : List (Identified Content)) :
    (contentNodes xs).ids = xs.map Identified.id := by
  rw [contentNodes, Node.ids_list, List.map_eq_flatMap]
  exact List.flatMap_congr fun x _ => x.content.ids_node x.id

/-- The document of a snapshot, whatever the types of the things in it. -/
theorem node_eq (s : Snapshot) :
    s.node = .record "XcodeProject" none [
      ("fileReferences", contentNodes (Identified.contents .file s.fileReferences)),
      ("groups", contentNodes (Identified.contents .group s.groups)),
      ("buildFiles", contentNodes (Identified.contents .buildFile s.buildFiles)),
      ("buildPhases", contentNodes (Identified.contents .phase s.buildPhases)),
      ("nativeTargets", contentNodes (s.nativeTargets.map fun o => ⟨o.id, o.content⟩)),
      ("project", (Content.project s.project.content).node s.project.id),
      ("buildConfigurations",
        contentNodes (Identified.contents .configuration s.buildConfigurations)),
      ("configurationLists",
        contentNodes (Identified.contents .configurationList s.configurationLists)),
      ("schemes", .list (s.schemes.map Scheme.node))] := by
  simp only [contentNodes, Identified.contents, List.map_map]
  rfl

theorem leaves_node (s : Snapshot) : s.node.leaves "project" = s.leaves := by
  have hschemes (context : String) : (Node.list (s.schemes.map Scheme.node)).leaves context = [] := by
    rw [Node.leaves_list, List.flatMap_eq_nil_iff]
    exact fun x _ => x.2.leaves_node x.1
  rw [node_eq, Node.leaves_record]
  simp only [List.flatMap_cons, List.flatMap_nil, List.append_nil, hschemes, leaves_contentNodes,
    Content.leaves_node]
  simp only [leaves, parts, List.flatMap_append, List.flatMap_cons]
  rfl

theorem ids_node (s : Snapshot) : s.node.ids = s.contents.map Identified.id := by
  have hschemes : (Node.list (s.schemes.map Scheme.node)).ids = [] := by
    rw [Node.ids_list, List.flatMap_eq_nil_iff]
    exact fun x _ => x.ids_node
  rw [node_eq, Node.ids_record]
  simp [hschemes, ids_contentNodes, Content.ids_node, contents_eq]

end Snapshot
end ProjectGraph
