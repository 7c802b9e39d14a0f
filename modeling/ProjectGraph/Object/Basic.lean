import ProjectGraph.Object.Content

/-! # Objects of a project

An object is a content under an id. In a broken project an object can be used as if it were of another
type. It may then be given parts of that type, which are attached to it beside its content. Attached
parts are in no document. -/

namespace ProjectGraph

/-- A thing together with its id. -/
structure Identified (α : Type) where
  id : ObjectId
  content : α
  deriving DecidableEq

/-- Parts that an object has been given though its type has no place for them. A reference that has
been given can be an empty one. -/
structure Attachment where
  configurationList : Option (Option Reference) := none
  productReference : Option (Option Reference) := none
  settings : Option Settings := none
  deriving DecidableEq

structure Object where
  id : ObjectId
  content : Content
  attached : Attachment := {}
  deriving DecidableEq

/-- A content under its own id. -/
def Content.object [IdScheme] (c : Content) : Object := { id := c.id, content := c }

namespace Object

/-- The object under a view of its content, if it has that view. -/
def view? {α : Type} (view : Content → Option α) (o : Object) : Option (Identified α) :=
  (view o.content).map fun a => ⟨o.id, a⟩

/-! ## Parts that can be attached -/

/-- The list of configurations, which targets and the project have a place for. -/
def configurationList? (o : Object) : Option (Option Reference) :=
  match o.content with
  | .target t => some t.configurationList
  | .project p => some p.configurationList
  | _ => o.attached.configurationList

def withConfigurationList (r : Option Reference) (o : Object) : Object :=
  match o.content with
  | .target t => { o with content := .target { t with configurationList := r } }
  | .project p => { o with content := .project { p with configurationList := r } }
  | _ => { o with attached.configurationList := some r }

/-- The product, which targets have a place for. -/
def productReference? (o : Object) : Option (Option Reference) :=
  match o.content with
  | .target t => some t.productReference
  | _ => o.attached.productReference

def withProductReference (r : Option Reference) (o : Object) : Object :=
  match o.content with
  | .target t => { o with content := .target { t with productReference := r } }
  | _ => { o with attached.productReference := some r }

/-- The settings, which configurations have a place for. -/
def settings? (o : Object) : Option Settings :=
  match o.content with
  | .configuration c => some c.settings
  | _ => o.attached.settings

def withSettings (settings : Settings) (o : Object) : Object :=
  match o.content with
  | .configuration c => { o with content := .configuration { c with settings := settings } }
  | _ => { o with attached.settings := some settings }

@[simp] theorem configurationList?_withConfigurationList (r : Option Reference) (o : Object) :
    (o.withConfigurationList r).configurationList? = some r := by
  obtain ⟨id, c, a⟩ := o
  cases c <;> rfl

@[simp] theorem productReference?_withProductReference (r : Option Reference) (o : Object) :
    (o.withProductReference r).productReference? = some r := by
  obtain ⟨id, c, a⟩ := o
  cases c <;> rfl

@[simp] theorem settings?_withSettings (settings : Settings) (o : Object) :
    (o.withSettings settings).settings? = some settings := by
  obtain ⟨id, c, a⟩ := o
  cases c <;> rfl

end Object
end ProjectGraph
