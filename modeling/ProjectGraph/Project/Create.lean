import ProjectGraph.Project.Basic

/-! # New projects

A new project holds its main group with the group of products in it, one configuration for each name,
their list, and the project's own record. -/

namespace ProjectGraph.Project

variable [IdScheme]

/-- The owner of the project's own configurations. -/
def projectOwner : String := "PROJECT"

def newProductsGroup : Group := { name := "Products", groupId := some "products" }

/-- The comment of references to the group of products. -/
def productsReference : Reference :=
  ⟨(Content.group newProductsGroup).id, some newProductsGroup.name⟩

def newMainGroup : Group :=
  { name := "", groupId := some "main", children := [productsReference] }

def newConfiguration (name : String) : Configuration := ⟨name, projectOwner, ∅⟩

/-- A list of configurations, of which the last one is the default. -/
def newConfigurationListOf (owner : String) (names : List String) (h : names ≠ [])
    (references : List Reference) : ConfigurationList :=
  ⟨owner, references, names.getLast h⟩

/-- The reference to a configuration, with its name as the comment. -/
def configurationReference (c : Configuration) : Reference :=
  ⟨(Content.configuration c).id, some c.name⟩

def newProjectList (names : List String) (h : names ≠ []) : ConfigurationList :=
  newConfigurationListOf projectOwner names h
    (names.map fun n => configurationReference (newConfiguration n))

def newRecord (name : String) (names : List String) (h : names ≠ []) : ProjectRecord where
  name := name
  configurationList := some ⟨(Content.configurationList (newProjectList names h)).id, none⟩
  mainGroup := ⟨(Content.group newMainGroup).id, none⟩
  productsGroup := productsReference

/-- The project before its first object is registered. -/
def blank (name : String) (names : List String) (h : names ≠ []) : Project where
  configurationNames := names
  configurationNames_ne_nil := h
  mainGroup := (Content.group newMainGroup).id
  productsGroup := (Content.group newProductsGroup).id
  record := (Content.project (newRecord name names h)).id
  objects := []

/-- What a new project holds, in order. -/
def initialContents (name : String) (names : List String) (h : names ≠ []) : List Content :=
  .group newMainGroup :: .group newProductsGroup ::
    names.map (fun n => .configuration (newConfiguration n)) ++
    [.configurationList (newProjectList names h), .project (newRecord name names h)]

/-- A new project with configurations of these names. -/
def create (name : String) (names : List String) : Except Error Project :=
  if h : names ≠ [] then
    match (initialContents name names h).forM (discard <| register ·) (blank name names h) with
    | .ok () p => .ok p
    | .error e _ => .error e
  else .error .noConfigurations

end ProjectGraph.Project
