import ProjectGraph.Project.Groups

/-! # Products of targets -/

namespace ProjectGraph.Project

variable [IdScheme]

omit [IdScheme] in
/-- The first product with this path. -/
def findProduct (path : String) : Edit (Option (Identified FileReference)) := do
  findFileReference (← get).productsGroup path

/-- The file name of the product of a target. -/
def productPath (name : String) (kind : TargetKind) : String := name ++ kind.productExtension

/-- The type of the product of a target; what has no extension is an executable. -/
def productFileType (kind : TargetKind) : FileType :=
  if kind.productExtension = "" then .executable else .ofExtension kind.productExtension

/-- Gives a target its product, registered at the end of the products if there is none of its path. -/
def newProductReference (t : ObjectId) (name : String) (kind : TargetKind) :
    Edit (Identified FileReference) := do
  let path := productPath name kind
  let product ← match ← findProduct path with
    | some product => pure product
    | none => do
      let file := FileReference.product path (productFileType kind)
      let id ← register (.file file)
      addChild (← get).productsGroup ⟨id, some path⟩
      pure ⟨id, file⟩
  discard <| resolve t
  modifyObject t (Object.withProductReference (some ⟨product.id, some path⟩))
  return product

end ProjectGraph.Project
