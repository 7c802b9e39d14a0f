import ProjectGraph.Build.Dependencies
import ProjectGraph.Proofs.Operations.Groups
import ProjectGraph.Proofs.Operations.Phases

/-! # Products and dependencies of a target -/

namespace ProjectGraph.Project

variable {p q : Project} {t : ObjectId} {f : Identified FileReference}

/-! ## The products -/

/-- What the group of products lists. -/
def products (p : Project) : List Reference :=
  match (p.content? p.productsGroup).bind Content.group? with
  | some g => g.children
  | none => []

/-- The first product with this path. -/
def product? (p : Project) (path : String) : Option (Identified FileReference) :=
  p.first (Content.fileAt? path) p.products

theorem products_of_group {g : Group} (hg : p.content? p.productsGroup = some (.group g)) :
    p.products = g.children := by
  rw [products, hg]
  rfl

theorem content?_of_product? {path : String} (h : p.product? path = some f) :
    p.content? f.id = some (.file f.content) ∧ f.content.path = path :=
  content?_of_first_file h

variable [IdScheme]

theorem product?_of_grows {path : String} (hp : p.WellFormed) (h : p.product? path = some f) (hpq : p.Grows q) :
    q.product? path = some f := by
  obtain ⟨g, hg⟩ := hp.productsGroup
  obtain ⟨b, hb, -, -, -, hbegins⟩ := hpq.group hg
  rw [← hpq.productsGroup] at hb
  rw [product?, products_of_group hg] at h
  rw [product?, products_of_group hb]
  exact first_file_of_grows hpq (hp.isSome_of_children hg) hbegins h

theorem findProduct_eq (hp : p.WellFormed) (path : String) :
    findProduct path p = .ok (p.product? path) p := by
  obtain ⟨g, hg⟩ := hp.productsGroup
  rw [findProduct, get_bind, findFileReference_eq hp hg path,
    product?, products_of_group hg]

/-! ## The product of a target -/

/-- The target has the first product with this path. -/
def HasProduct (p : Project) (t : ObjectId) (path : String) : Prop :=
  ∃ f a, p.product? path = some f ∧ p.content? t = some (.target a) ∧
    a.productReference = some ⟨f.id, some path⟩

/-- A step leaves the product of a target, or sets it. -/
theorem productReference_reviseContent {s : Step} {i : ObjectId} {a b : NativeTarget}
    (h : s.reviseContent i (.target a) = .target b) :
    b.productReference = a.productReference ∨
      ∃ r, s = .product i r ∧ b.productReference = some r := by
  cases s with
  | attach owner x =>
    simp only [Step.reviseContent] at h
    split at h
    · cases x <;> cases h <;> exact .inl rfl
    · cases h
      exact .inl rfl
  | product j r =>
    simp only [Step.reviseContent] at h
    split at h
    · next hij =>
      cases h
      exact .inr ⟨r, hij ▸ rfl, rfl⟩
    · cases h
      exact .inl rfl
  | configurationList | settings | script =>
    simp only [Step.reviseContent] at h
    split at h <;> cases h <;> exact .inl rfl
  | configuration | scheme | schemeChange =>
    cases h
    exact .inl rfl

/-- A target keeps its product unless it is given another one. -/
theorem HasProduct.path {A : Project → Step → Prop} {path : String} (hp : p.WellFormed)
    (h : p.HasProduct t path) (hpq : Path A p q)
    (hA : ∀ q' r, Path A p q' → A q' (.product t r) →
      ∃ f, q'.product? path = some f ∧ r = ⟨f.id, some path⟩) : q.HasProduct t path := by
  induction hpq with
  | refl => exact h
  | @step q s hpath due fresh allowed ih =>
    obtain ⟨f, a, hf, ha, hr⟩ := ih
    have hq := hpath.wellFormed hp
    have hgrow := Step.grows_apply due
    obtain ⟨b, hb, -⟩ := hgrow.target ha
    refine ⟨f, b, product?_of_grows hq hf hgrow, hb, ?_⟩
    rw [Step.content?_apply_of_some ha] at hb
    rcases productReference_reviseContent (Option.some.inj hb) with hsame | ⟨r, rfl, hnew⟩
    · rw [hsame, hr]
    · obtain ⟨f', hf', rfl⟩ := hA q r hpath allowed
      rw [hf] at hf'
      cases hf'
      exact hnew

theorem withProductReference_eq (t : ObjectId) (r : Reference) (p : Project) :
    modifyObject t (Object.withProductReference (some r)) p = .ok () ((Step.product t r).apply p) :=
  Step.modifyObject_eq_apply rfl rfl rfl rfl

/-- The product with a path, made anew if there is none. -/
def productOrNew (path : String) (type : FileType) : Edit (Identified FileReference) := do
  match ← findProduct path with
  | some product => return product
  | none =>
    let id ← register (.file (.product path type))
    addChild (← get).productsGroup ⟨id, some path⟩
    return ⟨id, .product path type⟩

theorem newProductReference_eq (t : ObjectId) (name : String) (kind : TargetKind) :
    newProductReference t name kind = do
      let product ← productOrNew (productPath name kind) (productFileType kind)
      discard <| resolve t
      modifyObject t (Object.withProductReference (some ⟨product.id, some (productPath name kind)⟩))
      return product := by
  unfold newProductReference productOrNew
  rw [bind_assoc]
  refine bind_congr fun x => ?_
  cases x with
  | some product => rfl
  | none => simp only [bind_assoc]

theorem newProductReference_of_hasProduct {name : String} {kind : TargetKind} (hp : p.WellFormed)
    (h : p.HasProduct t (productPath name kind)) :
    ∃ f, newProductReference t name kind p = .ok f p := by
  obtain ⟨f, a, hf, ha, hr⟩ := h
  obtain ⟨o, ho, hoa⟩ := exists_find?_of_content? ha
  refine ⟨f, ?_⟩
  have hfind := findProduct_eq hp (productPath name kind)
  have hmodify : modifyObject t
      (Object.withProductReference (some ⟨f.id, some (productPath name kind)⟩)) p = .ok () p := by
    rw [withProductReference_eq, Step.apply_eq_self hp rfl rfl rfl rfl ho]
    obtain ⟨j, c, attached⟩ := o
    cases hoa
    show Object.mk j (.target { a with productReference := _ }) attached = _
    rw [← hr]
  have hproduct : productOrNew (productPath name kind) (productFileType kind) p = .ok f p := by
    rw [productOrNew, bind_of_ok hfind, hf]
    rfl
  rw [newProductReference_eq, bind_of_ok hproduct, bind_of_ok (discard_of_ok (resolve_of_find? ho)),
    bind_of_ok hmodify]
  rfl

/-- The steps that give a target its product. -/
def ProductSteps (t : ObjectId) (path : String) (q : Project) (s : Step) : Prop :=
  (∃ type, s = .attach q.productsGroup (.product path type)) ∨
    ∃ f, q.product? path = some f ∧ s = .product t ⟨f.id, some path⟩

/-- A product can be registered if there is none of its path. -/
theorem due_product (hp : p.WellFormed) {path : String} (hnone : p.product? path = none)
    (type : FileType) : (Step.attach p.productsGroup (.product path type)).Due p := by
  obtain ⟨g, hg⟩ := hp.productsGroup
  rw [product?, products_of_group hg] at hnone
  refine .product rfl hg fun r hr f hfile hpath => ?_
  have hview := first_eq_none_iff.1 hnone r hr _ hfile
  rw [Content.fileAt?_eq_some.2 ⟨rfl, hpath⟩] at hview
  cases hview

/-- A target can be given a product. -/
theorem due_productReference (hp : p.WellFormed) {a : NativeTarget}
    (ha : p.content? t = some (.target a)) {path : String} (hf : p.product? path = some f) :
    (Step.product t ⟨f.id, some path⟩).Due p := by
  obtain ⟨hfile, hpath⟩ := content?_of_product? hf
  obtain ⟨g, hg⟩ := hp.productsGroup
  rw [product?, products_of_group hg] at hf
  obtain ⟨r, hr, hid, -⟩ := exists_of_first hf
  have hlisted : f.id ∈ g.children.map Reference.id := hid ▸ List.mem_map_of_mem hr
  exact .productReference ha hfile hg hlisted (congrArg some hpath.symm)

theorem performs_productOrNew (hp : p.WellFormed) (t : ObjectId) (path : String)
    (type : FileType) :
    Edit.Performs (ProductSteps t path) (productOrNew path type) p
      fun f q => q.product? path = some f := by
  refine .bind_read (findProduct_eq hp path) ?_
  cases hf : p.product? path with
  | some f => exact .of_ok rfl hf
  | none =>
    have hdue := due_product hp hf type
    obtain ⟨g, hg⟩ := hp.productsGroup
    rw [product?, products_of_group hg] at hf
    refine Edit.performs_register (b := ⟨(Content.file (.product path type)).id, .product path type⟩)
      hdue (.inl ⟨type, rfl⟩) rfl rfl fun hfresh => ?_
    have hnew := first_attached hp hdue hfresh (Content.stableView_fileAt? path)
      (hp.isSome_of_children hg) hf (Content.fileAt?_eq_some.2 ⟨rfl, rfl⟩)
    have hgroup : ((Step.attach p.productsGroup (.product path type)).apply p).content?
        p.productsGroup = some (.group
          { g with children := g.children ++ [Part.reference (.product path type)] }) := by
      rw [Step.content?_apply_of_some hg]
      simp [Step.reviseContent, Content.append, Part.home]
    rw [product?, products_of_group (g := { g with
      children := g.children ++ [Part.reference (.product path type)] }) hgroup]
    exact hnew

theorem performs_newProductReference (hp : p.WellFormed) {a : NativeTarget}
    (ha : p.content? t = some (.target a)) (name : String) (kind : TargetKind) :
    Edit.Performs (ProductSteps t (productPath name kind)) (newProductReference t name kind) p
      fun f q => q.HasProduct t (productPath name kind) ∧
        q.product? (productPath name kind) = some f := by
  rw [newProductReference_eq]
  have hproduct := performs_productOrNew hp t (productPath name kind) (productFileType kind)
  refine hproduct.bind fun f q hpq hf => ?_
  have hq := hpq.wellFormed hp
  obtain ⟨b, hb, -⟩ := hpq.grows.target ha
  obtain ⟨o, ho, -⟩ := exists_find?_of_content? hb
  refine .bind_read (discard_of_ok (resolve_of_find? ho)) ?_
  have hdue := due_productReference hq hb hf
  have hfresh : (Step.product t ⟨f.id, some (productPath name kind)⟩).Fresh q := by
    intro _ h
    cases h
  have hstep : (modifyObject t
      (Object.withProductReference (some ⟨f.id, some (productPath name kind)⟩)) >>= fun _ => pure f) q =
      .ok f ((Step.product t ⟨f.id, some (productPath name kind)⟩).apply q) := by
    rw [bind_of_ok (withProductReference_eq t _ q)]
    rfl
  have hkept := product?_of_grows hq hf (Step.grows_apply hdue)
  refine .of_step hdue hfresh (.inr ⟨f, hf, rfl⟩) hstep rfl ⟨?_, hkept⟩
  refine ⟨f, { b with productReference := some ⟨f.id, some (productPath name kind)⟩ }, hkept, ?_, rfl⟩
  rw [Step.content?_apply_of_some hb]
  simp [Step.reviseContent, Content.withProductReference]

end ProjectGraph.Project
