import GraphSchema.Proofs.Pruning

/-!
Metadata describe, and do no more.

- `TypeGraph.Alike.validate` : graphs whose nodes differ in metadata only are both in order, or break the same rule.
- `Json.unannotated` : a document without the annotations of its schemas. Names of properties and definitions stay, and
  so do values that are no schemas.
- `metadata_is_descriptive` : whatever metadata say, builds differ in annotations only.
-/

namespace GraphSchema

/-! ## The rules for graphs -/

section Validation

variable {M : Option Metadata → Option Metadata → Prop} {graph other : TypeGraph} {m n : ObjectNode}

theorem ObjectNode.Alike.parts (h : m.Alike M n) : m.shape.parts = n.shape.parts := by
  obtain ⟨_, _, shape⟩ := m
  obtain ⟨_, _, shape'⟩ := n
  obtain ⟨-, -, hshape⟩ := h
  cases hshape with
  | same => rfl
  | @custom ps qs implements hprops =>
    dsimp only [ObjectShape.parts]
    induction hprops with
    | nil => rfl
    | @cons p q _ _ hpq _ ih =>
      have hmember : p.member? = q.member? := by
        unfold Property.member?
        rw [hpq.shape]
      rw [List.filterMap_cons, List.filterMap_cons, hmember, ih]

theorem ObjectNode.Alike.children (h : m.Alike M n) : m.children = n.children := by
  have hparts := h.parts
  obtain ⟨_, _, shape⟩ := m
  obtain ⟨_, _, shape'⟩ := n
  cases h.shape with
  | same => rfl
  | custom implements hproperties => exact congrArg (· ++ implements) hparts

theorem checkProperties_congr (h : m.Alike M n) : TypeGraph.checkProperties m = TypeGraph.checkProperties n := by
  obtain ⟨identity, _, shape⟩ := m
  obtain ⟨_, _, shape'⟩ := n
  obtain ⟨rfl, -, hshape⟩ := h
  cases hshape with
  | same => rfl
  | @custom ps qs implements hprops =>
    have hnames : ps.map (·.name) = qs.map (·.name) := by
      induction hprops with
      | nil => rfl
      | cons hpq _ ih => rw [List.map_cons, List.map_cons, hpq.name, ih]
    simp only [TypeGraph.checkProperties, hnames]

theorem TypeGraph.Alike.identities? (h : graph.Alike M other) (ids : List ObjectId) :
    graph.identities? ids = other.identities? ids := by
  have hsame : ∀ id, (graph.get? id).map (·.identity) = (other.get? id).map (·.identity) := by
    intro id
    rcases h.get? id with ⟨hm, hn⟩ | ⟨m, n, hm, hn, hmn⟩
    · rw [hm, hn]
    · rw [hm, hn, Option.map_some, Option.map_some, hmn.identity]
  simp only [TypeGraph.identities?, hsame]

theorem checkImplementations_congr (h : graph.Alike M other) (hmn : m.Alike M n) :
    graph.checkImplementations m = other.checkImplementations n := by
  obtain ⟨identity, _, shape⟩ := m
  obtain ⟨_, _, shape'⟩ := n
  obtain ⟨rfl, -, hshape⟩ := hmn
  cases hshape with
  | same => simp only [TypeGraph.checkImplementations, h.identities?]
  | custom => rfl

theorem checkNode_congr (h : graph.Alike M other) (hmn : m.Alike M n) (id : ObjectId) :
    graph.checkNode id m = other.checkNode id n := by
  have hsize : graph.size = other.size := h.length_eq
  have hchildren : graph.checkChildren m = other.checkChildren n := by
    unfold TypeGraph.checkChildren
    rw [hmn.children, hsize, hmn.identity]
  have hidentity : TypeGraph.checkIdentity id m = TypeGraph.checkIdentity id n := by
    unfold TypeGraph.checkIdentity
    rw [hmn.kind, hmn.identity]
  unfold TypeGraph.checkNode
  rw [hchildren, hidentity, checkProperties_congr hmn, checkImplementations_congr h hmn]

/-- Metadata have no part in the rules for graphs. -/
theorem TypeGraph.Alike.validate (h : graph.Alike M other) : graph.validate = other.validate := by
  suffices hall : ∀ {as bs : List ObjectNode} (i : Nat), List.Forall₂ (ObjectNode.Alike M) as bs →
      ((as.zipIdx i).map fun entry => (ObjectId.mk entry.2, entry.1)).forM
          (fun entry => graph.checkNode entry.1 entry.2) =
        ((bs.zipIdx i).map fun entry => (ObjectId.mk entry.2, entry.1)).forM
          (fun entry => other.checkNode entry.1 entry.2) from hall 0 h
  intro as bs i hab
  induction hab generalizing i with
  | nil => rfl
  | @cons m n _ _ hmn _ ih =>
    have hrest := ih (i + 1)
    change (graph.checkNode ⟨i⟩ m >>= fun _ => _) = (other.checkNode ⟨i⟩ n >>= fun _ => _)
    rw [checkNode_congr h hmn]
    exact congrArg _ (funext fun _ => hrest)

end Validation

/-! ## Annotations -/

/-- what stands at a place of a document -/
inductive Position where
  /-- a schema -/
  | schema
  /-- schemas by names -/
  | table
  /-- a value that is no schema -/
  | verbatim

/-- The deletion of keywords from schemas, from these as compilation nests them. Tables keep their names, and all that
stands under other keywords is kept as it is. -/
def Json.Guide.schemas (keywords : List String) : Json.Guide Position where
  drops
    | .schema, key => keywords.contains key
    | .table, _ | .verbatim, _ => false
  below
    | .schema, key =>
      if ["items", "additionalProperties", "oneOf", "prefixItems"].contains key then .schema
      else if ["properties", Reference.definitionsKeyword].contains key then .table
      else .verbatim
    | .table, _ => .schema
    | .verbatim, _ => .verbatim

/-- the document without the annotations of its schemas -/
def Json.unannotated (document : Json) : Json :=
  document.prune (Json.Guide.schemas Schema.annotationKeywords) .schema

theorem schematic_schemas {keywords : List String} (h : "$comment" ∈ keywords) :
    (Json.Guide.schemas keywords).Schematic .schema .table where
  inside key hkey := by
    have hcontains := List.contains_iff_mem.2 hkey
    simp only [Json.Guide.schemas, hcontains, if_true]
  tables key hkey := by
    simp only [List.mem_cons, List.not_mem_nil, or_false] at hkey
    rcases hkey with rfl | rfl <;> rfl
  entries key := rfl
  comments := List.contains_iff_mem.2 h

/-- A property keeps its name where an annotation of that name is deleted. -/
example :
    (Json.obj [("title", .str "A node"),
      ("properties", .obj [("title", .obj [("deprecated", .bool true)])])]).unannotated =
      .obj [("properties", .obj [("title", .obj [])])] := rfl

/-- **Metadata describe.** Let two graphs differ in the metadata of nodes and properties only, and two requests in their
metadata only. Then both builds fail with one error, or both come to the same diagnostics, to definitions under the same
keys, and to documents that are equal, in their order too, when the annotations are deleted from their schemas. -/
theorem metadata_is_descriptive {graph other : TypeGraph} (h : graph.Alike (fun _ _ => True) other)
    (request : RootRequest) (metadata : Option Metadata) (options : CompileOptions) :
    EndAlike (fun c d => c.diagnostics = d.diagnostics ∧ Members.keys c.defs = Members.keys d.defs ∧
        c.document.unannotated = d.document.unannotated)
      (build graph request options) (build other { request with metadata } options) := by
  have hguide : (Json.Guide.schemas Schema.annotationKeywords).Schematic .schema .table :=
    schematic_schemas (by decide)
  have hdrops : ∀ key ∈ Schema.annotationKeywords,
      (Json.Guide.schemas Schema.annotationKeywords).drops .schema key = true :=
    fun key hkey => List.contains_iff_mem.2 hkey
  have hcompat : Shape.Compositional (Json.prune (Json.Guide.schemas Schema.annotationKeywords) .schema)
      (fun _ _ => True) := hguide.compositional fun _ _ _ => Or.inr hdrops
  have halike : BuildsAlike (Json.prune (Json.Guide.schemas Schema.annotationKeywords) .schema) (fun _ _ => True) True
      graph other request { request with metadata } options options :=
    ⟨h, h.validate, rfl, rfl, rfl, fun _ _ _ => trivial, rfl, Or.inl rfl, Nat.le_refl _, fun _ => rfl⟩
  refine (build_endAlike hcompat halike).mono ?_
  intro c d hagrees
  exact ⟨hagrees.diagnostics, hagrees.keys, hguide.agrees hagrees⟩

/-- The list of tagged nodes with metadata on types and properties. -/
def describedList : TypeGraph := ⟨[
  { identity := "string", shape := .system .string },
  { identity := "Node", metadata := some { title := some "A node", deprecated := true },
    shape := .custom [
      { Property.custom "next" ⟨2⟩ with metadata := some { comment := some "none at the end" } },
      Property.custom "tags" ⟨3⟩] [] },
  { identity := "Node?", shape := .nullable ⟨1⟩ },
  { identity := "Tag[]", metadata := some { description := some "all tags" }, shape := .array "Array" ⟨4⟩ },
  { identity := "Tag", shape := .custom [Property.custom "label" ⟨0⟩, Property.custom "parent" ⟨4⟩] [] }]⟩

theorem taggedList_alike_describedList : taggedList.Alike (fun _ _ => True) describedList := by
  have hsame : ∀ p : Property, p.Alike (fun _ _ => True) p := fun p => ⟨rfl, trivial, rfl, rfl⟩
  have hnext : (Property.custom "next" ⟨2⟩).Alike (fun _ _ => True)
      { Property.custom "next" ⟨2⟩ with metadata := some { comment := some "none at the end" } } :=
    ⟨rfl, trivial, rfl, rfl⟩
  refine .cons ⟨rfl, trivial, .same _ (by decide)⟩ (.cons ⟨rfl, trivial, ?_⟩ (.cons ⟨rfl, trivial, .same _ (by decide)⟩
    (.cons ⟨rfl, trivial, .same _ (by decide)⟩ (.cons ⟨rfl, trivial, ?_⟩ .nil))))
  · exact .custom [] (.cons hnext (.cons (hsame _) .nil))
  · exact .custom [] (.cons (hsame _) (.cons (hsame _) .nil))

/-- The list of tagged nodes and the one with metadata differ in annotations only. -/
theorem metadata_is_descriptive_describedList : taggedList.Alike (fun _ _ => True) describedList ∧
    EndAlike (fun c d => c.diagnostics = d.diagnostics ∧ Members.keys c.defs = Members.keys d.defs ∧
        c.document.unannotated = d.document.unannotated)
      (build taggedList { root := ⟨1⟩ } {})
      (build describedList { root := ⟨1⟩, metadata := some { title := some "A list" } } {}) :=
  ⟨taggedList_alike_describedList,
    metadata_is_descriptive taggedList_alike_describedList { root := ⟨1⟩ } (some { title := some "A list" }) {}⟩

end GraphSchema
