import Mathlib.Data.List.Forall2
import GraphSchema.Proofs.Termination

/-!
Graphs that say the same in other places.

- `ObjectNode.Corresponds` relates two nodes that agree in all they say, while the nodes they name are related.
- `TypeGraph.Matches`: a relation between the positions of two graphs under which related nodes correspond.
- `Shape.layer_congr`, `Shape.object_congr`: related nodes compile by the same steps, whatever the state.
- `build_eq_of_matches`: so a document does not depend on where the nodes of its graph stand, how often a node is
  repeated, or what else is in the graph.
-/

namespace GraphSchema

/-! ## Correspondence -/

/-- what two members say alike, when the nodes behind them are related -/
inductive PropertyShape.Corresponds (R : ObjectId → ObjectId → Prop) : PropertyShape → PropertyShape → Prop
  | override (schema : String) : Corresponds R (.override schema) (.override schema)
  | custom {a b : ObjectId} (default : Option String) (hmember : R a b) :
    Corresponds R (.custom a default) (.custom b default)

/-- two properties that differ only in the nodes they name -/
structure Property.Corresponds (R : ObjectId → ObjectId → Prop) (p q : Property) : Prop where
  name : p.name = q.name
  metadata : p.metadata = q.metadata
  nullability : p.nullability = q.nullability
  shape : p.shape.Corresponds R q.shape

/-- Two shapes that differ only in the nodes they name: `R` relates their children, and `S` the arguments of generic
types. Nothing is said of the abstract types that an object type implements. -/
inductive ObjectShape.Corresponds (R S : ObjectId → ObjectId → Prop) : ObjectShape → ObjectShape → Prop
  | system (primitive : Primitive) : Corresponds R S (.system primitive) (.system primitive)
  | override (schema : String) : Corresponds R S (.override schema) (.override schema)
  | nullable {a b : ObjectId} (helement : R a b) : Corresponds R S (.nullable a) (.nullable b)
  | generic {as bs : List ObjectId} (base : String) (harguments : List.Forall₂ S as bs) :
    Corresponds R S (.generic base as) (.generic base bs)
  | map {k l a b : ObjectId} (base : String) (hkey : R k l) (hvalue : R a b) :
    Corresponds R S (.map base k a) (.map base l b)
  | array {a b : ObjectId} (base : String) (helement : R a b) : Corresponds R S (.array base a) (.array base b)
  | abstract {as bs : List ObjectId} (himplementations : List.Forall₂ R as bs) :
    Corresponds R S (.abstract as) (.abstract bs)
  | custom {ps qs : List Property} (implements others : List ObjectId)
    (hproperties : List.Forall₂ (Property.Corresponds R) ps qs) :
    Corresponds R S (.custom ps implements) (.custom qs others)
  | tuple {as bs : List ObjectId} (helements : List.Forall₂ R as bs) : Corresponds R S (.tuple as) (.tuple bs)

/-- two nodes that differ only in the nodes they name -/
structure ObjectNode.Corresponds (R S : ObjectId → ObjectId → Prop) (m n : ObjectNode) : Prop where
  identity : m.identity = n.identity
  metadata : m.metadata = n.metadata
  shape : m.shape.Corresponds R S n.shape

/-- Related positions hold nodes that say the same and have related children. Of the arguments of a generic type
only their number counts. -/
def TypeGraph.Matches (graph other : TypeGraph) (R : ObjectId → ObjectId → Prop) : Prop :=
  ∀ a b, R a b → ∃ m n, graph.get? a = some m ∧ other.get? b = some n ∧ m.Corresponds R (fun _ _ => True) n

variable {R S : ObjectId → ObjectId → Prop}

theorem ObjectNode.Corresponds.kind {m n : ObjectNode} (h : m.Corresponds R S n) : m.kind = n.kind := by
  obtain ⟨_, _, s⟩ := m
  obtain ⟨_, _, t⟩ := n
  cases h.shape <;> rfl

/-! ## Corresponding nodes compile alike -/

namespace Shape

variable {compile compile' : Compiler ObjectId}

theorem elements_congr (hc : ∀ a b, R a b → compile a = compile' b) {as bs : List ObjectId}
    (h : List.Forall₂ R as bs) : elements compile as = elements compile' bs := by
  induction h with
  | nil => rfl
  | cons hab _ ih => simp only [elements, hc _ _ hab, ih]

theorem arms_congr (hc : ∀ a b, R a b → compile a = compile' b) {as bs : List ObjectId}
    (h : List.Forall₂ R as bs) : arms compile as = arms compile' bs := by
  induction h with
  | nil => rfl
  | cons hab _ ih => simp only [arms, hc _ _ hab, ih]

theorem property_congr (hc : ∀ a b, R a b → compile a = compile' b) (owner : String) {p q : Property}
    (h : p.Corresponds R q) : property compile owner p = property compile' owner q := by
  obtain ⟨name, metadata, _, shape⟩ := p
  obtain ⟨_, _, _, shape'⟩ := q
  obtain ⟨rfl, rfl, -, hshape⟩ := h
  cases hshape with
  | override schema => rfl
  | custom default hmember => simp only [property, hc _ _ hmember]

/-- a compiled property with no more of the property than what the schema of its owner uses -/
def outline (entry : Property × Schema) : Property × Schema :=
  ({ name := entry.1.name, nullability := entry.1.nullability, shape := .override "" }, entry.2)

theorem objectSchema_outline (compiled : List (Property × Schema)) :
    objectSchema (compiled.map outline) = objectSchema compiled := by
  unfold objectSchema
  simp only [List.map_map, List.filter_map, Function.comp_def, outline]

theorem properties_congr (hc : ∀ a b, R a b → compile a = compile' b) (owner : String) {ps qs : List Property}
    (h : List.Forall₂ (Property.Corresponds R) ps qs) :
    List.map outline <$> properties compile owner ps = List.map outline <$> properties compile' owner qs := by
  have hcons : ∀ (compile : Compiler ObjectId) (p : Property) (rest : List Property),
      List.map outline <$> properties compile owner (p :: rest) = do
        let schema ← property compile owner p
        let others ← List.map outline <$> properties compile owner rest
        return (schema.map fun schema => outline (p, schema)).toList ++ others := by
    intro compile p rest
    simp only [properties, map_bind, bind_map_left, map_pure, List.map_append]
    refine bind_congr fun schema => ?_
    cases schema <;> rfl
  induction h with
  | nil => rfl
  | @cons p q _ _ hpq _ ih =>
    have hsame : ∀ schema, outline (p, schema) = outline (q, schema) := by
      intro schema
      simp only [outline, hpq.name, hpq.nullability]
    rw [hcons, hcons, property_congr hc owner hpq, ih]
    simp only [hsame]

theorem hasStringKeys_congr {m n : ObjectNode} (h : m.Corresponds R S n) : hasStringKeys m = hasStringKeys n := by
  obtain ⟨_, _, s⟩ := m
  obtain ⟨_, _, t⟩ := n
  cases h.shape <;> rfl

variable {setting : Setting} {other : TypeGraph}

theorem node_of_get (setting : Setting) {id : ObjectId} {node : ObjectNode} (h : setting.graph.get? id = some node) :
    Walk.node setting id = pure node := by
  rw [Walk.node, TypeGraph.get_eq_ok_iff.2 h]
  rfl

theorem map_congr (hmatch : setting.graph.Matches other R) (hc : ∀ a b, R a b → compile a = compile' b)
    {m n : ObjectNode} (hidentity : m.identity = n.identity) {k l a b : ObjectId} (hkey : R k l) (hvalue : R a b) :
    map setting compile m k a = map { setting with graph := other } compile' n l b := by
  obtain ⟨keyNode, keyNode', hget, hget', hsame⟩ := hmatch _ _ hkey
  have hrefusal : keyRefusal m keyNode = keyRefusal n keyNode' := by
    unfold keyRefusal
    rw [hidentity, hsame.identity]
  have hcomment : keyComment m keyNode = keyComment n keyNode' := by
    unfold keyComment
    rw [hidentity, hsame.identity]
  unfold map
  rw [node_of_get setting hget, node_of_get { setting with graph := other } hget', pure_bind, pure_bind,
    hasStringKeys_congr hsame, hc _ _ hvalue, hidentity, hrefusal, hcomment]

/-- Corresponding nodes compile by the same steps when their related children do. -/
theorem layer_congr (hmatch : setting.graph.Matches other R) (hc : ∀ a b, R a b → compile a = compile' b)
    {m n : ObjectNode} (h : m.Corresponds R (fun _ _ => True) n) :
    layer setting compile m = layer { setting with graph := other } compile' n := by
  obtain ⟨identity, metadata, s⟩ := m
  obtain ⟨_, _, t⟩ := n
  obtain ⟨rfl, rfl, hshape⟩ := h
  cases hshape with
  | system primitive => simp only [layer]
  | override schema => simp only [layer]
  | nullable helement => simp only [layer, hc _ _ helement]
  | generic base harguments => simp only [layer, harguments.length_eq]
  | map base hkey hvalue =>
    simp only [layer]
    exact map_congr hmatch hc rfl hkey hvalue
  | array base helement => simp only [layer, hc _ _ helement]
  | abstract himplementations => simp only [layer, union, arms_congr hc himplementations]
  | custom implements others hproperties =>
    have hown : ∀ (compile : Compiler ObjectId) (props : List Property), (do
          let compiled ← Shape.properties compile identity props
          return some (objectSchema compiled) : WalkM (Option Schema)) =
        (some ∘ objectSchema) <$> List.map outline <$> Shape.properties compile identity props := by
      intro compile props
      simp only [Functor.map_map, Function.comp_def, objectSchema_outline, bind_pure_comp]
    simp only [layer, hown, properties_congr hc identity hproperties]
  | tuple helements => simp only [layer, elements_congr hc helements]

theorem definition_congr {shape shape' : Compiler ObjectNode} {m n : ObjectNode} (h : m.Corresponds R S n)
    (hs : shape m = shape' n) : definition shape m = definition shape' n := by
  unfold definition annotated
  rw [hs, h.metadata, h.identity]

theorem reference_congr {shape shape' : Compiler ObjectNode} {m n : ObjectNode} (h : m.Corresponds R S n)
    (hs : shape m = shape' n) :
    reference setting shape m = reference { setting with graph := other } shape' n := by
  unfold reference
  rw [h.identity, definition_congr h hs]

theorem object_congr (hmatch : setting.graph.Matches other R) {shape shape' : Compiler ObjectNode}
    (hs : ∀ {m n : ObjectNode}, m.Corresponds R (fun _ _ => True) n → shape m = shape' n) {a b : ObjectId}
    (hab : R a b) : object setting shape a = object { setting with graph := other } shape' b := by
  obtain ⟨m, n, hget, hget', hmn⟩ := hmatch a b hab
  unfold object annotated
  rw [node_of_get setting hget, node_of_get { setting with graph := other } hget', pure_bind, pure_bind,
    hmn.kind, hmn.metadata, hs hmn, reference_congr hmn (hs hmn)]

/-- **One walk for both.** Corresponding nodes compile by the same steps, with any number of levels left. -/
theorem shape_congr (setting : Setting) (hmatch : setting.graph.Matches other R) (room : Nat) {m n : ObjectNode}
    (h : m.Corresponds R (fun _ _ => True) n) :
    shape setting room m = shape { setting with graph := other } room n := by
  induction room generalizing m n with
  | zero =>
    unfold shape
    rw [h.identity]
  | succ room ih =>
    unfold shape
    rw [layer_congr hmatch (fun a b hab => object_congr hmatch ih hab) h]

end Shape

/-! ## Builds -/

variable {graph other : TypeGraph} {options : CompileOptions}

theorem compileRoot_congr (hmatch : graph.Matches other R) {m n : ObjectNode}
    (h : m.Corresponds R (fun _ _ => True) n) :
    compileRoot (rootSetting graph options m) m = compileRoot (rootSetting other options n) n := by
  have hsetting : rootSetting other options n = { rootSetting graph options m with graph := other } := by
    unfold rootSetting
    rw [h.kind, h.identity]
  unfold compileRoot
  rw [hsetting, Shape.shape_congr (rootSetting graph options m) hmatch _ h, h.identity]

/-- **Content, not position.** Let two graphs be in order, and a relation between their nodes be such that related
nodes say the same and have related children. Then from related roots, with all else equal, both builds come to the
same: one document with the same diagnostics, or the one error that the levels run out. -/
theorem build_eq_of_matches (hgraph : graph.validate = .ok ()) (hother : other.validate = .ok ())
    (hmatch : graph.Matches other R) {a b : ObjectId} (hroot : R a b) (request : RootRequest) :
    build graph { request with root := a } options = build other { request with root := b } options ∧
      ∀ e, build graph { request with root := a } options = .error e →
        ∃ identity, e = .depthExceeded options.maxDepth identity := by
  obtain ⟨m, n, hget, hget', hmn⟩ := hmatch a b hroot
  have hmetadata : rootMetadata m request = rootMetadata n request := by
    unfold rootMetadata
    rw [hmn.metadata]
  have hrootA : graph.get? ({ request with root := a } : RootRequest).root = some m := hget
  have hrootB : other.get? ({ request with root := b } : RootRequest).root = some n := hget'
  refine ⟨?_, fun e he => ?_⟩
  · rw [build_eq hgraph hrootA, build_eq hother hrootB, compileRoot_congr hmatch hmn]
    change rootMetadata m { request with root := a } = rootMetadata n { request with root := b } at hmetadata
    rw [hmetadata]
  · obtain ⟨after, hshape⟩ := build_error hgraph hrootA he
    have hvalid : (rootSetting graph options m).graph.validate = .ok () := hgraph
    exact shape_error_depth hvalid hget hshape

/-! ## The list of tagged nodes, written otherwise -/

/-- The list of tagged nodes in another order, with the type of a tag unrolled once, its label repeated, and a type
that nothing names. -/
def unrolledList : TypeGraph := ⟨[
  { identity := "Unused", shape := .abstract [] },
  { identity := "Tag", shape := .custom [Property.custom "label" ⟨6⟩, Property.custom "parent" ⟨2⟩] [] },
  { identity := "Tag", shape := .custom [Property.custom "label" ⟨3⟩, Property.custom "parent" ⟨2⟩] [] },
  { identity := "string", shape := .system .string },
  { identity := "Node", shape := .custom [Property.custom "next" ⟨5⟩, Property.custom "tags" ⟨7⟩] [] },
  { identity := "Node?", shape := .nullable ⟨4⟩ },
  { identity := "string", shape := .system .string },
  { identity := "Tag[]", shape := .array "Array" ⟨1⟩ }]⟩

/-- which position of the unrolled list stands for which of the list -/
def Unrolls (a b : ObjectId) : Prop :=
  (a.index, b.index) ∈ [(0, 3), (0, 6), (1, 4), (2, 5), (3, 7), (4, 1), (4, 2)]

instance (a b : ObjectId) : Decidable (Unrolls a b) :=
  inferInstanceAs (Decidable ((a.index, b.index) ∈ _))

theorem corresponds_custom {R : ObjectId → ObjectId → Prop} (name : String) {a b : ObjectId} (h : R a b) :
    (Property.custom name a).Corresponds R (Property.custom name b) :=
  ⟨rfl, rfl, rfl, .custom none h⟩

theorem taggedList_matches_unrolledList : taggedList.Matches unrolledList Unrolls := by
  have htag : ∀ {label parent : ObjectId}, Unrolls ⟨0⟩ label → Unrolls ⟨4⟩ parent →
      List.Forall₂ (Property.Corresponds Unrolls)
        [Property.custom "label" ⟨0⟩, Property.custom "parent" ⟨4⟩]
        [Property.custom "label" label, Property.custom "parent" parent] :=
    fun hlabel hparent => .cons (corresponds_custom _ hlabel) (.cons (corresponds_custom _ hparent) .nil)
  rintro ⟨i⟩ ⟨j⟩ h
  simp only [Unrolls, List.mem_cons, Prod.mk.injEq, List.not_mem_nil, or_false] at h
  rcases h with ⟨rfl, rfl⟩ | ⟨rfl, rfl⟩ | ⟨rfl, rfl⟩ | ⟨rfl, rfl⟩ | ⟨rfl, rfl⟩ | ⟨rfl, rfl⟩ | ⟨rfl, rfl⟩
  · exact ⟨_, _, rfl, rfl, rfl, rfl, .system _⟩
  · exact ⟨_, _, rfl, rfl, rfl, rfl, .system _⟩
  · have hprops := List.Forall₂.cons (corresponds_custom "next" (show Unrolls ⟨2⟩ ⟨5⟩ by decide))
      (.cons (corresponds_custom "tags" (show Unrolls ⟨3⟩ ⟨7⟩ by decide)) .nil)
    exact ⟨_, _, rfl, rfl, rfl, rfl, .custom _ _ hprops⟩
  · exact ⟨_, _, rfl, rfl, rfl, rfl, .nullable (by decide)⟩
  · exact ⟨_, _, rfl, rfl, rfl, rfl, .array _ (by decide)⟩
  · exact ⟨_, _, rfl, rfl, rfl, rfl, .custom _ _ (htag (by decide) (by decide))⟩
  · exact ⟨_, _, rfl, rfl, rfl, rfl, .custom _ _ (htag (by decide) (by decide))⟩

/-- The unrolled list compiles to the document of the list. -/
theorem build_eq_of_matches_unrolledList :
    taggedList.validate = .ok () ∧ unrolledList.validate = .ok () ∧ taggedList.Matches unrolledList Unrolls ∧
      Unrolls ⟨1⟩ ⟨4⟩ ∧ build taggedList { root := ⟨1⟩ } {} = build unrolledList { root := ⟨4⟩ } {} := by
  have hlist : taggedList.validate = .ok () := rfl
  have hunrolled : unrolledList.validate = .ok () := rfl
  have hroot : Unrolls ⟨1⟩ ⟨4⟩ := by decide
  refine ⟨hlist, hunrolled, taggedList_matches_unrolledList, hroot, ?_⟩
  exact (build_eq_of_matches hlist hunrolled taggedList_matches_unrolledList hroot { root := ⟨1⟩ }).1

end GraphSchema
