import GraphSchema.Proofs.Correspondence
import GraphSchema.Proofs.Pruning

/-!
What the mode for the keys of maps changes.

- `Shape.layer_congr_followed` : a layer compiles the children that its edges go to, and no others.
- `Shape.shape_withMode` : where the keys of all maps on the way are strings, nodes compile by the same steps in all
  modes.
- `Json.withoutComments` : a document without its comments.
- `modes_differ_in_comments` : with such keys all modes build the same. With any keys, two of the modes build the same
  up to comments.
-/

namespace GraphSchema

/-! ## Keys that are strings -/

/-- Whether all maps that compilation can reach from a node have keys that are written as strings. -/
def TypeGraph.StringKeyed (graph : TypeGraph) (root : ObjectId) : Prop :=
  ∀ id node base key value, graph.Reaches .loose root id → graph.get? id = some node →
    node.shape = .map base key value → ∃ keyNode, graph.get? key = some keyNode ∧ Shape.hasStringKeys keyNode = true

/-- The mode that takes all keys follows all edges that any mode follows. -/
theorem TypeGraph.followed_loose (graph : TypeGraph) (mode : KeyMode) (node : ObjectNode) :
    graph.followed mode node ⊆ graph.followed .loose node := by
  unfold followed
  cases node.shape with
  | map base key value =>
    have haccepts : graph.acceptsKey .loose key = true := by simp [acceptsKey, KeyMode.acceptsAnyKey]
    dsimp only
    rw [if_pos haccepts]
    split_ifs <;> simp
  | _ => exact List.Subset.refl _

/-- the setting with another mode -/
def Setting.withMode (setting : Setting) (mode : KeyMode) : Setting :=
  { setting with options := { setting.options with dictionaryKeys := mode } }

namespace Shape

variable {setting : Setting} {compile compile' : Compiler ObjectId} {node : ObjectNode}

theorem node_of_missing (setting : Setting) {id : ObjectId} (h : setting.graph.get? id = none) :
    Walk.node setting id = throw (.danglingNode "<graph>" id) := by
  rw [Walk.node, TypeGraph.get, h]
  rfl

theorem properties_congr_members (owner : String) {props : List Property}
    (hc : ∀ id ∈ props.filterMap Property.member?, compile id = compile' id) :
    properties compile owner props = properties compile' owner props := by
  induction props with
  | nil => rfl
  | cons p rest ih =>
    have hhead : property compile owner p = property compile' owner p := by
      obtain ⟨name, metadata, nullability, shape⟩ := p
      cases shape with
      | override schema => rfl
      | custom member default => simp only [property, hc member List.mem_cons_self]
    have htail : ∀ id ∈ rest.filterMap Property.member?, compile id = compile' id := by
      intro id hid
      apply hc
      rw [List.filterMap_cons]
      cases p.member? with
      | none => exact hid
      | some member => exact List.mem_cons_of_mem _ hid
    rw [properties, properties, hhead, ih htail]

theorem map_congr_followed {key value : ObjectId}
    (hc : setting.graph.acceptsKey setting.options.dictionaryKeys key = true → compile value = compile' value) :
    map setting compile node key value = map setting compile' node key value := by
  unfold map
  cases hget : setting.graph.get? key with
  | none =>
    rw [node_of_missing setting hget]
    rfl
  | some keyNode =>
    rw [TypeGraph.acceptsKey_eq hget] at hc
    rw [node_of_get setting hget, pure_bind, pure_bind]
    cases hkey : hasStringKeys keyNode with
    | true =>
      rw [hkey] at hc
      simp only [hc rfl]
    | false =>
      rw [hkey] at hc
      cases hmode : setting.options.dictionaryKeys with
      | loose | silent => simp only [hc (by rw [hmode]; rfl)]
      | strict | skip => rfl

/-- **Only children.** A layer depends on how the children are compiled that its edges go to, and on no others. -/
theorem layer_congr_followed
    (hc : ∀ id ∈ setting.graph.followed setting.options.dictionaryKeys node, compile id = compile' id) :
    layer setting compile node = layer setting compile' node := by
  have hsame : ∀ {ids : List ObjectId}, (∀ id ∈ ids, compile id = compile' id) →
      List.Forall₂ (fun a b => a = b ∧ compile a = compile' b) ids ids := by
    intro ids hids
    exact List.forall₂_same.2 fun id hid => ⟨rfl, hids id hid⟩
  unfold TypeGraph.followed at hc
  unfold layer
  cases hs : node.shape with
  | system primitive => rfl
  | override fragment => rfl
  | generic base arguments => rfl
  | nullable element =>
    rw [hs] at hc
    simp only [hc element (List.mem_singleton_self _)]
  | array base element =>
    rw [hs] at hc
    simp only [hc element (List.mem_singleton_self _)]
  | map base key value =>
    rw [hs] at hc
    exact map_congr_followed fun haccepts => hc value (by simp [haccepts])
  | abstract implementations =>
    rw [hs] at hc
    simp only [union, arms_congr (fun _ _ h => h.2) (hsame hc)]
  | custom properties implements =>
    rw [hs] at hc
    simp only [properties_congr_members node.identity hc]
  | tuple ids =>
    rw [hs] at hc
    simp only [elements_congr (fun _ _ h => h.2) (hsame hc)]

/-- The mode has no part in a layer, unless it is a map whose keys are no strings. -/
theorem layer_withMode (mode : KeyMode)
    (hkeys : ∀ base key value, node.shape = .map base key value →
      ∃ keyNode, setting.graph.get? key = some keyNode ∧ hasStringKeys keyNode = true) :
    layer setting compile node = layer (setting.withMode mode) compile node := by
  unfold layer
  cases hs : node.shape with
  | map base key value =>
    obtain ⟨keyNode, hget, hstring⟩ := hkeys base key value hs
    have hget' : (setting.withMode mode).graph.get? key = some keyNode := hget
    simp only [map, node_of_get setting hget, node_of_get (setting.withMode mode) hget', pure_bind, if_pos hstring]
  | _ => rfl

/-- **One walk in all modes.** Where the keys of all maps on the way are strings, a node compiles by the same steps in
all modes, with any number of levels left. -/
theorem shape_withMode {root : ObjectId} (hkeys : setting.graph.StringKeyed root) (mode : KeyMode) (room : Nat)
    {id : ObjectId} (hget : setting.graph.get? id = some node) (hreach : setting.graph.Reaches .loose root id) :
    shape setting room node = shape (setting.withMode mode) room node := by
  induction room generalizing id node with
  | zero => rfl
  | succ room ih =>
    have hchildren : ∀ child ∈ setting.graph.followed setting.options.dictionaryKeys node,
        object setting (shape setting room) child =
          object (setting.withMode mode) (shape (setting.withMode mode) room) child := by
      intro child hchild
      have hnext := setting.graph.followed_loose _ _ hchild
      cases hfound : setting.graph.get? child with
      | none =>
        have hfound' : (setting.withMode mode).graph.get? child = none := hfound
        rw [object, object, node_of_missing setting hfound, node_of_missing _ hfound']
        rfl
      | some found =>
        have hsame := ih hfound (hreach.tail ⟨node, hget, hnext⟩)
        have hfound' : (setting.withMode mode).graph.get? child = some found := hfound
        have hreference : reference setting (shape setting room) found =
            reference (setting.withMode mode) (shape (setting.withMode mode) room) found := by
          unfold reference definition annotated
          rw [hsame]
          rfl
        unfold object annotated
        rw [node_of_get setting hfound, node_of_get _ hfound', pure_bind, pure_bind, hreference, hsame]
    unfold shape
    rw [layer_congr_followed hchildren,
      layer_withMode mode fun base key value => hkeys id node base key value hreach hget]

end Shape

variable {graph : TypeGraph} {request : RootRequest} {options : CompileOptions}

theorem build_withMode (hkeys : graph.StringKeyed request.root) (mode : KeyMode) :
    build graph request options = build graph request { options with dictionaryKeys := mode } := by
  cases hv : graph.validate with
  | error e => rw [build_of_invalid hv, build_of_invalid hv]
  | ok u =>
    cases hroot : graph.get? request.root with
    | none => rw [build_of_missing hv hroot, build_of_missing hv hroot]
    | some root =>
      have hsame : compileRoot (rootSetting graph options root) root =
          compileRoot (rootSetting graph { options with dictionaryKeys := mode } root) root := by
        have hwalk : (rootSetting graph options root).graph.StringKeyed request.root := hkeys
        have hshape := Shape.shape_withMode hwalk mode options.maxDepth hroot Relation.ReflTransGen.refl
        unfold compileRoot
        exact congrArg (· >>= _) hshape
      rw [build_eq hv hroot, build_eq hv hroot, hsame]

/-! ## Comments -/

/-- The deletion of all members with one of these keys, wherever they stand. -/
def Json.Guide.everywhere (keywords : List String) : Json.Guide Unit where
  drops _ key := keywords.contains key
  below _ _ := ()

/-- the value without its comments, those in the values of keywords included -/
def Json.withoutComments (value : Json) : Json := value.prune (Json.Guide.everywhere ["$comment"]) ()

theorem schematic_everywhere {keywords : List String} (h : "$comment" ∈ keywords) :
    (Json.Guide.everywhere keywords).Schematic () () :=
  ⟨fun _ _ => rfl, fun _ _ => rfl, fun _ => rfl, List.contains_iff_mem.2 h⟩

/-- **What the modes change.** If the keys of all maps that compilation reaches from the root are strings, then in all
modes a build comes to the same. Whatever the keys are, the mode that takes them with a comment and the one that takes
them silently either fail with one error, or come to the same diagnostics, to definitions under the same keys, and to
documents that differ in comments only. -/
theorem modes_differ_in_comments (graph : TypeGraph) (request : RootRequest) (options : CompileOptions) :
    (graph.StringKeyed request.root → ∀ mode other : KeyMode,
      build graph request { options with dictionaryKeys := mode } =
        build graph request { options with dictionaryKeys := other }) ∧
    EndAlike (fun c d => c.diagnostics = d.diagnostics ∧ Members.keys c.defs = Members.keys d.defs ∧
        c.document.withoutComments = d.document.withoutComments)
      (build graph request { options with dictionaryKeys := .loose })
      (build graph request { options with dictionaryKeys := .silent }) := by
  refine ⟨fun hkeys mode other => build_withMode hkeys other, ?_⟩
  have hguide : (Json.Guide.everywhere ["$comment"]).Schematic () () := schematic_everywhere List.mem_cons_self
  have hcompat : Shape.Compositional (Json.prune (Json.Guide.everywhere ["$comment"]) ()) Eq :=
    hguide.compositional fun m n hmn => Or.inl hmn
  have hmodes : Shape.ModesAlike (Json.prune (Json.Guide.everywhere ["$comment"]) ()) .loose .silent :=
    Or.inr ⟨rfl, rfl, fun s text => Schema.seen_comment hguide.comments text⟩
  have halike : BuildsAlike (Json.prune (Json.Guide.everywhere ["$comment"]) ()) Eq True graph graph request request
      { options with dictionaryKeys := .loose } { options with dictionaryKeys := .silent } :=
    .of_options graph request rfl hmodes (Nat.le_refl _) fun _ => rfl
  refine (build_endAlike hcompat halike).mono ?_
  intro c d hagrees
  exact ⟨hagrees.diagnostics, hagrees.keys, hguide.agrees hagrees⟩

/-- A stock: the counts of articles by their names. -/
def stockList : TypeGraph := ⟨[
  { identity := "string", shape := .system .string },
  { identity := "int", shape := .system .int32 },
  { identity := "Counts", shape := .map "Dictionary" ⟨0⟩ ⟨1⟩ },
  { identity := "Stock", shape := .custom [Property.custom "counts" ⟨2⟩] [] }]⟩

theorem stockList_stringKeyed : stockList.StringKeyed ⟨3⟩ := by
  intro id node base key value _ hget hmap
  have hm := TypeGraph.mem_objects hget
  simp only [stockList, List.mem_cons, List.not_mem_nil, or_false] at hm
  rcases hm with rfl | rfl | rfl | rfl
  · cases hmap
  · cases hmap
  · cases hmap
    exact ⟨_, rfl, rfl⟩
  · cases hmap

/-- In the stock, the mode that refuses keys comes to what the one comes to that takes them. -/
theorem modes_differ_in_comments_stockList : stockList.StringKeyed ⟨3⟩ ∧
    build stockList { root := ⟨3⟩ } { dictionaryKeys := .strict } =
      build stockList { root := ⟨3⟩ } { dictionaryKeys := .loose } :=
  ⟨stockList_stringKeyed,
    (modes_differ_in_comments stockList { root := ⟨3⟩ } {}).1 stockList_stringKeyed .strict .loose⟩

end GraphSchema
