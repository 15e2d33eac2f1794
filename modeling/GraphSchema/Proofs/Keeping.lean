import GraphSchema.Proofs.Diagnostics
import GraphSchema.Proofs.Drops

/-!
Which properties of an object type are kept, and which of them are required.

- `TypeGraph.kept` : the properties of an object type whose members the mode does not drop.
- `Schema.Lists` : a schema has these properties, in this order, and requires those that may not be null.
- `Translation.properties_kept` : what compilation comes to are the properties that are kept.
- `Translates.lists` : so the level of an object type lists them, and metadata leave that alone.
- `policy_drops_exactly` : from any state, nothing comes out of exactly the nodes that the mode drops, and every object
  type that is compiled lists the properties that are kept, where it is stored and in the document.
-/

namespace GraphSchema

/-! ## What is listed -/

/-- whether the mode keeps a property: it has a schema of its own, or its member is not dropped -/
def TypeGraph.Keeps (graph : TypeGraph) (mode : KeyMode) (p : Property) : Prop :=
  ∀ member default, p.shape = .custom member default → ¬ (mode = .skip ∧ graph.Droppable member)

open Classical in
/-- the properties that the mode keeps -/
noncomputable def TypeGraph.kept (graph : TypeGraph) (mode : KeyMode) (properties : List Property) : List Property :=
  properties.filter fun p => graph.Keeps mode p

/-- the names of the properties that may not be null -/
def requiredNames (properties : List Property) : List String :=
  (properties.filter fun p => p.nullability ≠ .nullable).map (·.name)

/-- A schema has these properties and no others, in this order, and requires those that may not be null, each once. Where
there are none, it requires nothing. -/
structure Schema.Lists (schema : Schema) (props : List Property) : Prop where
  properties : ∃ table, Members.get? schema.members "properties" = some (.obj table) ∧
    Members.keys table = props.map (·.name)
  required : Members.get? schema.members "required" =
    if requiredNames props = [] then none else some (.arr ((requiredNames props).map .str))
  distinct : (requiredNames props).Nodup

theorem requiredNames_eq (properties : List Property) :
    requiredNames properties = (properties.filter (·.nullability.isRequired)).map (·.name) := by
  have hrequired : ∀ n : Nullability, decide (n ≠ .nullable) = n.isRequired := by
    intro n
    cases n <;> rfl
  simp only [requiredNames, hrequired]

/-- The schema of an object type lists the properties that it is made of. -/
theorem lists_objectSchema {compiled : List (Property × Schema)}
    (hdistinct : ((compiled.map (·.1)).map (·.name)).Nodup) :
    (Shape.objectSchema compiled).Lists (compiled.map (·.1)) := by
  refine ⟨⟨_, Translation.get?_properties compiled, ?_⟩, ?_, hdistinct.sublist (List.filter_sublist.map _)⟩
  · have hkeys : Members.keys (compiled.map fun entry => (entry.1.name, entry.2.toJson)) =
        (compiled.map (·.1)).map (·.name) := by
      simp [Members.keys]
    have hwritten : Translation.propertyTable compiled = compiled.map fun entry => (entry.1.name, entry.2.toJson) := by
      apply Members.insertAll_of_nodup
      rwa [List.nil_append, hkeys]
    rw [hwritten, hkeys]
  · have hnames : (compiled.filter (·.1.nullability.isRequired)).map (·.1.name) =
        requiredNames (compiled.map (·.1)) := by
      rw [requiredNames_eq, List.filter_map, List.map_map]
      rfl
    unfold Shape.objectSchema
    dsimp only
    rw [hnames]
    simp only [List.isEmpty_iff]
    split_ifs
    · rfl
    · exact (Members.get?_insert ..).trans (if_pos rfl)

/-- Metadata leave the properties of a schema alone. -/
theorem Schema.Lists.annotate {schema : Schema} {properties : List Property} (h : schema.Lists properties)
    (metadata : Option Metadata) : (schema.annotate metadata).Lists properties := by
  obtain ⟨⟨table, htable, hkeys⟩, hrequired, hdistinct⟩ := h
  refine ⟨⟨table, ?_, hkeys⟩, ?_, hdistinct⟩
  · rw [Schema.get?_annotate (by decide), htable]
  · rw [Schema.get?_annotate (by decide), hrequired]

/-! ## What is kept -/

namespace Translation

variable {setting : Setting} {meaning : ObjectId → Option (Option Schema)}

theorem property_eq_none_iff (hc : ∀ id outcome, meaning id = some outcome →
      (outcome = none ↔ setting.options.dictionaryKeys = .skip ∧ setting.graph.Droppable id))
    {p : Property} {outcome : Option Schema} (h : property meaning p = some outcome) :
    outcome = none ↔ ¬ setting.graph.Keeps setting.options.dictionaryKeys p := by
  unfold property at h
  unfold TypeGraph.Keeps
  cases hs : p.shape with
  | override fragment =>
    rw [hs] at h
    cases h
    simp
  | custom member default =>
    rw [hs] at h
    obtain ⟨inner, hmember, rfl⟩ := Option.map_eq_some_iff.1 h
    rw [Option.map_eq_none_iff, hc member inner hmember]
    simp

/-- What compilation comes to are the properties that are kept. -/
theorem properties_kept (hc : ∀ id outcome, meaning id = some outcome →
      (outcome = none ↔ setting.options.dictionaryKeys = .skip ∧ setting.graph.Droppable id))
    {props : List Property} {compiled : List (Property × Schema)} (h : properties meaning props = some compiled) :
    compiled.map (·.1) = setting.graph.kept setting.options.dictionaryKeys props := by
  unfold TypeGraph.kept
  induction props generalizing compiled with
  | nil =>
    cases h
    rfl
  | cons p rest ih =>
    obtain ⟨first, hfirst, h⟩ := Option.bind_eq_some_iff.1 h
    obtain ⟨others, hothers, rfl⟩ := Option.map_eq_some_iff.1 h
    have hdropped := property_eq_none_iff hc hfirst
    rw [List.map_append, ih hothers]
    cases first with
    | none =>
      rw [List.filter_cons_of_neg (by simpa using hdropped)]
      rfl
    | some schema =>
      rw [List.filter_cons_of_pos (by simpa using hdropped)]
      rfl

end Translation

variable {setting : Setting} {id : ObjectId} {node : ObjectNode} {properties : List Property}
  {implements : List ObjectId}

/-- **One level.** An object type comes out as a level, and the level lists the properties that are kept. -/
theorem Translates.lists (hvalid : setting.graph.validate = .ok ()) (hget : setting.graph.get? id = some node)
    (hs : node.shape = .custom properties implements) {outcome : Option Schema} (h : Translates setting node outcome) :
    ∃ level, outcome = some level ∧ level.Lists (setting.graph.kept setting.options.dictionaryKeys properties) := by
  have hdefined : node.kind.isDefined = true := by
    rw [ObjectNode.kind, hs]
    rfl
  obtain ⟨level, rfl⟩ := h.exists_level hdefined
  refine ⟨level, rfl, ?_⟩
  obtain ⟨fuel, hlevel⟩ := h.level
  cases hlevel with
  | @object props _ compiled hshape hmeans =>
    cases hs.symm.trans hshape
    have hkept := Translation.properties_kept (fun _ _ => Translation.child_dropped_iff) hmeans
    have hnames : ((compiled.map (·.1)).map (·.name)).Nodup :=
      (TypeGraph.nodup_names hvalid hget hs).sublist ((Translation.properties_sublist hmeans).map _)
    rw [← hkept]
    exact lists_objectSchema hnames
  | primitive hshape | raw hshape | nullable hshape | array hshape | map hshape | commented hshape | refused hshape
  | generic hshape | union hshape | tuple hshape => cases hs.symm.trans hshape

/-- whether a schema is the definition of a type of this name that, if it is an object type, lists the properties that
are kept -/
def DefinesKept (graph : TypeGraph) (mode : KeyMode) (key : String) (schema : Json) : Prop :=
  ∃ (id : ObjectId) (node : ObjectNode) (level : Schema), graph.get? id = some node ∧ node.kind.isDefined = true ∧
    node.identity = key ∧ schema = level.toJson ∧
      ∀ properties implements, node.shape = .custom properties implements → level.Lists (graph.kept mode properties)

theorem Settled.definesKept (hvalid : setting.graph.validate = .ok ()) {origin : ObjectId} {table : Definitions}
    {key : String} {schema : Json} (h : Settled setting origin table key schema id node) :
    DefinesKept setting.graph setting.options.dictionaryKeys key schema := by
  obtain ⟨level, htranslates, hschema⟩ := h.translated
  refine ⟨id, node, level.annotate node.metadata, h.found, h.defined, h.named, hschema, ?_⟩
  intro properties implements hs
  obtain ⟨_, heq, hlists⟩ := htranslates.lists hvalid h.found hs
  cases heq
  exact hlists.annotate node.metadata

/-- What a walk adds to its table are such definitions. -/
theorem Extends.definesKept (hvalid : setting.graph.validate = .ok ()) {origin : ObjectId} {before after : Definitions}
    (h : Extends setting origin before after) {key : String} {schema : Json} (hget : after.get? key = some schema) :
    before.get? key = some schema ∨ DefinesKept setting.graph setting.options.dictionaryKeys key schema := by
  obtain ⟨slot, hslot, hschema⟩ := Option.bind_eq_some_iff.1 hget
  rcases h.added hslot with hbefore | ⟨stored, id, node, rfl, hsettled⟩
  · exact Or.inl (Option.bind_eq_some_iff.2 ⟨slot, hbefore, hschema⟩)
  · cases hschema
    exact Or.inr (hsettled.definesKept hvalid)

/-- The document of an object type lists the properties that are kept. -/
theorem Compilation.lists {graph : TypeGraph} {request : RootRequest} {options : CompileOptions}
    {compiled : CompiledSchema} {root : ObjectNode} {outcome : Option Schema} {table : Definitions}
    (hc : Compilation graph request options compiled root outcome table)
    (hs : root.shape = .custom properties implements) :
    compiled.schema.Lists (graph.kept options.dictionaryKeys properties) := by
  obtain ⟨level, rfl, hlevel⟩ := hc.translated.lists hc.valid hc.found hs
  have hroot : (rootSchema root request (some level)).Lists (graph.kept options.dictionaryKeys properties) :=
    hlevel.annotate (rootMetadata root request)
  obtain ⟨⟨table, htable, hkeys⟩, hrequired, hdistinct⟩ := hroot
  refine ⟨⟨table, ?_, hkeys⟩, ?_, hdistinct⟩
  · rw [hc.get?_schema (by decide), htable]
  · rw [hc.get?_schema (by decide), hrequired]

/-- The definitions of a document are such definitions. -/
theorem Compilation.definesKept {graph : TypeGraph} {request : RootRequest} {options : CompileOptions}
    {compiled : CompiledSchema} {root : ObjectNode} {outcome : Option Schema} {table : Definitions}
    (hc : Compilation graph request options compiled root outcome table) (hraw : root.kind ≠ .override)
    {entry : String × Json} (hmem : entry ∈ compiled.defs) :
    DefinesKept graph options.dictionaryKeys entry.1 entry.2 := by
  obtain ⟨id, node, hsettled⟩ := hc.settled_of_mem hraw hmem
  exact hsettled.definesKept hc.valid

open Walk (run run_bind_ok)

/-- **What the mode drops, and what is left.** A node that compiles, from any state, comes out as nothing exactly if the
mode drops maps and the node cannot be kept then; this is never an object type or an abstract type. So whenever an
object type is compiled, its schema has the properties that are declared, in their order, without those whose member is
dropped, and requires each of them that may not be null. The definitions that a walk adds are such schemas, and so are
those in a document, and the document itself for its root. -/
theorem policy_drops_exactly (hvalid : setting.graph.validate = .ok ()) :
    (∀ id walk outcome after, run (Shape.compileObject setting id) walk = (.ok outcome, after) →
      (outcome = none ↔ setting.options.dictionaryKeys = .skip ∧ setting.graph.Droppable id) ∧
      ∀ key schema, after.definitions.get? key = some schema → walk.definitions.get? key = some schema ∨
        DefinesKept setting.graph setting.options.dictionaryKeys key schema) ∧
    (∀ id node, setting.graph.get? id = some node → node.kind = .custom ∨ node.kind = .abstract →
      ¬ setting.graph.Droppable id) ∧
    (∀ id node properties implements room walk outcome after, setting.graph.get? id = some node →
      node.shape = .custom properties implements → run (Shape.shape setting room node) walk = (.ok outcome, after) →
      ∃ level, outcome = some level ∧ ∀ metadata,
        (level.annotate metadata).Lists (setting.graph.kept setting.options.dictionaryKeys properties)) ∧
    ∀ request compiled, build setting.graph request setting.options = .ok compiled →
      ∃ root, setting.graph.get? request.root = some root ∧
        (∀ properties implements, root.shape = .custom properties implements →
          compiled.schema.Lists (setting.graph.kept setting.options.dictionaryKeys properties)) ∧
        (root.kind ≠ .override → ∀ entry ∈ compiled.defs,
          DefinesKept setting.graph setting.options.dictionaryKeys entry.1 entry.2) := by
  refine ⟨?_, ?_, ?_, ?_⟩
  · intro id walk outcome after h
    obtain ⟨now, mid, hnow, h⟩ := run_bind_ok h
    cases hnow
    have hextends := (object_visits (shape_runs setting id _) .refl walk outcome after h).1
    exact ⟨object_dropped_iff h, fun key schema hget => hextends.definesKept hvalid hget⟩
  · intro id node hget hkind
    exact TypeGraph.not_droppable_of_defined hget (TypeGraph.isDefined_iff.2 hkind)
  · intro id node properties implements room walk outcome after hget hs h
    have hexpand := (shape_runs setting id room hget .refl h).2.1
    obtain ⟨level, rfl, hlists⟩ := Translates.lists hvalid hget hs ⟨room, hexpand⟩
    exact ⟨level, rfl, hlists.annotate⟩
  · intro request compiled h
    obtain ⟨root, outcome, table, hc⟩ := compilation_of_build h
    exact ⟨root, hc.found, fun _ _ hs => hc.lists hs, fun hraw _ hmem => hc.definesKept hraw hmem⟩

/-- The tuple with the map is dropped, and the document of the owner has its name for the only property. -/
theorem policy_drops_exactly_ghostTuple : ghostTuple.validate = .ok () ∧ ghostTuple.Droppable ⟨5⟩ ∧
    ∃ compiled, build ghostTuple { root := ⟨7⟩ } skippingGhost.options = .ok compiled ∧
      compiled.schema.Lists [.custom "name" ⟨0⟩] := by
  have hvalid : ghostTuple.validate = .ok () := rfl
  obtain ⟨hdrops, -, -, hbuilds⟩ := @policy_drops_exactly skippingGhost hvalid
  have hpair : ghostTuple.Droppable ⟨5⟩ := ((hdrops ⟨5⟩ {} none _ rfl).1.1 rfl).2
  have hname : ¬ ghostTuple.Droppable ⟨0⟩ := fun h => Option.some_ne_none _ ((hdrops ⟨0⟩ {} _ _ rfl).1.2 ⟨rfl, h⟩)
  have hkept : ghostTuple.kept .skip [.custom "pair" ⟨5⟩, .custom "name" ⟨0⟩] = [.custom "name" ⟨0⟩] := by
    have hdropsPair : ¬ ghostTuple.Keeps .skip (.custom "pair" ⟨5⟩) := fun h => h ⟨5⟩ none rfl ⟨rfl, hpair⟩
    have hkeepsName : ghostTuple.Keeps .skip (.custom "name" ⟨0⟩) := by
      intro member default hshape hdropped
      cases hshape
      exact hname hdropped.2
    simp [TypeGraph.kept, hdropsPair, hkeepsName]
  obtain ⟨compiled, hbuild⟩ : ∃ compiled, build ghostTuple { root := ⟨7⟩ } skippingGhost.options = .ok compiled :=
    exists_ok_of_isOk (by decide +kernel)
  obtain ⟨root, hroot, hlists, -⟩ := hbuilds { root := ⟨7⟩ } compiled hbuild
  cases hroot
  exact ⟨hvalid, hpair, compiled, hbuild, hkept ▸ hlists _ _ rfl⟩

end GraphSchema
