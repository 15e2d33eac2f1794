import GraphSchema.Proofs.Pointers
import GraphSchema.Proofs.Standing

/-!
The schemas of abstract types.

- `TypeGraph.Unites` : an abstract type whose implementations all have definitions, with their names.
- `Schema.IsUnion` : a schema is that of an object which is exactly one of the types behind some references, and all of
  these are different.
- `Translation.link_injective` : types of different names are referred to differently, also where one is the document.
- `Translates.isUnion` : the level of such an abstract type is the union of its implementations, and metadata leave that
  alone.
- `union_arms_distinct` : so it is whenever such a type is compiled, in the definitions of a document, and in the document
  of such a root. All arms lead somewhere.
-/

namespace GraphSchema

/-- whether a node has a definition under this name -/
def TypeGraph.Names (graph : TypeGraph) (id : ObjectId) (identity : String) : Prop :=
  ∃ node, graph.get? id = some node ∧ node.kind.isDefined = true ∧ node.identity = identity

/-- whether a node is an abstract type whose implementations all have definitions, under these names and in this order -/
def TypeGraph.Unites (graph : TypeGraph) (node : ObjectNode) (identities : List String) : Prop :=
  ∃ implementations, node.shape = .abstract implementations ∧ List.Forall₂ graph.Names implementations identities

/-- The schema is that of an object. If there are references, it is exactly one of the types behind them: each stands, as
it is and in order, in an arm of its own, and no two of them are the same. -/
structure Schema.IsUnion (schema : Schema) (references : List String) : Prop where
  typed : Members.get? schema.members "type" = some (.str "object")
  arms : Members.get? schema.members "oneOf" =
    if references = [] then none else some (.arr (references.map fun reference => .obj [("$ref", .str reference)]))
  distinct : references.Nodup

/-- Metadata leave a union alone. -/
theorem Schema.IsUnion.annotate {schema : Schema} {references : List String} (h : schema.IsUnion references)
    (metadata : Option Metadata) : (schema.annotate metadata).IsUnion references where
  typed := (get?_annotate (by decide) metadata).trans h.typed
  arms := (get?_annotate (by decide) metadata).trans h.arms
  distinct := h.distinct

/-! ## The level of an abstract type -/

namespace TypeGraph

variable {graph : TypeGraph} {node : ObjectNode} {identities : List String}

theorem names_eq {ids : List ObjectId} (h : List.Forall₂ graph.Names ids identities) : graph.names ids = identities := by
  induction h with
  | nil => rfl
  | cons hhead _ ih =>
    obtain ⟨found, hfound, -, rfl⟩ := hhead
    rw [names_cons_some hfound, ih]

/-- In a graph that is in order, implementations have different names. -/
theorem Unites.nodup (h : graph.Unites node identities) (hvalid : graph.validate = .ok ()) {id : ObjectId}
    (hfound : graph.get? id = some node) : identities.Nodup := by
  obtain ⟨implementations, hshape, hnames⟩ := h
  rw [← names_eq hnames]
  exact (validate_eq_ok_iff.1 hvalid id node hfound).implementations implementations hshape

/-- Every name is that of an implementation. -/
theorem exists_named {ids : List ObjectId} (h : List.Forall₂ graph.Names ids identities) {identity : String}
    (hmem : identity ∈ identities) : ∃ id ∈ ids, graph.Names id identity := by
  induction h with
  | nil => cases hmem
  | cons hhead _ ih =>
    cases hmem with
    | head => exact ⟨_, List.mem_cons_self, hhead⟩
    | tail _ hmem =>
      obtain ⟨id, hlisted, hnames⟩ := ih hmem
      exact ⟨id, List.mem_cons_of_mem _ hlisted, hnames⟩

/-- Compilation goes to every implementation. -/
theorem Unites.mentions {setting : Setting} (h : setting.graph.Unites node identities) {id : ObjectId}
    (hfound : setting.graph.get? id = some node) {identity : String} (hmem : identity ∈ identities) :
    ∃ target, Mentions setting id target ∧ target.identity = identity := by
  obtain ⟨implementations, hshape, hnames⟩ := h
  obtain ⟨implementation, hlisted, target, htarget, hdefined, hsame⟩ := exists_named hnames hmem
  have hedge : setting.graph.Follows setting.options.dictionaryKeys id implementation :=
    ⟨node, hfound, by simpa [followed, hshape] using hlisted⟩
  exact ⟨target, .direct hedge htarget hdefined, hsame⟩

end TypeGraph

namespace Translation

variable {setting : Setting}

/-- Types of different names are referred to differently. -/
theorem link_injective (setting : Setting) : Function.Injective (link setting) := by
  intro a b hsame
  unfold link at hsame
  split_ifs at hsame with hroot hroot' hroot'
  · exact Option.some.inj (hroot.symm.trans hroot')
  · exact absurd hsame.symm (Reference.pointer_ne b)
  · exact absurd hsame (Reference.pointer_ne a)
  · exact Reference.pointer_injective hsame

/-- Where all implementations have definitions, the arms are the references to them. -/
theorem arms_eq {expand : ObjectNode → Option (Option Schema)} {ids : List ObjectId} {identities : List String}
    (hnames : List.Forall₂ setting.graph.Names ids identities) :
    arms (child setting expand) ids =
      some (identities.map fun identity => .obj [("$ref", .str (link setting identity))]) := by
  induction hnames with
  | nil => rfl
  | cons hhead _ ih =>
    obtain ⟨node, hfound, hdefined, rfl⟩ := hhead
    have hmeans : child setting expand _ = some (some (reference setting node.identity)) :=
      child_eq_some_iff.2 ⟨node, hfound, Or.inl ⟨hdefined, rfl⟩⟩
    rw [arms, hmeans, ih]
    rfl

theorem isUnion_unionSchema {references : List String} (hdistinct : references.Nodup) :
    (unionSchema (references.map fun reference => .obj [("$ref", .str reference)])).IsUnion references := by
  cases references with
  | nil => exact ⟨rfl, rfl, hdistinct⟩
  | cons reference rest => exact ⟨rfl, rfl, hdistinct⟩

end Translation

open Translation (link)

variable {setting : Setting} {id : ObjectId} {node : ObjectNode} {identities : List String}

/-- **One level.** An abstract type whose implementations have definitions comes out as their union. -/
theorem Translates.isUnion (hvalid : setting.graph.validate = .ok ()) (hfound : setting.graph.get? id = some node)
    (hunites : setting.graph.Unites node identities) {outcome : Option Schema} (h : Translates setting node outcome) :
    ∃ level, outcome = some level ∧ level.IsUnion (identities.map (link setting)) := by
  have hdistinct : (identities.map (link setting)).Nodup :=
    (hunites.nodup hvalid hfound).map (Translation.link_injective setting)
  obtain ⟨implementations, hshape, hnames⟩ := hunites
  obtain ⟨level, rfl⟩ := h.exists_level (by rw [ObjectNode.kind, hshape]; rfl)
  refine ⟨level, rfl, ?_⟩
  obtain ⟨fuel, hlevel⟩ := h.level
  cases hlevel with
  | union hshape' hmeans =>
    cases hshape.symm.trans hshape'
    cases (Translation.arms_eq hnames).symm.trans hmeans
    have hunion := Translation.isUnion_unionSchema hdistinct
    rwa [List.map_map] at hunion
  | primitive hshape' | raw hshape' | nullable hshape' | array hshape' | map hshape' | commented hshape' | refused hshape'
  | generic hshape' | object hshape' | tuple hshape' => cases hshape.symm.trans hshape'

/-! ## Documents -/

/-- whether a schema in a document is the union of the implementations of a node, if that is an abstract type whose
implementations all have definitions, and each arm leads somewhere -/
def CompiledSchema.Joins (compiled : CompiledSchema) (setting : Setting) (node : ObjectNode) (schema : Schema) : Prop :=
  ∀ identities, setting.graph.Unites node identities → schema.IsUnion (identities.map (link setting)) ∧
    ∀ identity ∈ identities, compiled.LeadsTo setting identity

namespace Compilation

variable {graph : TypeGraph} {request : RootRequest} {options : CompileOptions} {compiled : CompiledSchema}
  {root : ObjectNode} {outcome : Option Schema} {table : Definitions}

theorem joins_document (hc : Compilation graph request options compiled root outcome table) :
    compiled.Joins (rootSetting graph options root) root compiled.schema := by
  intro identities hunites
  obtain ⟨level, rfl, hunion⟩ :=
    Translates.isUnion hc.valid hc.found_root hunites hc.translated
  have hannotated : (rootSchema root request (some level)).IsUnion _ := hunion.annotate (rootMetadata root request)
  refine ⟨⟨?_, ?_, hunion.distinct⟩, fun identity hmem => ?_⟩
  · exact (hc.get?_schema (by decide)).trans hannotated.typed
  · exact (hc.get?_schema (by decide)).trans hannotated.arms
  · obtain ⟨target, hmentions, rfl⟩ := hunites.mentions hc.found_root hmem
    exact hc.leads_of_known (hc.closed rfl target hmentions)

theorem joins_definition (hc : Compilation graph request options compiled root outcome table)
    (hnotRaw : root.kind ≠ .override)
    {entry : String × Json} (hmem : entry ∈ compiled.defs) : ∃ id node schema, graph.get? id = some node ∧
      node.kind.isDefined = true ∧ node.identity = entry.1 ∧ entry.2 = schema.toJson ∧
        compiled.Joins (rootSetting graph options root) node schema := by
  obtain ⟨id, node, hsettled⟩ := hc.settled_of_mem hnotRaw hmem
  obtain ⟨level, htranslates, hsame⟩ := hsettled.translated
  refine ⟨id, node, level.annotate node.metadata, hsettled.found, hsettled.defined, hsettled.named, hsame, ?_⟩
  intro identities hunites
  obtain ⟨_, hlevel, hunion⟩ := htranslates.isUnion hc.valid hsettled.found hunites
  cases hlevel
  refine ⟨hunion.annotate node.metadata, fun identity hmem => ?_⟩
  obtain ⟨target, hmentions, rfl⟩ := hunites.mentions hsettled.found hmem
  exact hc.leads_of_known (hsettled.closed target hmentions)

end Compilation

/-- **Unions.** In a build that succeeds, an abstract type whose implementations are all object types or abstract types is
compiled, whatever the state, to the schema of an object that is exactly one of its implementations. There is one arm for
each of them, in their order. It holds a reference only, to the document for an implementation of the root's name and else
to the definition of that name, and no two are the same. Without implementations there are no arms. Metadata do not change
this, the document of such a root is such a schema, and so are the definitions of such types, with arms that all lead
somewhere. -/
theorem union_arms_distinct {graph : TypeGraph} {request : RootRequest} {options : CompileOptions}
    {compiled : CompiledSchema} (h : build graph request options = .ok compiled) :
    ∃ root, graph.get? request.root = some root ∧
      (∀ id node identities, graph.get? id = some node → graph.Unites node identities →
        ∀ room walk outcome after,
          Walk.run (Shape.shape (rootSetting graph options root) room node) walk = (.ok outcome, after) →
          ∃ level, outcome = some level ∧ ∀ metadata,
            (level.annotate metadata).IsUnion (identities.map (link (rootSetting graph options root)))) ∧
      compiled.Joins (rootSetting graph options root) root compiled.schema ∧
      (root.kind ≠ .override → ∀ entry ∈ compiled.defs, ∃ id node schema, graph.get? id = some node ∧
        node.kind.isDefined = true ∧ node.identity = entry.1 ∧ entry.2 = schema.toJson ∧
          compiled.Joins (rootSetting graph options root) node schema) := by
  obtain ⟨root, outcome, table, hc⟩ := compilation_of_build h
  refine ⟨root, hc.found, ?_, hc.joins_document, fun hnotRaw entry hmem => hc.joins_definition hnotRaw hmem⟩
  intro id node identities hfound hunites room walk outcome after hruns
  have hexpands := (shape_runs (rootSetting graph options root) id room hfound .refl hruns).2.1
  obtain ⟨level, rfl, hunion⟩ :=
    Translates.isUnion hc.valid (show (rootSetting graph options root).graph.get? id = some node from hfound) hunites
      ⟨room, hexpands⟩
  exact ⟨level, rfl, hunion.annotate⟩

/-- a group of figures, of circles or of groups -/
def groups : ObjectNode := { identity := "Group", shape := .abstract [⟨0⟩, ⟨1⟩, ⟨2⟩] }

/-- figures, which are circles or groups -/
def figures : TypeGraph := ⟨[
  { identity := "Figure", shape := .abstract [⟨1⟩, ⟨2⟩] },
  { identity := "Circle/Round", shape := .custom [] [⟨0⟩] },
  groups]⟩

/-- In the document of groups two arms lead to definitions, and that of groups leads to the document itself. -/
theorem union_arms_distinct_figures : ∃ compiled, build figures { root := ⟨2⟩ } {} = .ok compiled ∧
    compiled.schema.IsUnion ["#/$defs/Figure", "#/$defs/Circle~1Round", "#"] := by
  have hsucceeds : (build figures { root := ⟨2⟩ } {}).isOk = true := by decide +kernel
  obtain ⟨compiled, hbuilt⟩ := exists_ok_of_isOk hsucceeds
  obtain ⟨root, hfound, -, hjoins, -⟩ := union_arms_distinct hbuilt
  obtain rfl : groups = root := Option.some.inj hfound
  have hunites : figures.Unites groups ["Figure", "Circle/Round", "Group"] :=
    ⟨_, rfl, .cons ⟨_, rfl, rfl, rfl⟩ (.cons ⟨_, rfl, rfl, rfl⟩ (.cons ⟨_, rfl, rfl, rfl⟩ .nil))⟩
  have hlinks : ["Figure", "Circle/Round", "Group"].map (link (rootSetting figures {} groups)) =
      ["#/$defs/Figure", "#/$defs/Circle~1Round", "#"] := by decide +kernel
  exact ⟨compiled, hbuilt, hlinks ▸ (hjoins _ hunites).1⟩

end GraphSchema
