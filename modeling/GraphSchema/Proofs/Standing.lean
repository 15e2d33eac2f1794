import GraphSchema.Proofs.Diagnostics

/-!
What stands in a document.

- `CompiledSchema.Shows` : the nodes that stand in a document, with their places.
- `Compilation.shows_definition` : every definition is that of a type which stands there.
- `Compilation.stands_in_document` : at the place of a node without a definition stands a schema that has the type, the
  reference and the inside of its level, and all that the level refers to is in the document.
-/

namespace GraphSchema

open Json (Path)

namespace Schema

/-- whether two schemas have the same type, refer to the same and have the same inside -/
def Agrees (outer level : Schema) : Prop :=
  ∀ keyword ∈ "type" :: "$ref" :: branching, Members.get? outer.members keyword = Members.get? level.members keyword

theorem veils_agrees : Veils Agrees where
  refl _ _ _ := rfl
  dressed h metadata default := by
    have haside : ∀ keyword ∈ "type" :: "$ref" :: branching, keyword ∉ dressing := by decide
    exact fun keyword hmem => (get?_dressed (haside keyword hmem) metadata default).trans (h keyword hmem)
  branches h _ hbranch := h _ (List.mem_cons_of_mem _ (List.mem_cons_of_mem _ hbranch))

theorem agrees_annotate (schema : Schema) (metadata : Option Metadata) : (schema.annotate metadata).Agrees schema :=
  veils_agrees.dressed (veils_agrees.refl schema) metadata none

end Schema

namespace CompiledSchema

/-- whether a type of this name can be referred to in a document: the document stands for it, or a definition does -/
def LeadsTo (compiled : CompiledSchema) (setting : Setting) (identity : String) : Prop :=
  setting.rootIdentity = some identity ∨ identity ∈ Members.keys compiled.defs

/-- The nodes that stand in a document with this root, with their places: those in the level of the root, and those in the
definitions, where a definition is a level whose references all lead somewhere. -/
inductive Shows (compiled : CompiledSchema) (setting : Setting) (root : ObjectNode) :
    Path → ObjectNode → Prop
  | body {fuel : Nat} {level : Schema} {place : Path × ObjectNode}
      (hexpands : Translation.expand setting fuel root = some (some level))
      (hmem : place ∈ Translation.places setting fuel root) : Shows compiled setting root place.1 place.2
  | definition {fuel : Nat} {id : ObjectId} {node : ObjectNode} {level : Schema} {place : Path × ObjectNode}
      (hfound : setting.graph.get? id = some node)
      (hholds : Members.get? compiled.defs node.identity = some (level.annotate node.metadata).toJson)
      (hleads : ∀ target, Mentions setting id target → compiled.LeadsTo setting target.identity)
      (hexpands : Translation.expand setting fuel node = some (some level))
      (hmem : place ∈ Translation.places setting fuel node) :
      Shows compiled setting root (.key Reference.definitionsKeyword :: .key node.identity :: place.1) place.2

end CompiledSchema

namespace Compilation

variable {graph : TypeGraph} {request : RootRequest} {options : CompileOptions} {compiled : CompiledSchema}
  {root : ObjectNode} {outcome : Option Schema} {table : Definitions}

/-- The root is in the graph that its walk goes over. -/
theorem found_root (hc : Compilation graph request options compiled root outcome table) :
    (rootSetting graph options root).graph.get? request.root = some root :=
  hc.found

/-- What is known to the walk when it ends is the document or a definition in it. -/
theorem leads_of_known (hc : Compilation graph request options compiled root outcome table) {identity : String}
    (hknown : Known (rootSetting graph options root) table identity) :
    compiled.LeadsTo (rootSetting graph options root) identity := by
  refine hknown.imp_right fun hcontains => ?_
  obtain ⟨slot, hslot⟩ := Definitions.contains_iff.1 hcontains
  obtain ⟨schema, -, -, hholds⟩ := hc.slot_stored hslot
  exact List.mem_map_of_mem (Members.mem_of_get? hholds)

/-- Every definition is that of a type which stands there. -/
theorem shows_definition (hc : Compilation graph request options compiled root outcome table)
    (hnotRaw : root.kind ≠ .override) {key : String} (hmem : key ∈ Members.keys compiled.defs) :
    ∃ node, node.kind.isDefined = true ∧ node.identity = key ∧
      compiled.Shows (rootSetting graph options root) root [.key Reference.definitionsKeyword, .key key] node := by
  obtain ⟨entry, hentry, rfl⟩ := List.mem_map.1 hmem
  obtain ⟨id, node, hsettled⟩ := hc.settled_of_mem hnotRaw hentry
  obtain ⟨level, ⟨fuel, hexpands⟩, hsame⟩ := hsettled.translated
  have hholds := hc.ascending_defs.get?_of_mem hentry
  rw [← hsettled.named, hsame] at hholds
  have hshown : compiled.Shows (rootSetting graph options root) root
      [.key Reference.definitionsKeyword, .key node.identity] node :=
    .definition hsettled.found hholds (fun target hmentioned => hc.leads_of_known (hsettled.closed target hmentioned))
      hexpands List.mem_cons_self
  exact ⟨node, hsettled.defined, hsettled.named, hsettled.named ▸ hshown⟩

/-- A document agrees with the level of its root. -/
theorem agrees_document {level : Schema} (hc : Compilation graph request options compiled root (some level) table) :
    compiled.schema.Agrees level := by
  have houtside : ∀ keyword ∈ "type" :: "$ref" :: Schema.branching, keyword ∉ envelope := by decide
  exact fun keyword hmem => (hc.get?_schema (houtside keyword hmem)).trans
    (Schema.agrees_annotate level (rootMetadata root request) keyword hmem)

/-- **What stands in a document.** At the place of a node without a definition stands a schema that agrees with its level.
What the level refers to is the document or a definition in it. -/
theorem stands_in_document (hc : Compilation graph request options compiled root outcome table) {path : Path}
    {node : ObjectNode} (hshown : compiled.Shows (rootSetting graph options root) root path node)
    (hinlined : node.kind.isDefined = false) :
    ∃ (id : ObjectId) (fuel : Nat) (level schema : Schema), graph.get? id = some node ∧
      Translation.expand (rootSetting graph options root) fuel node = some (some level) ∧
      compiled.document.at? path = some schema.toJson ∧ schema.Agrees level ∧
      ∀ target, Mentions (rootSetting graph options root) id target →
        compiled.LeadsTo (rootSetting graph options root) target.identity := by
  cases hshown with
  | body hexpands hmem =>
    cases hc.translated.unique ⟨_, hexpands⟩
    obtain ⟨id, fuel, level, schema, hfound, hexpands, hhere, hagrees, hmentions⟩ :=
      Translation.stands_at_place Schema.veils_agrees hc.valid hc.found_root hexpands hc.agrees_document hmem hinlined
    exact ⟨id, fuel, level, schema, hfound, hexpands, hc.document_eq ▸ hhere, hagrees, fun target hmentioned =>
      hc.leads_of_known (hc.closed rfl target (hmentions target hmentioned))⟩
  | definition hfound hholds hleads hexpands hmem =>
    obtain ⟨id, fuel, level, schema, hfound, hexpands, hhere, hagrees, hmentions⟩ :=
      Translation.stands_at_place Schema.veils_agrees hc.valid hfound hexpands
        (Schema.agrees_annotate _ _) hmem hinlined
    exact ⟨id, fuel, level, schema, hfound, hexpands,
      (CompiledSchema.at?_definition hc.document_eq hholds _).trans hhere,
      hagrees, fun target hmentioned => hleads target (hmentions target hmentioned)⟩

end Compilation

end GraphSchema
