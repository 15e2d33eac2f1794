import GraphSchema.Proofs.ByteOrder
import GraphSchema.Proofs.Diagnostics
import GraphSchema.Proofs.Equality
import GraphSchema.Proofs.Simulation

/-!
The shape of a document.

- `definitions_of_walk`: unless the root is a raw schema, the definitions of a document are the slots of the walk.
- `definitions_of_raw`: if it is one, they are those that its text carries.
- `document_arranged`: a document is its dialect, its id, the keywords of its root and its definitions, in this order.
-/

namespace GraphSchema

/-! ## Raw schemas -/

/-- the definitions that the text of a raw schema carries -/
def rawDefinitions (fragment : String) : Members Json :=
  match Json.read fragment with
  | .ok value => ((value.get? Reference.definitionsKeyword).bind Json.members?).getD []
  | .error _ => []

theorem carried_rawSchema (fragment : String) (message : FragmentError → String) :
    (Translation.rawSchema fragment message).carried = rawDefinitions fragment := by
  unfold Translation.rawSchema Schema.ofFragment rawDefinitions
  cases Json.read fragment with
  | error fault => rfl
  | ok value =>
    cases value with
    | bool b => cases b <;> rfl
    | _ => rfl

/-- An object in a value that repeats no key repeats none either. -/
theorem Json.Collapsed.nodup_keys_at {value : Json} (h : value.Collapsed) (key : String) :
    (Members.keys (((value.get? key).bind Json.members?).getD [])).Nodup := by
  cases hfound : (value.get? key).bind Json.members? with
  | none => exact List.nodup_nil
  | some entries =>
    obtain ⟨inner, hinner, hentries⟩ := Option.bind_eq_some_iff.1 hfound
    obtain ⟨members, hmembers, hentry⟩ := Option.bind_eq_some_iff.1 hinner
    cases value with
    | obj whole =>
      cases hmembers
      have hcollapsed := h.member (Members.mem_of_get? hentry)
      cases inner with
      | obj found =>
        cases hentries
        exact hcollapsed.nodup_keys
      | _ => cases hentries
    | _ => cases hmembers

theorem nodup_keys_rawDefinitions (fragment : String) : (Members.keys (rawDefinitions fragment)).Nodup := by
  unfold rawDefinitions
  split
  · rename_i value hread
    obtain ⟨written, rfl⟩ := Schema.exists_collapse_of_read hread
    exact (Json.collapsed_collapse written).nodup_keys_at Reference.definitionsKeyword
  · exact List.nodup_nil

variable {graph : TypeGraph} {request : RootRequest} {options : CompileOptions} {compiled : CompiledSchema}
  {root : ObjectNode} {outcome : Option Schema} {table : Definitions}

namespace Compilation

/-- A root that is a raw schema brings the definitions of its text. -/
theorem carried_of_raw (hc : Compilation graph request options compiled root outcome table) {fragment : String}
    (hshape : root.shape = .override fragment) :
    (rootSchema root request outcome).carried = rawDefinitions fragment := by
  have hother : Reference.definitionsKeyword ∉ Schema.annotationKeywords := by decide
  rw [← carried_rawSchema fragment (Shape.overrideMessage root.identity), hc.translated.of_override hshape]
  simp only [Schema.carried, rootSchema, Option.getD_some, Schema.get?_annotate hother]

/-- **The definitions of a walk.** Unless the root is a raw schema, the definitions of a document are the slots of
the table, all of them filled. -/
theorem definitions_of_walk (hc : Compilation graph request options compiled root outcome table)
    (hraw : root.kind ≠ .override) : (compiled.defs.mapValues Slot.built).Perm table.slots := by
  have hdistinct : (Members.keys (compiled.defs.mapValues Slot.built)).Nodup := by
    rw [Members.keys_mapValues]
    exact hc.ascending_defs.nodup
  apply Members.perm_of_get?_eq hdistinct hc.distinct
  intro key
  rw [Members.get?_mapValues, hc.get?_defs hraw, Definitions.get?]
  cases hslot : Members.get? table.slots key with
  | none => rfl
  | some slot =>
    obtain ⟨schema, rfl, -⟩ := hc.slot_stored hslot
    rfl

/-- **The definitions of a text.** If the root is a raw schema, the definitions of a document are those that its text
carries. -/
theorem definitions_of_raw (hc : Compilation graph request options compiled root outcome table) {fragment : String}
    (hshape : root.shape = .override fragment) : compiled.defs.Perm (rawDefinitions fragment) := by
  have hraw : root.kind = .override := by rw [ObjectNode.kind, hshape]; rfl
  have hempty : table.sorted = [] := by rw [Definitions.sorted, hc.built_of_override hraw]; rfl
  have hdistinct := nodup_keys_rawDefinitions fragment
  apply Members.perm_of_get?_eq hc.ascending_defs.nodup hdistinct
  intro key
  rw [hc.defs_eq, hc.carried_of_raw hshape, hempty]
  exact Members.get?_sortedByKey_of_nodup hdistinct key

end Compilation

/-! ## The parts of a document -/

theorem opening_eq (dialect : String) (id : Option String) :
    opening dialect id = ("$schema", .str dialect) :: (id.map fun id => ("$id", Json.str id)).toList := by
  cases id with
  | none => rfl
  | some id => rfl

theorem definitionMember_of_ascending {definitions : Members Json} (h : Members.Ascending definitions) :
    definitionMember definitions =
      if definitions = [] then [] else [(Reference.definitionsKeyword, .obj definitions)] := by
  rw [definitionMember, Members.sortedByKey_of_ascending h]
  simp only [List.isEmpty_iff]

theorem Schema.body_eq_filter (schema : Schema) :
    schema.body = schema.members.filter (·.1 ∉ ["$schema", "$id", "$defs"]) := by
  unfold Schema.body
  congr 1
  funext entry
  rw [Bool.eq_iff_iff]
  simp [Reference.definitionsKeyword, and_assoc]

/-- No keyword stands in a document twice. -/
theorem nodup_keys_assemble (dialect : String) (id : Option String) (root : Schema) (found : Members Json) :
    (Members.keys (assemble dialect id root found)).Nodup := by
  have hbody : (Members.keys (Members.insertAll (opening dialect id) root.body)).Nodup :=
    Members.nodup_keys_insertAll (nodup_keys_opening dialect id) root.body
  unfold assemble
  dsimp only
  split_ifs
  · exact hbody
  · exact Members.nodup_keys_insert hbody Reference.definitionsKeyword _

/-- The members of a document, in order. -/
theorem Compilation.arranged (hc : Compilation graph request options compiled root outcome table) :
    compiled.document = .obj ([("$schema", .str options.dialect)]
      ++ (request.id.map fun id => ("$id", Json.str id)).toList
      ++ (rootSchema root request outcome).members.filter (·.1 ∉ ["$schema", "$id", "$defs"])
      ++ if compiled.defs = [] then [] else [("$defs", .obj compiled.defs)]) := by
  rw [← Schema.body_eq_filter, ← hc.body_eq]
  calc compiled.document
    _ = .obj (opening options.dialect request.id ++ compiled.body ++ definitionMember compiled.defs) :=
      hc.document_split
    _ = _ := by rw [opening_eq, definitionMember_of_ascending hc.ascending_defs]; rfl

/-- **The shape of a document.** When a build succeeds, the members of the document are, in this order: the dialect;
the id, if the request gives one; the keywords of the root's annotated schema that are not of the envelope, as they
stand there; and the definitions, if there are any. No keyword stands there twice. The definitions ascend by the bytes
of their keys. They are all that the walk has put into its table, or, if the root is a raw schema, all that its text
carries. -/
theorem document_arranged (h : build graph request options = .ok compiled) :
    ∃ root schema walk, graph.get? request.root = some root ∧
      Walk.run (compileRoot (rootSetting graph options root) root) {} = (.ok schema, walk) ∧
      compiled.document = .obj ([("$schema", .str options.dialect)]
        ++ (request.id.map fun id => ("$id", Json.str id)).toList
        ++ (schema.annotate (rootMetadata root request)).members.filter (·.1 ∉ ["$schema", "$id", "$defs"])
        ++ if compiled.defs = [] then [] else [("$defs", .obj compiled.defs)]) ∧
      (Members.keys compiled.schema.members).Nodup ∧
      Members.AscendingInBytes compiled.defs ∧
      (root.kind ≠ .override → (compiled.defs.mapValues Slot.built).Perm walk.definitions.slots) ∧
      ∀ fragment, root.shape = .override fragment → compiled.defs.Perm (rawDefinitions fragment) := by
  obtain ⟨hv, root, hroot⟩ := exists_root_of_build h
  rw [build_eq hv hroot] at h
  rcases hrun : Walk.run (compileRoot (rootSetting graph options root) root) {} with ⟨e | schema, walk⟩
  · rw [hrun] at h
    cases h
  · rw [hrun] at h
    cases h
    obtain ⟨outcome, hschema, hc⟩ := compilation_of_run hv hroot hrun
    have hdocument := hc.arranged
    rw [rootSchema, ← hschema] at hdocument
    refine ⟨root, schema, walk, hroot, hrun, hdocument, ?_, ?_, hc.definitions_of_walk, fun _ => hc.definitions_of_raw⟩
    · exact nodup_keys_assemble _ _ _ _
    · exact Members.ascending_iff_bytes.1 hc.ascending_defs

/-- a raw schema with an envelope and definitions of its own, all of them out of order -/
def legacyText : String :=
  "\x7b\"$defs\":\x7b\"b\":\x7b\"type\":\"string\"\x7d,\"a\":\x7b\"type\":\"integer\"\x7d\x7d,\"type\":\"object\","
    ++ "\"$id\":\"urn:old\",\"$schema\":\"urn:older\"\x7d"

def legacySchema : TypeGraph := ⟨[{ identity := "Legacy", shape := .override legacyText }]⟩

/-- The definitions of the raw schema are sorted into the document, which has an envelope of its own. -/
theorem document_arranged_legacySchema : ∃ (compiled : CompiledSchema) (schema : Schema),
    build legacySchema { root := ⟨0⟩, id := some "urn:new" } {} = .ok compiled ∧
      compiled.document = .obj ([("$schema", .str "https://json-schema.org/draft/2020-12/schema"),
          ("$id", .str "urn:new")]
        ++ schema.members.filter (·.1 ∉ ["$schema", "$id", "$defs"])
        ++ if compiled.defs = [] then [] else [("$defs", .obj compiled.defs)]) ∧
      Members.AscendingInBytes compiled.defs ∧
      compiled.defs.Perm [("b", .obj [("type", .str "string")]), ("a", .obj [("type", .str "integer")])] := by
  obtain ⟨compiled, hb⟩ : ∃ compiled, build legacySchema { root := ⟨0⟩, id := some "urn:new" } {} = .ok compiled :=
    exists_ok_of_isOk (by cbv)
  obtain ⟨root, schema, walk, hroot, -, hdocument, -, hascending, -, hraw⟩ := document_arranged hb
  cases hroot
  have htext : rawDefinitions legacyText =
      [("b", .obj [("type", .str "string")]), ("a", .obj [("type", .str "integer")])] := by cbv
  exact ⟨compiled, schema, hb, hdocument, hascending, htext ▸ hraw legacyText rfl⟩

end GraphSchema
