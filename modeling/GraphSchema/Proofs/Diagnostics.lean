import GraphSchema.Proofs.Placements
import GraphSchema.Proofs.Recording

/-!
The diagnostics of a document, and what stands in the document for them.

- `Translation.standsIn` : the nodes that stand in a document, with their places.
- `diagnostics_match` : where nothing is dropped, the markers in a document are the messages of its diagnostics, and the
  diagnostics on generic types are those on the opaque objects in the document, one for each place.
-/

namespace GraphSchema

open Json (Path Segment)

/-! ## Parts of a document -/

namespace Definitions

theorem get?_built {table : Definitions} (hdistinct : (Members.keys table.slots).Nodup) (key : String) :
    Members.get? table.built key = table.get? key := by
  rw [← get?_sorted hdistinct, sorted, Members.get?_sortedByKey_of_nodup (nodup_keys_built hdistinct)]

end Definitions

theorem Schema.get?_body {schema : Schema} {keyword : String} (houtside : keyword ∉ envelope) :
    Members.get? schema.body keyword = Members.get? schema.members keyword := by
  obtain ⟨members⟩ := schema
  induction members with
  | nil => rfl
  | cons entry rest ih =>
    by_cases henvelops : entry.1 ∈ envelope
    · have hskipped : Schema.body ⟨entry :: rest⟩ = Schema.body ⟨rest⟩ :=
        List.filter_cons_of_neg (by simpa [envelope, or_iff_not_imp_left] using henvelops)
      have hne : keyword ≠ entry.1 := by
        rintro rfl
        exact houtside henvelops
      rw [hskipped, ih, Members.get?_cons, if_neg hne]
    · have htaken : Schema.body ⟨entry :: rest⟩ = entry :: Schema.body ⟨rest⟩ :=
        List.filter_cons_of_pos (by simpa [envelope, and_assoc] using henvelops)
      rw [htaken, Members.get?_cons, Members.get?_cons, ih]

namespace CompiledSchema

variable {compiled : CompiledSchema}

/-- What is behind a definition is behind its key in the document. -/
theorem at?_definition {members : Members Json} (hobject : compiled.document = .obj members) {key : String}
    {value : Json} (hholds : Members.get? compiled.defs key = some value) (path : Path) :
    compiled.document.at? (.key Reference.definitionsKeyword :: .key key :: path) = value.at? path := by
  unfold defs schema Schema.carried at hholds
  rw [hobject, Json.members?, Option.getD_some] at hholds
  rw [hobject, Json.at?_key]
  cases hfound : Members.get? members Reference.definitionsKeyword with
  | none =>
    rw [hfound] at hholds
    cases hholds
  | some definitions =>
    rw [hfound, Option.bind_some] at hholds
    cases definitions with
    | obj entries =>
      rw [Json.members?, Option.getD_some] at hholds
      rw [Option.bind_some, Json.at?_key, hholds]
      rfl
    | _ => cases hholds

end CompiledSchema

/-- Nothing that compilation writes into a level, and no metadata, is a keyword of the envelope. -/
theorem Translation.Written.outside_envelope {level : Schema} (hwritten : Translation.Written level)
    (metadata : Option Metadata) : ∀ keyword ∈ (level.annotate metadata).keywords, keyword ∉ envelope := by
  have hannotations : ∀ keyword ∈ Schema.annotationKeywords, keyword ∉ envelope := by decide
  have hemissions : ∀ keyword ∈ Translation.emitted, keyword ∉ envelope := by decide
  intro keyword hmem
  rcases Schema.mem_keywords_annotate hmem with hannotates | hmem
  · exact hannotations keyword hannotates
  · exact hemissions keyword (hwritten.within hmem)

namespace Compilation

variable {graph : TypeGraph} {request : RootRequest} {options : CompileOptions} {compiled : CompiledSchema}
  {root : ObjectNode} {outcome : Option Schema} {table : Definitions}

theorem document_eq (hc : Compilation graph request options compiled root outcome table) :
    compiled.document = compiled.schema.toJson := by
  rw [CompiledSchema.schema, hc.document]
  rfl

/-- Apart from the envelope, a document has the keywords of its root. -/
theorem get?_schema (hc : Compilation graph request options compiled root outcome table) {keyword : String}
    (houtside : keyword ∉ envelope) : Members.get? compiled.schema.members keyword =
      Members.get? (rootSchema root request outcome).members keyword := by
  have hnoOpening : Members.get? (opening options.dialect request.id) keyword = none := by
    rw [Members.get?_eq_none_iff]
    intro hmem
    obtain ⟨entry, hopens, rfl⟩ := List.mem_map.1 hmem
    exact houtside (opening_subset_envelope hopens)
  have hnoDefinitions (definitions : Members Json) : Members.get? (definitionMember definitions) keyword = none := by
    rw [Members.get?_eq_none_iff]
    intro hmem
    obtain ⟨entry, hmember, rfl⟩ := List.mem_map.1 hmem
    rw [mem_definitionMember hmember] at houtside
    exact houtside (show Reference.definitionsKeyword ∈ envelope by decide)
  rw [hc.schema_eq, Members.get?_append, Members.get?_append, hnoOpening, hnoDefinitions, Option.none_or,
    Option.or_none,
    Schema.get?_body houtside]

theorem keywords_schema (hc : Compilation graph request options compiled root outcome table) {keyword : String}
    (hmem : keyword ∈ compiled.schema.keywords) :
    keyword ∈ envelope ∨ keyword ∈ (rootSchema root request outcome).keywords := by
  by_cases houtside : keyword ∈ envelope
  · exact Or.inl houtside
  · refine Or.inr (Members.contains_iff.1 ?_)
    have hfound := Members.contains_iff.2 hmem
    rwa [Members.contains, hc.get?_schema houtside] at hfound

/-- A document covers the level of its root. -/
theorem covers_document {level : Schema} (hc : Compilation graph request options compiled root (some level) table) :
    compiled.schema.Covers level := by
  have hannotated := (Schema.Covers.refl level).annotate (rootMetadata root request)
  constructor
  · intro keyword hbranch
    have houtside : ∀ keyword ∈ Schema.branching, keyword ∉ envelope := by decide
    exact (hc.get?_schema (houtside keyword hbranch)).trans (hannotated.branches hbranch)
  · intro message hopaque
    obtain ⟨htyped, hnoted, hbare⟩ := hannotated.veiled hopaque
    refine ⟨(hc.get?_schema (by decide)).trans htyped, ?_, fun keyword hmem => ?_⟩
    · obtain ⟨rest, hstarts⟩ := hnoted
      exact ⟨rest, (hc.get?_schema (by decide)).trans hstarts⟩
    · rcases hc.keywords_schema hmem with henvelops | hmem
      · exact List.mem_cons_of_mem _ (List.mem_append_right _ henvelops)
      · exact hbare hmem

/-- Where the root brings no definitions, those of a document are the entries of the table. -/
theorem defs_perm (hc : Compilation graph request options compiled root outcome table)
    (hplain : (rootSchema root request outcome).carried = []) : compiled.defs.Perm table.built := by
  have hnone : (Members.keys ([] : Members Json)).Nodup := List.nodup_nil
  refine Members.perm_of_get?_eq hc.ascending_defs.nodup (Definitions.nodup_keys_built hc.distinct) fun key => ?_
  rw [hc.defs_eq, hplain, Members.get?_sortedByKey_of_nodup (nodup_keys_joinDefinitions hnone table.sorted),
    get?_joinDefinitions, Definitions.get?_sorted hc.distinct, Definitions.get?_built hc.distinct]
  rfl

/-- Nothing is in the table of a raw schema. -/
theorem built_of_override (hc : Compilation graph request options compiled root outcome table)
    (hraw : root.kind = .override) : table.built = [] := by
  refine List.eq_nil_iff_forall_not_mem.2 fun entry hmem => ?_
  have hfound := (Members.get?_eq_some_iff hc.distinct).2 (Definitions.mem_built.1 hmem)
  have hnothing := hc.slot?_of_override hraw entry.1
  rw [Definitions.slot?, hfound] at hnothing
  cases hnothing

/-! ## The markers in a document -/

/-- Neither the dialect nor the id of a document is a marker. -/
theorem namedMember_opening (dialect : String) (id : Option String) :
    (opening dialect id).flatMap (Json.namedMember Schema.unsupportedKeyword) = [] := by
  refine List.flatMap_eq_nil_iff.2 fun entry hmem => ?_
  obtain ⟨hkeyword, text, hvalue⟩ := mem_opening hmem
  obtain ⟨key, _⟩ := entry
  cases hvalue
  rw [Json.namedMember_of_ne (by rcases hkeyword with rfl | rfl <;> decide)]
  rfl

theorem namedMember_definitionMember (definitions : Members Json) :
    (definitionMember definitions).flatMap (Json.namedMember Schema.unsupportedKeyword) =
      (Json.obj (Members.sortedByKey definitions)).named Schema.unsupportedKeyword := by
  unfold definitionMember
  split_ifs with hempty
  · rw [List.isEmpty_iff.1 hempty]
    rfl
  · rw [List.flatMap_singleton, Json.namedMember_of_ne (by decide)]

/-- The markers in a document are those in the keywords of its root and those in its definitions. -/
theorem named_document (hc : Compilation graph request options compiled root outcome table) :
    compiled.document.named Schema.unsupportedKeyword =
      (rootSchema root request outcome).body.flatMap (Json.namedMember Schema.unsupportedKeyword) ++
        (Json.obj compiled.defs).named Schema.unsupportedKeyword := by
  rw [hc.document_eq, Schema.toJson, hc.schema_eq, Json.named_obj, List.flatMap_append, List.flatMap_append,
    namedMember_opening, namedMember_definitionMember, ← hc.defs_eq, List.nil_append]

/-- In a document whose root brings neither an envelope nor definitions, the markers are those in the root and those in
the entries of the table. -/
theorem named_document_of_written {level : Schema}
    (hc : Compilation graph request options compiled root (some level) table) (hwritten : Translation.Written level)
    (hnames : ∀ entry ∈ table.built, entry.1 ≠ Schema.unsupportedKeyword) :
    (compiled.document.named Schema.unsupportedKeyword).Perm
      ((rootSchema root request (some level)).toJson.named Schema.unsupportedKeyword ++
        table.built.flatMap fun entry => entry.2.named Schema.unsupportedKeyword) := by
  have houtside := hwritten.outside_envelope (rootMetadata root request)
  have hbody : (rootSchema root request (some level)).body = (rootSchema root request (some level)).members := by
    refine List.filter_eq_self.2 fun entry hmem => ?_
    simpa [envelope, and_assoc] using houtside entry.1 (List.mem_map_of_mem hmem)
  have hplain : (rootSchema root request (some level)).carried = [] := by
    have hnone : Members.get? (rootSchema root request (some level)).members Reference.definitionsKeyword = none :=
      Members.get?_eq_none_iff.2 fun hmem => houtside _ hmem (by decide)
    rw [Schema.carried, hnone]
    rfl
  rw [hc.named_document, hbody, ← Json.named_obj, Json.named_obj compiled.defs]
  refine List.Perm.append_left _ (((hc.defs_perm hplain).flatMap_right _).trans (List.Perm.of_eq ?_))
  exact List.flatMap_congr fun entry hmem => Json.namedMember_of_ne (hnames entry hmem) _

/-- A document whose root is a raw schema without markers has none. -/
theorem named_document_of_raw (hc : Compilation graph request options compiled root outcome table)
    (hraw : root.kind = .override)
    (hlacks : (rootSchema root request outcome).toJson.Lacks Schema.unsupportedKeyword) :
    compiled.document.named Schema.unsupportedKeyword = [] := by
  have hcarried : ∀ entry ∈ (rootSchema root request outcome).carried,
      Json.namedMember Schema.unsupportedKeyword entry = [] := by
    unfold Schema.carried
    cases hfound : Members.get? (rootSchema root request outcome).members Reference.definitionsKeyword with
    | none => exact fun entry hmem => by cases hmem
    | some value =>
      have hbelow := hlacks.of_member (Members.mem_of_get? hfound)
      rw [Json.namedMember_of_ne (by decide)] at hbelow
      cases value with
      | obj entries => exact fun entry hmem => Json.Lacks.of_member hbelow hmem
      | _ => exact fun entry hmem => by cases hmem
  have hsorted : table.sorted = [] := by
    rw [Definitions.sorted, hc.built_of_override hraw]
    rfl
  rw [hc.named_document, List.append_eq_nil_iff, Json.named_obj, List.flatMap_eq_nil_iff, List.flatMap_eq_nil_iff]
  constructor
  · exact fun entry hmem => hlacks.of_member (Schema.mem_body.1 hmem).1
  · intro entry hmem
    rw [hc.defs_eq, hsorted] at hmem
    exact hcarried entry (Members.mem_of_mem_sortedByKey hmem)

end Compilation

/-! ## What a build records -/

section

variable {graph : TypeGraph} {request : RootRequest} {options : CompileOptions} {compiled : CompiledSchema}
  {root : ObjectNode}

/-- Where nothing is dropped, the diagnostics of a document are the notes of its root, and those of the types whose
definitions are in the table. -/
theorem diagnostics_of_build (h : build graph request options = .ok compiled)
    (hmode : options.dictionaryKeys ≠ .skip) (hfound : graph.get? request.root = some root) :
    ∃ stored : List (Stored (rootSetting graph options root)),
      compiled.diagnostics.Perm (Translation.notes (rootSetting graph options root) options.maxDepth root ++
        stored.flatMap Stored.notes) ∧
        (rootWalk graph options root).definitions.built.Perm (stored.map Stored.entry) := by
  obtain ⟨hvalid, -⟩ := exists_root_of_build h
  rw [build_eq hvalid hfound] at h
  rw [rootWalk]
  rcases hruns : Walk.run (compileRoot (rootSetting graph options root) root) {} with ⟨e | schema, walk⟩
  · rw [hruns] at h
    cases h
  · rw [hruns] at h
    cases h
    obtain ⟨outcome, mid, hcompiles, -, -, hsame⟩ := compileRoot_ok hruns
    obtain ⟨-, hexpands, -⟩ := shape_runs (rootSetting graph options root) request.root _ hfound .refl hcompiles
    have hsome : outcome.isSome = true := by
      cases outcome with
      | none => exact absurd ⟨_, hexpands⟩ (not_translates_none hmode root)
      | some level => rfl
    obtain rfl := hsame hsome
    exact Shape.shape_records hmode (Nat.le_refl _) hfound hcompiles

theorem lacks_rootMetadata {name : String} (hown : ∀ m ∈ root.metadata, m.Lacks name)
    (hrequested : ∀ m ∈ request.metadata, m.Lacks name) : ∀ m ∈ rootMetadata root request, m.Lacks name := by
  unfold rootMetadata
  intro m hmem
  split at hmem
  · rename_i base overlay hbase hoverlay
    cases hmem
    unfold Metadata.Lacks Metadata.merged
    split_ifs
    · exact hown base hbase
    · exact hrequested overlay hoverlay
  · rw [Option.orElse_eq_orElse, Option.orElse_eq_or, Option.mem_def, Option.or_eq_some_iff] at hmem
    rcases hmem with hinRequest | ⟨-, hinRoot⟩
    · exact hrequested m hinRequest
    · exact hown m hinRoot

/-- Compilation writes every level itself, apart from raw schemas that can be read, and there are no notes on those. -/
theorem Translation.written_or_silent {setting : Setting} {fuel : Nat} {node : ObjectNode} {level : Schema}
    (hexpands : Translation.expand setting fuel node = some (some level)) :
    Translation.Written level ∨ (node.kind = .override ∧ Translation.notes setting fuel node = []) := by
  cases fuel with
  | zero => cases hexpands
  | succ fuel =>
    by_cases hraw : node.kind = .override
    · unfold ObjectNode.kind at hraw
      cases hshape : node.shape with
      | override fragment =>
        rw [Translation.expand, Translation.layer, hshape] at hexpands
        cases hexpands
        unfold Translation.rawSchema Translation.notes Translation.layerNotes rawNote
        rw [hshape]
        dsimp only
        cases Schema.ofFragment fragment with
        | ok schema => exact Or.inr ⟨by rw [ObjectNode.kind, hshape]; rfl, rfl⟩
        | error error => exact Or.inl (Translation.written_unsupported _)
      | _ =>
        rw [hshape] at hraw
        cases hraw
    · exact Or.inl (Translation.written_level (Translation.level_of_layer hexpands) hraw)

/-! ## The nodes that stand in a document -/

namespace Translation

/-- the nodes that stand in a document with this root and these types among its definitions, with their places -/
def standsIn (setting : Setting) (root : ObjectNode) (defined : List ObjectNode) : List (Path × ObjectNode) :=
  places setting setting.options.maxDepth root ++ defined.flatMap fun node =>
    (places setting setting.options.maxDepth node).map fun (path, found) =>
      (.key Reference.definitionsKeyword :: .key node.identity :: path, found)

variable {setting : Setting} {defined : List ObjectNode}

theorem paths_standsIn : (standsIn setting root defined).map (·.1) =
    (places setting setting.options.maxDepth root).map (·.1) ++ defined.flatMap fun node =>
      ((places setting setting.options.maxDepth node).map (·.1)).map fun path =>
        .key Reference.definitionsKeyword :: .key node.identity :: path := by
  rw [standsIn, List.map_append, List.map_flatMap]
  refine congrArg _ (List.flatMap_congr fun node _ => ?_)
  rw [List.map_map, List.map_map]
  rfl

theorem notes_standsIn : (standsIn setting root defined).filterMap (·.2.genericNote?) =
    (places setting setting.options.maxDepth root).filterMap (·.2.genericNote?) ++ defined.flatMap fun node =>
      (places setting setting.options.maxDepth node).filterMap (·.2.genericNote?) := by
  rw [standsIn, List.filterMap_append, List.filterMap_flatMap]
  refine congrArg _ (List.flatMap_congr fun node _ => ?_)
  rw [List.filterMap_map]
  rfl

/-- No two nodes stand at one place of a document. -/
theorem nodup_standsIn (hvalid : setting.graph.validate = .ok ()) {id : ObjectId}
    (hfound : setting.graph.get? id = some root) (hinGraph : ∀ node ∈ defined, ∃ id, setting.graph.get? id = some node)
    (hdistinct : (defined.map (·.identity)).Nodup) : ((standsIn setting root defined).map (·.1)).Nodup := by
  rw [paths_standsIn, List.nodup_append]
  refine ⟨nodup_places hvalid _ hfound, List.nodup_flatMap.2 ⟨fun node hmem => ?_, ?_⟩, ?_⟩
  · obtain ⟨id, hnode⟩ := hinGraph node hmem
    exact (nodup_places hvalid _ hnode).map fun a b hsame => (List.cons.inj (List.cons.inj hsame).2).2
  · rw [List.Nodup, List.pairwise_map] at hdistinct
    refine hdistinct.imp fun {a b} hne path hbelow hother => ?_
    obtain ⟨x, -, rfl⟩ := List.mem_map.1 hbelow
    obtain ⟨y, -, hsame⟩ := List.mem_map.1 hother
    exact hne (Segment.key.inj (List.cons.inj (List.cons.inj hsame).2).1).symm
  · rintro path hroot other hdefinition rfl
    obtain ⟨node, -, hbelow⟩ := List.mem_flatMap.1 hdefinition
    obtain ⟨rest, -, hfront⟩ := List.mem_map.1 hbelow
    obtain ⟨place, hmem, rfl⟩ := List.mem_map.1 hroot
    rcases List.mem_cons.1 hmem with rfl | hmem
    · cases hfront
    · obtain ⟨keyword, hbranch, rest, hpath⟩ := descends_emission hmem
      rw [hpath] at hfront
      have hsame : Reference.definitionsKeyword = keyword := Segment.key.inj (List.cons.inj hfront).1
      exact absurd (hsame ▸ hbranch) (show Reference.definitionsKeyword ∉ Schema.branching by decide)

end Translation

/-! ## Diagnostics and markers -/

section

variable {level : Schema} {table : Definitions} {stored : List (Stored (rootSetting graph options root))}

/-- The markers in the definition of a type are those for its notes. -/
theorem Stored.marked {setting : Setting} (hmode : setting.options.dictionaryKeys ≠ .skip)
    (hvalid : setting.graph.validate = .ok ())
    (hlacks : ∀ node ∈ setting.graph.objects, node.Lacks Schema.unsupportedKeyword) (s : Stored setting) :
    s.entry.2.named Schema.unsupportedKeyword = setting.graph.marked s.notes := by
  obtain ⟨_, hsame, hcarries⟩ := Translation.expand_marked hmode hvalid hlacks s.found s.expands
  cases hsame
  exact (hcarries.annotate (hlacks s.node (TypeGraph.mem_objects s.found)).metadata).markers

/-- The markers in a document are those for the notes of its root and of the types that its walk has stored. -/
theorem Compilation.named_document_perm (hc : Compilation graph request options compiled root (some level) table)
    (hmode : options.dictionaryKeys ≠ .skip) (hlacks : Lacks Schema.unsupportedKeyword graph request)
    (hexpands : Translation.expand (rootSetting graph options root) options.maxDepth root = some (some level))
    (hentries : table.built.Perm (stored.map Stored.entry)) :
    (compiled.document.named Schema.unsupportedKeyword).Perm (graph.marked
      (Translation.notes (rootSetting graph options root) options.maxDepth root ++ stored.flatMap Stored.notes)) := by
  obtain ⟨_, hsame, hcarries⟩ := Translation.expand_marked hmode hc.valid hlacks.nodes hc.found hexpands
  cases hsame
  have hrootMarkers : (rootSchema root request (some level)).toJson.named Schema.unsupportedKeyword =
      graph.marked (Translation.notes (rootSetting graph options root) options.maxDepth root) :=
    (hcarries.annotate (lacks_rootMetadata (hlacks.nodes root (TypeGraph.mem_objects hc.found)).metadata
      hlacks.request)).markers
  rcases Translation.written_or_silent hexpands with hwritten | ⟨hraw, hsilent⟩
  · have hnames : ∀ entry ∈ table.built, entry.1 ≠ Schema.unsupportedKeyword := by
      intro entry hmem
      obtain ⟨s, -, rfl⟩ := List.mem_map.1 (hentries.mem_iff.1 hmem)
      exact (hlacks.nodes s.node (TypeGraph.mem_objects s.found)).identity
    rw [TypeGraph.marked_append, TypeGraph.marked_flatMap, ← hrootMarkers]
    refine (hc.named_document_of_written hwritten hnames).trans (List.Perm.append_left _ ?_)
    refine (hentries.flatMap_right _).trans (List.Perm.of_eq ?_)
    rw [List.flatMap_map]
    exact List.flatMap_congr fun s _ => s.marked hmode hc.valid hlacks.nodes
  · rw [hc.built_of_override hraw] at hentries
    have hnone := List.map_eq_nil_iff.1 hentries.nil_eq.symm
    rw [hsilent] at hrootMarkers ⊢
    rw [hnone, hc.named_document_of_raw hraw hrootMarkers]
    exact List.Perm.refl _

/-- What stands in a document for a generic type is an opaque object. -/
theorem Compilation.isOpaque_in_document (hc : Compilation graph request options compiled root (some level) table)
    (hexpands : Translation.expand (rootSetting graph options root) options.maxDepth root = some (some level))
    (hentries : table.built.Perm (stored.map Stored.entry)) {place : Path × ObjectNode}
    (hmem : place ∈ Translation.standsIn (rootSetting graph options root) root (stored.map (·.node)))
    {note : Diagnostic}
    (hnotes : place.2.genericNote? = some note) : ∃ schema : Schema,
      compiled.document.at? place.1 = some schema.toJson ∧ schema.Opaque note.message := by
  rcases List.mem_append.1 hmem with hmem | hmem
  · rw [hc.document_eq]
    exact Translation.isOpaque_at_place hc.valid hc.found hexpands hc.covers_document hmem hnotes
  · rw [List.flatMap_map] at hmem
    obtain ⟨s, hstored, hmem⟩ := List.mem_flatMap.1 hmem
    obtain ⟨inner, hplace, rfl⟩ := List.mem_map.1 hmem
    have hholds : Members.get? compiled.defs s.node.identity = some s.entry.2 := by
      have hentry := hentries.mem_iff.2 (List.mem_map_of_mem hstored)
      have hslot : table.slot? s.node.identity = some (.built s.entry.2) :=
        (Members.get?_eq_some_iff hc.distinct).2 (Definitions.mem_built.1 hentry)
      obtain ⟨_, hsame, -, hholds⟩ := hc.slot_stored hslot
      cases hsame
      exact hholds
    rw [CompiledSchema.at?_definition hc.document_eq hholds]
    exact Translation.isOpaque_at_place hc.valid s.found s.expands
      ((Schema.Covers.refl s.level).annotate _) hplace hnotes

end

/-- **Diagnostics and what stands for them.** Let a build succeed that drops nothing, and let neither the graph nor the
request bring a marker of its own. Then the markers in the document are, each as often, the messages of the
diagnostics that are not on generic types. And there are a root and the types among the definitions such that the
diagnostics on generic types are, each as often, those on the generic types that stand in the document, no two nodes
stand at one place, and at the place of a generic type stands an opaque object whose comment starts with the message.
-/
theorem diagnostics_match (h : build graph request options = .ok compiled) (hmode : options.dictionaryKeys ≠ .skip)
    (hlacks : Lacks Schema.unsupportedKeyword graph request) :
    (compiled.document.named Schema.unsupportedKeyword).Perm
      ((compiled.diagnostics.filter (· ∉ graph.genericNotes)).map fun d => .str d.message) ∧
    ∃ root defined, graph.get? request.root = some root ∧ (∀ node ∈ defined, node ∈ graph.objects) ∧
      (root.kind ≠ .override → (defined.map (·.identity)).Perm (Members.keys compiled.defs)) ∧
      ((Translation.standsIn (rootSetting graph options root) root defined).map (·.1)).Nodup ∧
      (compiled.diagnostics.filter (· ∈ graph.genericNotes)).Perm
        ((Translation.standsIn (rootSetting graph options root) root defined).filterMap (·.2.genericNote?)) ∧
      ∀ place ∈ Translation.standsIn (rootSetting graph options root) root defined,
        ∀ note, place.2.genericNote? = some note → ∃ schema : Schema,
          compiled.document.at? place.1 = some schema.toJson ∧ schema.Opaque note.message := by
  obtain ⟨root, outcome, table, hc⟩ := compilation_of_build h
  obtain ⟨_, hexpands⟩ := expand_of_build h hc.found
  cases hc.translated.unique ⟨_, hexpands⟩
  obtain ⟨level, rfl⟩ : ∃ level, outcome = some level := by
    cases outcome with
    | none => exact absurd hc.translated (not_translates_none hmode root)
    | some level => exact ⟨level, rfl⟩
  obtain ⟨stored, hdiagnostics, hentries⟩ := diagnostics_of_build h hmode hc.found
  rw [hc.walked] at hentries
  -- the identities of the types that were stored are the keys of the table
  have hidentities : ((stored.map (·.node)).map (·.identity)).Perm (Members.keys table.built) := by
    have hkeys := (hentries.map Prod.fst).symm
    rw [List.map_map] at hkeys
    rwa [List.map_map]
  refine ⟨?_, root, stored.map (·.node), hc.found, ?_, fun hnotRaw => ?_, ?_, ?_, fun place hmem note hnotes => ?_⟩
  · exact (hc.named_document_perm hmode hlacks hexpands hentries).trans ((hdiagnostics.filter _).map _).symm
  · intro node hmem
    obtain ⟨s, -, rfl⟩ := List.mem_map.1 hmem
    exact TypeGraph.mem_objects s.found
  · exact hidentities.trans ((hc.defs_perm (hc.carried_eq_nil hnotRaw)).map _).symm
  · refine Translation.nodup_standsIn hc.valid hc.found (fun node hmem => ?_)
      (hidentities.nodup_iff.2 (Definitions.nodup_keys_built hc.distinct))
    obtain ⟨s, -, rfl⟩ := List.mem_map.1 hmem
    exact ⟨s.id, s.found⟩
  · refine (hdiagnostics.filter _).trans (List.Perm.of_eq ?_)
    have hinner : (stored.flatMap Stored.notes).filter (· ∈ graph.genericNotes) =
        (stored.map (·.node)).flatMap fun node =>
        (Translation.places (rootSetting graph options root) options.maxDepth node).filterMap (·.2.genericNote?) := by
      rw [List.flatMap_map, List.filter_flatMap]
      exact List.flatMap_congr fun s _ => Translation.notes_on_generics hmode hc.valid s.found s.expands
    rw [Translation.notes_standsIn, List.filter_append, hinner]
    exact congrArg (· ++ _) (Translation.notes_on_generics hmode hc.valid hc.found hexpands)
  · exact hc.isOpaque_in_document hexpands hentries hmem hnotes

end

/-! ## A document with markers and opaque objects -/

/-- A shelf with two boxes of one type and two pages of a generic one, and a label that is no JSON. A box has an index
whose keys are not written as strings. -/
def shelf : TypeGraph := ⟨[
  { identity := "Shelf", shape := .custom [Property.raw "label" "label", Property.custom "left" ⟨1⟩,
    Property.custom "right" ⟨1⟩, Property.custom "first" ⟨3⟩, Property.custom "last" ⟨3⟩] [] },
  { identity := "Box", shape := .custom [Property.custom "index" ⟨2⟩] [] },
  { identity := "Index", shape := .map "Dictionary" ⟨4⟩ ⟨4⟩ },
  { identity := "Page<int>", shape := .generic "Page" [⟨4⟩] },
  { identity := "int", shape := .system .int32 }]⟩

theorem Property.Lacks.custom {name called : String} (hother : called ≠ name) (id : ObjectId) :
    (Property.custom called id).Lacks name :=
  ⟨hother, nofun, nofun⟩

theorem Property.Lacks.raw_of_unreadable {name called fragment : String} (hother : called ≠ name)
    (hunreadable : (Json.read fragment).isOk = false) : (Property.raw called fragment).Lacks name := by
  refine ⟨hother, nofun, fun text hmem value hreads => ?_⟩
  rw [List.mem_singleton.1 hmem] at hreads
  rw [hreads] at hunreadable
  cases hunreadable

theorem shelf_lacks : Lacks Schema.unsupportedKeyword shelf { root := ⟨0⟩ } := by
  refine ⟨fun node hmem => ?_, nofun⟩
  simp only [shelf, List.mem_cons, List.not_mem_nil, or_false] at hmem
  have hlabel : (Property.raw "label" "label").Lacks Schema.unsupportedKeyword :=
    .raw_of_unreadable (by decide) (by decide +kernel)
  rcases hmem with rfl | rfl | rfl | rfl | rfl
  · refine ⟨by decide, nofun, fun p hmem => ?_⟩
    simp only [List.mem_cons, List.not_mem_nil, or_false] at hmem
    rcases hmem with rfl | rfl | rfl | rfl | rfl
    · exact hlabel
    all_goals exact .custom (by decide) _
  · refine ⟨by decide, nofun, fun p hmem => ?_⟩
    rw [List.mem_singleton.1 hmem]
    exact .custom (by decide) _
  all_goals exact ⟨by decide, nofun, trivial⟩

/-- Under strict keys, the shelf has a marker for its label, one for the index although two members refer to the box, and
two opaque objects for its pages. -/
theorem diagnostics_match_shelf : ∃ compiled,
    build shelf { root := ⟨0⟩ } { dictionaryKeys := .strict } = .ok compiled ∧
      compiled.diagnostics.map (·.identity) = ["Shelf.label", "Index", "Page<int>", "Page<int>"] ∧
      (compiled.document.named Schema.unsupportedKeyword).Perm
        ((compiled.diagnostics.filter (· ∉ shelf.genericNotes)).map fun d => .str d.message) ∧
      ∃ root defined, (compiled.diagnostics.filter (· ∈ shelf.genericNotes)).Perm
        ((Translation.standsIn (rootSetting shelf { dictionaryKeys := .strict } root) root defined).filterMap
          (·.2.genericNote?)) := by
  have hidentities : ((build shelf { root := ⟨0⟩ } { dictionaryKeys := .strict }).toOption.map fun compiled =>
      compiled.diagnostics.map (·.identity)) = some ["Shelf.label", "Index", "Page<int>", "Page<int>"] := by
    decide +kernel
  cases hbuilds : build shelf { root := ⟨0⟩ } { dictionaryKeys := .strict } with
  | error e =>
    rw [hbuilds] at hidentities
    cases hidentities
  | ok compiled =>
    rw [hbuilds] at hidentities
    obtain ⟨hmarkers, root, defined, -, -, -, -, hgenerics, -⟩ := diagnostics_match hbuilds (by decide) shelf_lacks
    exact ⟨compiled, rfl, Option.some.inj hidentities, hmarkers, root, defined, hgenerics⟩

end GraphSchema
