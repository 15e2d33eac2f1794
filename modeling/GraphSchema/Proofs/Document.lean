import GraphSchema.Compile.Document
import GraphSchema.Proofs.Keywords
import GraphSchema.Proofs.Table

/-!
What a document holds, and where it comes from.

- `compilation_of_build`: a build that succeeds has walked the graph from its root, the outcome is the
  translation's, and all slots of the table are filled with settled definitions.
- `Compilation.body_eq`: apart from the envelope, a document holds the keywords of the root.
- `Compilation.get?_defs`: unless the root is a raw schema, its definitions are those of the table.
- `Compilation.slot_stored`: nothing in the table is lost on the way to the document.
- `document_translates`: what a document says about its root and in its definitions is what the stateless
  translation says.
-/

namespace GraphSchema

/-! ## Parts of a document -/

namespace CompiledSchema

/-- the document as a schema -/
def schema (compiled : CompiledSchema) : Schema :=
  ⟨compiled.document.members?.getD []⟩

/-- what the document says about the root itself -/
def body (compiled : CompiledSchema) : Members Json := compiled.schema.body

/-- the definitions in the document -/
def defs (compiled : CompiledSchema) : Members Json := compiled.schema.carried

theorem definitions_eq (compiled : CompiledSchema) : compiled.definitions = compiled.defs.length := by
  unfold definitions defs schema Schema.carried Json.get?
  cases compiled.document.members? with
  | none => rfl
  | some members =>
    simp only [Option.bind_some, Option.getD_some]
    cases (Members.get? members Reference.definitionsKeyword).bind Json.members? <;> rfl

end CompiledSchema

/-- the keywords that the envelope of a document writes -/
def envelope : List String := ["$schema", "$id", Reference.definitionsKeyword]

theorem Schema.mem_body {schema : Schema} {entry : String × Json} :
    entry ∈ schema.body ↔ entry ∈ schema.members ∧ entry.1 ∉ envelope := by
  simp [body, envelope, and_assoc]

theorem Schema.body_append (front back : Members Json) :
    Schema.body ⟨front ++ back⟩ = Schema.body ⟨front⟩ ++ Schema.body ⟨back⟩ :=
  List.filter_append ..

theorem Schema.body_eq_nil {members : Members Json} (h : ∀ entry ∈ members, entry.1 ∈ envelope) :
    Schema.body ⟨members⟩ = [] :=
  List.eq_nil_iff_forall_not_mem.2 fun entry hm =>
    (Schema.mem_body.1 hm).2 (h entry (Schema.mem_body.1 hm).1)

theorem Schema.body_body (schema : Schema) : Schema.body ⟨schema.body⟩ = schema.body := by
  unfold Schema.body
  rw [List.filter_filter]
  simp only [Bool.and_self]

theorem Schema.Distinct.body {schema : Schema} (h : schema.Distinct) : (Members.keys schema.body).Nodup :=
  h.sublist (List.filter_sublist.map _)

/-! ## Joining definitions -/

theorem joinDefinitions_cons (carried : Members Json) (entry : String × Json) (rest : Members Json) :
    joinDefinitions carried (entry :: rest) = joinDefinitions
      (if Members.contains carried entry.1 then carried else Members.insert carried entry.1 entry.2) rest := rfl

theorem get?_joinDefinitions (carried found : Members Json) (key : String) :
    Members.get? (joinDefinitions carried found) key = (Members.get? carried key).or (Members.get? found key) := by
  induction found generalizing carried with
  | nil => exact Option.or_none.symm
  | cons entry rest ih =>
    obtain ⟨k, schema⟩ := entry
    rw [joinDefinitions_cons, ih, Members.get?_cons]
    cases hc : Members.contains carried k with
    | true =>
      obtain ⟨stored, hs⟩ := Option.isSome_iff_exists.1 hc
      rw [if_pos rfl]
      split_ifs with hk
      · rw [hk, hs, Option.some_or, Option.some_or]
      · rfl
    | false =>
      have hs : Members.get? carried k = none := Option.isSome_eq_false_iff.1 hc |> Option.isNone_iff_eq_none.1
      rw [if_neg Bool.false_ne_true, Members.get?_insert]
      split_ifs with hk
      · rw [hk, hs, Option.some_or, Option.none_or]
      · rfl

/-- Where the definitions of two sides come to the same under a change of values, they do so when they are joined. -/
theorem mapValues_joinDefinitions {β : Type} {f : Json → β} {carried other found more : Members Json}
    (hcarried : carried.mapValues f = other.mapValues f) (hfound : found.mapValues f = more.mapValues f) :
    (joinDefinitions carried found).mapValues f = (joinDefinitions other more).mapValues f := by
  induction found generalizing carried other more with
  | nil =>
    cases more with
    | nil => exact hcarried
    | cons => cases hfound
  | cons entry rest ih =>
    cases more with
    | nil => cases hfound
    | cons entry' rest' =>
      obtain ⟨hentry, hrest⟩ := List.cons.inj hfound
      obtain ⟨hkey, hvalue⟩ := Prod.mk.inj hentry
      rw [joinDefinitions_cons, joinDefinitions_cons]
      refine ih ?_ hrest
      rw [← Members.contains_mapValues f carried, hcarried, Members.contains_mapValues, hkey]
      split_ifs
      · exact hcarried
      · rw [Members.mapValues_insert, Members.mapValues_insert, hcarried, hvalue]

theorem nodup_keys_joinDefinitions {carried : Members Json} (h : (Members.keys carried).Nodup)
    (found : Members Json) : (Members.keys (joinDefinitions carried found)).Nodup := by
  induction found generalizing carried with
  | nil => exact h
  | cons entry rest ih =>
    rw [joinDefinitions_cons]
    split_ifs
    · exact ih h
    · exact ih (Members.nodup_keys_insert h _ _)

theorem mem_joinDefinitions {carried found : Members Json} {entry : String × Json}
    (h : entry ∈ joinDefinitions carried found) : entry ∈ carried ∨ entry ∈ found := by
  induction found generalizing carried with
  | nil => exact Or.inl h
  | cons head rest ih =>
    rw [joinDefinitions_cons] at h
    rcases ih h with hm | hm
    · split_ifs at hm
      · exact Or.inl hm
      · rcases Members.mem_insert hm with he | hm
        · exact Or.inr (he ▸ List.mem_cons_self)
        · exact Or.inl hm
    · exact Or.inr (List.mem_cons_of_mem _ hm)

/-! ## The finished table -/

namespace Definitions

theorem nodup_keys_built {table : Definitions} (hn : (Members.keys table.slots).Nodup) :
    (Members.keys table.built).Nodup := by
  unfold Members.keys List.Nodup at hn ⊢
  rw [List.pairwise_map] at hn ⊢
  refine hn.filterMap _ fun a b hne x hx y hy => ?_
  obtain ⟨s, -, rfl⟩ := Option.map_eq_some_iff.1 hx
  obtain ⟨t, -, rfl⟩ := Option.map_eq_some_iff.1 hy
  exact hne

theorem mem_built {table : Definitions} {key : String} {schema : Json} :
    (key, schema) ∈ table.built ↔ (key, Slot.built schema) ∈ table.slots := by
  unfold built
  rw [List.mem_filterMap]
  constructor
  · rintro ⟨⟨k, slot⟩, hm, hs⟩
    cases slot with
    | reserved => cases hs
    | built stored =>
      cases hs
      exact hm
  · exact fun hm => ⟨_, hm, rfl⟩

/-- What stands under a key of the table stands there also when it is sorted. -/
theorem get?_sorted {table : Definitions} (hn : (Members.keys table.slots).Nodup) (key : String) :
    Members.get? table.sorted key = table.get? key := by
  unfold sorted get?
  rw [Members.get?_sortedByKey_of_nodup (nodup_keys_built hn)]
  ext schema
  rw [Members.get?_eq_some_iff (nodup_keys_built hn), mem_built, ← Members.get?_eq_some_iff hn,
    Option.bind_eq_some_iff]
  constructor
  · exact fun h => ⟨_, h, rfl⟩
  · rintro ⟨slot, hslot, hs⟩
    cases slot with
    | reserved => cases hs
    | built stored =>
      cases hs
      exact hslot

end Definitions

/-! ## Assembling -/

/-- the members that a document starts with: the dialect, and the id if there is one -/
def opening (dialect : String) (id : Option String) : Members Json :=
  Metadata.insertSome [("$schema", .str dialect)] "$id" (id.map .str)

/-- the member that holds definitions, if there are any -/
def definitionMember (definitions : Members Json) : Members Json :=
  if definitions.isEmpty then []
  else [(Reference.definitionsKeyword, .obj (Members.sortedByKey definitions))]

theorem mem_opening {dialect : String} {id : Option String} {entry : String × Json}
    (h : entry ∈ opening dialect id) : (entry.1 = "$schema" ∨ entry.1 = "$id") ∧ ∃ text, entry.2 = .str text := by
  cases id with
  | none =>
    rw [List.mem_singleton.1 h]
    exact ⟨Or.inl rfl, dialect, rfl⟩
  | some id =>
    rcases Members.mem_insert h with rfl | hm
    · exact ⟨Or.inr rfl, id, rfl⟩
    · rw [List.mem_singleton.1 hm]
      exact ⟨Or.inl rfl, dialect, rfl⟩

theorem nodup_keys_opening (dialect : String) (id : Option String) :
    (Members.keys (opening dialect id)).Nodup := by
  have hone : (Members.keys [("$schema", Json.str dialect)]).Nodup := by simp [Members.keys]
  cases id with
  | none => exact hone
  | some id => exact Members.nodup_keys_insert hone "$id" (.str id)

theorem opening_subset_envelope {dialect : String} {id : Option String} {entry : String × Json}
    (h : entry ∈ opening dialect id) : entry.1 ∈ envelope := by
  rcases (mem_opening h).1 with hk | hk <;> rw [hk] <;> decide

theorem mem_definitionMember {definitions : Members Json} {entry : String × Json}
    (h : entry ∈ definitionMember definitions) :
    entry = (Reference.definitionsKeyword, .obj (Members.sortedByKey definitions)) := by
  unfold definitionMember at h
  split_ifs at h
  · cases h
  · exact List.mem_singleton.1 h

theorem definitionMember_sortedByKey (definitions : Members Json) :
    definitionMember (Members.sortedByKey definitions) = definitionMember definitions := by
  unfold definitionMember
  rw [Members.sortedByKey_of_ascending (Members.ascending_sortedByKey definitions)]
  simp only [List.isEmpty_iff, Members.sortedByKey_eq_nil_iff]

/-- Before its definitions a document has no keyword for them. -/
theorem definitionsKeyword_notMem (dialect : String) (id : Option String) (root : Schema) :
    Reference.definitionsKeyword ∉ Members.keys (opening dialect id ++ root.body) := by
  intro hm
  obtain ⟨entry, he, hk⟩ := List.mem_map.1 hm
  rcases List.mem_append.1 he with he | he
  · rcases (mem_opening he).1 with h | h <;> rw [h] at hk <;> exact absurd hk (by decide)
  · exact (Schema.mem_body.1 he).2 (by rw [hk]; decide)

/-- The members of a document, in order: the opening, the keywords of the root, the definitions. -/
theorem assemble_eq (dialect : String) (id : Option String) {root : Schema} (hd : root.Distinct)
    (found : Members Json) : assemble dialect id root found =
      opening dialect id ++ root.body ++ definitionMember (joinDefinitions root.carried found) := by
  have hdisjoint : (Members.keys (opening dialect id ++ root.body)).Nodup := by
    rw [Members.keys, List.map_append, List.nodup_append]
    refine ⟨nodup_keys_opening dialect id, hd.body, ?_⟩
    rintro a ha b hb rfl
    obtain ⟨x, hx, rfl⟩ := List.mem_map.1 ha
    obtain ⟨y, hy, hxy⟩ := List.mem_map.1 hb
    exact (Schema.mem_body.1 hy).2 (hxy ▸ opening_subset_envelope hx)
  have hjoined : Members.insertAll (opening dialect id) root.body = opening dialect id ++ root.body :=
    Members.insertAll_of_nodup hdisjoint
  have hunfold : assemble dialect id root found = if (joinDefinitions root.carried found).isEmpty
      then Members.insertAll (opening dialect id) root.body
      else Members.insert (Members.insertAll (opening dialect id) root.body) Reference.definitionsKeyword
        (.obj (Members.sortedByKey (joinDefinitions root.carried found))) := rfl
  rw [hunfold, hjoined, definitionMember]
  split_ifs
  · rw [List.append_nil]
  · exact Members.insert_of_notMem (definitionsKeyword_notMem dialect id root) _

/-! ## Compiling a root -/

/-- the marker for a root that the mode drops -/
def droppedRoot (root : ObjectNode) : Schema :=
  Schema.unsupported ("root `" ++ root.identity ++ "` was dropped by the dictionary-key policy")

/-- what a document says about its root: the outcome of the translation or a marker, with the metadata of the
root and of the request -/
def rootSchema (root : ObjectNode) (request : RootRequest) (outcome : Option Schema) : Schema :=
  (outcome.getD (droppedRoot root)).annotate (rootMetadata root request)

/-- the state that the walk from a root ends in -/
def rootWalk (graph : TypeGraph) (options : CompileOptions) (root : ObjectNode) : Walk :=
  (Walk.run (compileRoot (rootSetting graph options root) root) {}).2

/-- The document stands for its root if that has a definition. -/
theorem rootIdentity_eq_some_iff {graph : TypeGraph} {options : CompileOptions} {root : ObjectNode} {name : String} :
    (rootSetting graph options root).rootIdentity = some name ↔
      root.kind.isDefined = true ∧ name = root.identity := by
  unfold rootSetting
  cases root.kind.isDefined with
  | true => simp [eq_comm]
  | false => simp

theorem compileRoot_ok {setting : Setting} {root : ObjectNode} {walk after : Walk} {schema : Schema}
    (h : Walk.run (compileRoot setting root) walk = (.ok schema, after)) :
    ∃ outcome mid, Walk.run (Shape.shape setting setting.options.maxDepth root) walk = (.ok outcome, mid) ∧
      after.definitions = mid.definitions ∧ schema = outcome.getD (droppedRoot root) ∧
      (outcome.isSome = true → after = mid) := by
  obtain ⟨outcome, mid, hs, hr⟩ := Walk.run_bind_ok h
  refine ⟨outcome, mid, hs, ?_⟩
  cases outcome with
  | none =>
    rw [Walk.run_unsupported] at hr
    cases hr
    exact ⟨rfl, rfl, fun hsome => by cases hsome⟩
  | some level =>
    obtain ⟨rfl, rfl⟩ := Walk.run_pure_ok hr
    exact ⟨rfl, rfl, fun _ => rfl⟩

theorem compileRoot_error {setting : Setting} {root : ObjectNode} {walk after : Walk} {e : GraphError}
    (h : Walk.run (compileRoot setting root) walk = (.error e, after)) :
    Walk.run (Shape.shape setting setting.options.maxDepth root) walk = (.error e, after) := by
  rcases Walk.run_bind_error h with hs | ⟨outcome, mid, -, hr⟩
  · exact hs
  · cases outcome with
    | none =>
      rw [Walk.run_unsupported] at hr
      cases hr
    | some level => exact (Walk.run_pure_not_error hr).elim

variable {graph : TypeGraph} {request : RootRequest} {options : CompileOptions} {root : ObjectNode}
  {compiled : CompiledSchema}

/-- What a build comes to when the graph is in order and has the root. -/
theorem build_eq (hv : graph.validate = .ok ()) (hroot : graph.get? request.root = some root) :
    build graph request options =
      match Walk.run (compileRoot (rootSetting graph options root) root) {} with
      | (.ok schema, walk) => .ok {
          document := .obj (assemble options.dialect request.id (schema.annotate (rootMetadata root request))
            walk.definitions.sorted)
          fileName := request.fileName
          diagnostics := walk.diagnostics }
      | (.error e, _) => .error e := by
  unfold build
  simp only [hv, hroot, bind, Except.bind]
  rcases Walk.run (compileRoot (rootSetting graph options root) root) {} with ⟨_ | _, _⟩ <;> rfl

theorem build_of_invalid {e : GraphError} (hv : graph.validate = .error e) :
    build graph request options = .error e := by
  simp only [build, hv, bind, Except.bind]

theorem build_of_missing (hv : graph.validate = .ok ()) (hroot : graph.get? request.root = none) :
    build graph request options = .error (.invalidRoot request.root) := by
  simp only [build, hv, hroot, bind, Except.bind]

theorem exists_root_of_build (h : build graph request options = .ok compiled) :
    graph.validate = .ok () ∧ ∃ root, graph.get? request.root = some root := by
  cases hv : graph.validate with
  | error e =>
    rw [build_of_invalid hv] at h
    cases h
  | ok u =>
    refine ⟨rfl, ?_⟩
    cases hr : graph.get? request.root with
    | none =>
      rw [build_of_missing hv hr] at h
      cases h
    | some root => exact ⟨root, rfl⟩

/-- What a compilation that succeeds has to show: the outcome for the root, the table its walk leaves behind, and
the document made of both. -/
structure Compilation (graph : TypeGraph) (request : RootRequest) (options : CompileOptions)
    (compiled : CompiledSchema) (root : ObjectNode) (outcome : Option Schema) (table : Definitions) : Prop where
  valid : graph.validate = .ok ()
  found : graph.get? request.root = some root
  walked : (rootWalk graph options root).definitions = table
  translated : Translates (rootSetting graph options root) root outcome
  settled : ∀ {key slot}, table.slot? key = some slot →
    ∃ schema id node, slot = .built schema ∧ Settled (rootSetting graph options root) request.root table key schema
      id node
  distinct : (Members.keys table.slots).Nodup
  closed : outcome.isSome = true → ∀ target, Mentions (rootSetting graph options root) request.root target →
    Known (rootSetting graph options root) table target.identity
  document : compiled.document =
    .obj (assemble options.dialect request.id (rootSchema root request outcome) table.sorted)

/-- A walk from the root that comes to a schema is such a compilation. -/
theorem compilation_of_run (hv : graph.validate = .ok ()) (hroot : graph.get? request.root = some root)
    {schema : Schema} {walk : Walk}
    (hrun : Walk.run (compileRoot (rootSetting graph options root) root) {} = (.ok schema, walk)) :
    ∃ outcome, schema = outcome.getD (droppedRoot root) ∧
      Compilation graph request options {
        document := .obj (assemble options.dialect request.id (schema.annotate (rootMetadata root request))
          walk.definitions.sorted)
        fileName := request.fileName
        diagnostics := walk.diagnostics } root outcome walk.definitions := by
  obtain ⟨outcome, mid, hs, hsame, rfl, -⟩ := compileRoot_ok hrun
  obtain ⟨hext, hexp, hclosed⟩ := shape_runs (rootSetting graph options root) request.root _ hroot
    Relation.ReflTransGen.refl hs
  rw [← hsame] at hext hclosed
  refine ⟨outcome, rfl, hv, hroot, by rw [rootWalk, hrun], ⟨_, hexp⟩, fun hslot => ?_,
    hext.distinct List.nodup_nil, hclosed, rfl⟩
  -- the walk starts with an empty table, so all that is there was added
  rcases hext.added hslot with hnone | hnew
  · cases hnone
  · exact hnew

/-- **Builds.** Every build that succeeds is such a compilation. -/
theorem compilation_of_build (h : build graph request options = .ok compiled) :
    ∃ root outcome table, Compilation graph request options compiled root outcome table := by
  obtain ⟨hv, root, hroot⟩ := exists_root_of_build h
  rw [build_eq hv hroot] at h
  rcases hrun : Walk.run (compileRoot (rootSetting graph options root) root) {} with ⟨e | schema, walk⟩
  · rw [hrun] at h
    cases h
  · rw [hrun] at h
    cases h
    obtain ⟨outcome, -, hc⟩ := compilation_of_run hv hroot hrun
    exact ⟨root, outcome, walk.definitions, hc⟩

/-- The levels that a walk may go down are enough for the translation of its root. -/
theorem expand_of_build (h : build graph request options = .ok compiled) (hroot : graph.get? request.root = some root) :
    ∃ outcome, Translation.expand (rootSetting graph options root) options.maxDepth root = some outcome := by
  obtain ⟨hv, -⟩ := exists_root_of_build h
  rw [build_eq hv hroot] at h
  rcases hrun : Walk.run (compileRoot (rootSetting graph options root) root) {} with ⟨e | schema, walk⟩
  · rw [hrun] at h
    cases h
  · obtain ⟨outcome, mid, hs, -, -⟩ := compileRoot_ok hrun
    obtain ⟨-, hexp, -⟩ := shape_runs (rootSetting graph options root) request.root _ hroot
      Relation.ReflTransGen.refl hs
    exact ⟨outcome, hexp⟩

namespace Compilation

variable {outcome : Option Schema} {table : Definitions}

/-- What stands in the table is settled. -/
theorem settled_of_get? (hc : Compilation graph request options compiled root outcome table) {key : String}
    {schema : Json} (h : table.get? key = some schema) : ∃ id node,
      Settled (rootSetting graph options root) request.root table key schema id node := by
  obtain ⟨slot, hslot, hs⟩ := Option.bind_eq_some_iff.1 h
  obtain ⟨stored, id, node, rfl, hset⟩ := hc.settled hslot
  cases hs
  exact ⟨id, node, hset⟩

/-- Nothing is behind a raw schema, so its walk leaves the table empty. -/
theorem slot?_of_override (hc : Compilation graph request options compiled root outcome table)
    (hraw : root.kind = .override) (key : String) : table.slot? key = none := by
  cases hslot : table.slot? key with
  | none => rfl
  | some slot =>
    exfalso
    obtain ⟨schema, id, node, -, hs⟩ := hc.settled hslot
    rcases Relation.ReflTransGen.cases_head hs.reached with rfl | ⟨next, ⟨node', hget, hnext⟩, -⟩
    · cases hc.found.symm.trans hs.found
      have hdef := hs.defined
      rw [hraw] at hdef
      cases hdef
    · cases hc.found.symm.trans hget
      unfold ObjectNode.kind at hraw
      unfold TypeGraph.followed at hnext
      cases hshape : root.shape with
      | override fragment =>
        rw [hshape] at hnext
        cases hnext
      | _ =>
        rw [hshape] at hraw
        cases hraw

theorem distinct_root (hc : Compilation graph request options compiled root outcome table) :
    (rootSchema root request outcome).Distinct := by
  refine Schema.Distinct.annotate ?_ _
  cases outcome with
  | none => exact (Translation.written_unsupported _).distinct
  | some level =>
    obtain ⟨fuel, hl⟩ := hc.translated.level
    exact Translation.distinct_level hl

/-- Only a raw schema brings definitions of its own. -/
theorem carried_eq_nil (hc : Compilation graph request options compiled root outcome table)
    (hraw : root.kind ≠ .override) : (rootSchema root request outcome).carried = [] := by
  have hnone : Members.get? (rootSchema root request outcome).members Reference.definitionsKeyword = none := by
    rw [Members.get?_eq_none_iff]
    intro hm
    rcases Schema.mem_keywords_annotate hm with h | h
    · exact absurd h (by decide)
    · refine absurd ?_ (show Reference.definitionsKeyword ∉ Translation.emitted by decide)
      cases outcome with
      | none => exact (Translation.written_unsupported _).within h
      | some level =>
        obtain ⟨fuel, hl⟩ := hc.translated.level
        exact (Translation.written_level hl hraw).within h
  rw [Schema.carried, hnone]
  rfl

/-- The parts of the document. -/
theorem schema_eq (hc : Compilation graph request options compiled root outcome table) :
    compiled.schema = ⟨opening options.dialect request.id ++ (rootSchema root request outcome).body ++
      definitionMember (joinDefinitions (rootSchema root request outcome).carried table.sorted)⟩ := by
  rw [CompiledSchema.schema, hc.document, assemble_eq _ _ hc.distinct_root]
  rfl

/-- **The body.** Apart from the envelope, a document holds the keywords of its root. -/
theorem body_eq (hc : Compilation graph request options compiled root outcome table) :
    compiled.body = (rootSchema root request outcome).body := by
  have hopening : Schema.body ⟨opening options.dialect request.id⟩ = [] :=
    Schema.body_eq_nil fun entry hm => opening_subset_envelope hm
  have hdefinitions : ∀ definitions, Schema.body ⟨definitionMember definitions⟩ = [] := by
    intro definitions
    refine Schema.body_eq_nil fun entry hm => ?_
    rw [mem_definitionMember hm]
    exact List.mem_cons_of_mem _ (List.mem_cons_of_mem _ List.mem_cons_self)
  rw [CompiledSchema.body, hc.schema_eq, Schema.body_append, Schema.body_append, hopening, hdefinitions,
    Schema.body_body, List.nil_append, List.append_nil]

/-- The definitions of a document: those that its root brings, and those of the table. -/
theorem defs_eq (hc : Compilation graph request options compiled root outcome table) :
    compiled.defs =
      Members.sortedByKey (joinDefinitions (rootSchema root request outcome).carried table.sorted) := by
  have hnone := Members.get?_eq_none_iff.2
    (definitionsKeyword_notMem options.dialect request.id (rootSchema root request outcome))
  rw [CompiledSchema.defs, hc.schema_eq, Schema.carried, Members.get?_append, hnone, Option.none_or,
    definitionMember]
  split_ifs with hempty
  · rw [List.isEmpty_iff.1 hempty]
    rfl
  · rw [Members.get?_cons, if_pos rfl]
    rfl

/-- A document in its parts. -/
theorem document_split (hc : Compilation graph request options compiled root outcome table) :
    compiled.document =
      .obj (opening options.dialect request.id ++ compiled.body ++ definitionMember compiled.defs) := by
  rw [hc.defs_eq, definitionMember_sortedByKey, hc.body_eq, hc.document, assemble_eq _ _ hc.distinct_root]

theorem ascending_defs (hc : Compilation graph request options compiled root outcome table) :
    Members.Ascending compiled.defs := by
  rw [hc.defs_eq]
  exact Members.ascending_sortedByKey _

/-- **The definitions.** Unless the root is a raw schema, its definitions are those of the table. -/
theorem get?_defs (hc : Compilation graph request options compiled root outcome table)
    (hraw : root.kind ≠ .override) (key : String) : Members.get? compiled.defs key = table.get? key := by
  have hnil : (Members.keys ([] : Members Json)).Nodup := List.nodup_nil
  have hn := nodup_keys_joinDefinitions hnil table.sorted
  rw [hc.defs_eq, hc.carried_eq_nil hraw, Members.get?_sortedByKey_of_nodup hn, get?_joinDefinitions,
    Definitions.get?_sorted hc.distinct]
  rfl

/-- **Nothing is lost.** Every slot of the table is filled, and its schema stands among the definitions. -/
theorem slot_stored (hc : Compilation graph request options compiled root outcome table) {key : String}
    {slot : Slot} (hslot : table.slot? key = some slot) :
    ∃ schema, slot = .built schema ∧ table.get? key = some schema ∧
      Members.get? compiled.defs key = some schema := by
  obtain ⟨schema, id, node, rfl, -⟩ := hc.settled hslot
  have hget : table.get? key = some schema := Option.bind_eq_some_iff.2 ⟨_, hslot, rfl⟩
  refine ⟨schema, rfl, hget, ?_⟩
  by_cases hraw : root.kind = .override
  · rw [hc.slot?_of_override hraw] at hslot
    cases hslot
  · rw [hc.get?_defs hraw, hget]

/-- What stands among the definitions is settled. -/
theorem settled_of_mem (hc : Compilation graph request options compiled root outcome table)
    (hraw : root.kind ≠ .override) {entry : String × Json} (hm : entry ∈ compiled.defs) : ∃ id node,
      Settled (rootSetting graph options root) request.root table entry.1 entry.2 id node := by
  have hget := hc.ascending_defs.get?_of_mem hm
  rw [hc.get?_defs hraw] at hget
  exact hc.settled_of_get? hget

end Compilation

/-! ## A cyclic graph -/

/-- A list whose nodes have tags, where a tag names its parent. The root comes back to itself through a value
that may be null, and a definition is entered again while its slot is only reserved. -/
def taggedList : TypeGraph := ⟨[
  { identity := "string", shape := .system .string },
  { identity := "Node", shape := .custom [Property.custom "next" ⟨2⟩, Property.custom "tags" ⟨3⟩] [] },
  { identity := "Node?", shape := .nullable ⟨1⟩ },
  { identity := "Tag[]", shape := .array "Array" ⟨4⟩ },
  { identity := "Tag", shape := .custom [Property.custom "label" ⟨0⟩, Property.custom "parent" ⟨4⟩] [] }]⟩

theorem taggedList_builds : ∃ compiled, build taggedList { root := ⟨1⟩ } {} = .ok compiled :=
  exists_ok_of_isOk (by rfl)

/-! ## Documents are translations -/

/-- **The walk is the translation.** When a build succeeds, its document says of the root what the stateless
translation says, with the metadata of the root and of the request. Unless the root is a raw schema, every
definition under a key is one level of the translation of a type of that name which compilation reaches, with
the metadata of that type. The translation of a node has one outcome, so that no definition depends on how the
walk came to it. -/
theorem document_translates (h : build graph request options = .ok compiled) :
    ∃ root outcome, graph.get? request.root = some root ∧
      Translates (rootSetting graph options root) root outcome ∧
      compiled.body = (rootSchema root request outcome).body ∧
      (root.kind ≠ .override → ∀ entry ∈ compiled.defs, ∃ id node level,
        graph.get? id = some node ∧ graph.Reaches options.dictionaryKeys request.root id ∧
        node.kind.isDefined = true ∧ node.identity = entry.1 ∧
        Translates (rootSetting graph options root) node (some level) ∧
        entry.2 = (level.annotate node.metadata).toJson) ∧
      ∀ node a b, Translates (rootSetting graph options root) node a →
        Translates (rootSetting graph options root) node b → a = b := by
  obtain ⟨root, outcome, table, hc⟩ := compilation_of_build h
  refine ⟨root, outcome, hc.found, hc.translated, hc.body_eq, ?_, fun node a b ha hb => ha.unique hb⟩
  intro hraw entry hm
  obtain ⟨id, node, hset⟩ := hc.settled_of_mem hraw hm
  obtain ⟨level, htranslates, hschema⟩ := hset.translated
  exact ⟨id, node, level, hset.found, hset.reached, hset.defined, hset.named, htranslates, hschema⟩

/-- In the list of tagged nodes, the definition under each key is a level of its type. -/
theorem document_translates_taggedList : ∃ compiled root outcome,
    build taggedList { root := ⟨1⟩ } {} = .ok compiled ∧ taggedList.get? ⟨1⟩ = some root ∧
      Translates (rootSetting taggedList {} root) root outcome ∧
      compiled.body = (rootSchema root { root := ⟨1⟩ } outcome).body ∧
      ∀ entry ∈ compiled.defs, ∃ node level, node.identity = entry.1 ∧
        Translates (rootSetting taggedList {} root) node (some level) ∧
        entry.2 = (level.annotate node.metadata).toJson := by
  obtain ⟨compiled, hb⟩ := taggedList_builds
  obtain ⟨root, outcome, hroot, htranslates, hbody, hdefs, -⟩ := document_translates hb
  have hraw : root.kind ≠ .override := by
    cases hroot
    decide
  refine ⟨compiled, root, outcome, hb, hroot, htranslates, hbody, ?_⟩
  intro entry hm
  obtain ⟨id, node, level, -, -, -, hnamed, hlevel, hschema⟩ := hdefs hraw entry hm
  exact ⟨node, level, hnamed, hlevel, hschema⟩

end GraphSchema
