import Mathlib.Data.Set.Card
import GraphSchema.Proofs.Document

/-!
Which definitions a document has: those of the types that compilation reaches from the root.

- `Compilation.defs_sound`: a definition is that of a type that is reached.
- `Compilation.defs_complete`: every type that is reached has its definition. A type whose slot is taken when
  the walk comes by is settled all the same when the walk ends, so what it refers to is known then.
- `definitions_exact`: both, with the number of definitions.
-/

namespace GraphSchema

/-- whether compilation reaches a type of this name that has a definition -/
def TypeGraph.ReachesName (graph : TypeGraph) (mode : KeyMode) (origin : ObjectId) (name : String) : Prop :=
  ∃ id node, graph.get? id = some node ∧ graph.Reaches mode origin id ∧ node.kind.isDefined = true ∧
    node.identity = name

variable {graph : TypeGraph} {request : RootRequest} {options : CompileOptions} {root : ObjectNode}
  {compiled : CompiledSchema} {outcome : Option Schema} {table : Definitions}

namespace Compilation

theorem defs_sound (hc : Compilation graph request options compiled root outcome table)
    (hraw : root.kind ≠ .override) {key : String} (h : key ∈ Members.keys compiled.defs) :
    graph.ReachesName options.dictionaryKeys request.root key ∧
      ¬ (root.kind.isDefined = true ∧ key = root.identity) := by
  obtain ⟨entry, hm, rfl⟩ := List.mem_map.1 h
  obtain ⟨id, node, hset⟩ := hc.settled_of_mem hraw hm
  exact ⟨⟨id, node, hset.found, hset.reached, hset.defined, hset.named⟩,
    fun hroot => hset.notRoot (rootIdentity_eq_some_iff.2 hroot)⟩

/-- When the walk has ended, all that a reached node refers to is known. -/
theorem mentions_known (hc : Compilation graph request options compiled root outcome table)
    (hn : graph.definedNames.Nodup) (hmode : options.dictionaryKeys ≠ .skip) {id : ObjectId}
    (hreach : graph.Reaches options.dictionaryKeys request.root id) {target : ObjectNode}
    (h : Mentions (rootSetting graph options root) id target) :
    Known (rootSetting graph options root) table target.identity := by
  have hkept : ∀ node, ¬ Translates (rootSetting graph options root) node none := not_translates_none hmode
  have hroot : ∀ t, Mentions (rootSetting graph options root) request.root t →
      Known (rootSetting graph options root) table t.identity := by
    refine fun t ht => hc.closed ?_ t ht
    cases houtcome : outcome with
    | none => exact absurd (houtcome ▸ hc.translated) (hkept root)
    | some level => rfl
  induction hreach generalizing target with
  | refl => exact hroot target h
  | tail _ hedge ih =>
    rename_i a b _
    obtain ⟨owner, howner, hb⟩ := hedge
    have hcontains : graph.Contains b :=
      TypeGraph.contains_of_mem_children hc.valid howner (TypeGraph.followed_subset graph _ owner hb)
    obtain ⟨node, hnode⟩ := TypeGraph.get?_of_contains hcontains
    have hfollows : graph.Follows options.dictionaryKeys a b := ⟨owner, howner, hb⟩
    cases hd : node.kind.isDefined with
    | false => exact ih (.through hfollows hnode hd (hkept node) h)
    | true =>
      -- the node is known itself, as the document or by a slot, and both are settled
      rcases ih (.direct hfollows hnode hd) with hdocument | hslot
      · obtain ⟨hrootdef, hidentity⟩ := rootIdentity_eq_some_iff.1 hdocument
        obtain rfl := TypeGraph.eq_of_identity_eq hn hnode hc.found hd hrootdef hidentity
        exact hroot target h
      · obtain ⟨slot, hslot⟩ := Definitions.contains_iff.1 hslot
        obtain ⟨schema, id', node', -, hset⟩ := hc.settled hslot
        obtain rfl := TypeGraph.eq_of_identity_eq hn hset.found hnode hset.defined hd hset.named
        exact hset.closed target h

theorem defs_complete (hc : Compilation graph request options compiled root outcome table)
    (hn : graph.definedNames.Nodup) (hmode : options.dictionaryKeys ≠ .skip) {key : String}
    (h : graph.ReachesName options.dictionaryKeys request.root key)
    (hroot : ¬ (root.kind.isDefined = true ∧ key = root.identity)) : key ∈ Members.keys compiled.defs := by
  obtain ⟨id, node, hget, hreach, hdef, rfl⟩ := h
  rcases Relation.ReflTransGen.cases_tail hreach with rfl | ⟨owner, howner, hedge⟩
  · cases hc.found.symm.trans hget
    exact absurd ⟨hdef, rfl⟩ hroot
  · rcases hc.mentions_known hn hmode howner (.direct hedge hget hdef) with hdocument | hslot
    · exact absurd (rootIdentity_eq_some_iff.1 hdocument) hroot
    · obtain ⟨slot, hslot⟩ := Definitions.contains_iff.1 hslot
      obtain ⟨schema, -, -, hdefs⟩ := hc.slot_stored hslot
      exact Members.mem_keys_of_mem (Members.mem_of_get? hdefs)

end Compilation

/-- **Exactly what is reached.** Where all types have different names, the root is no raw schema and the mode drops
nothing, the keys of the definitions in a document are the names of the types with a definition that compilation
reaches from the root, without the name of the root itself if it is such a type. No key is repeated, and their
number is that of the definitions. -/
theorem definitions_exact (hn : graph.definedNames.Nodup) (hmode : options.dictionaryKeys ≠ .skip)
    (hroot : graph.get? request.root = some root) (hraw : root.kind ≠ .override)
    (h : build graph request options = .ok compiled) :
    (Members.keys compiled.defs).Nodup ∧
      (∀ key, key ∈ Members.keys compiled.defs ↔
        graph.ReachesName options.dictionaryKeys request.root key ∧
          ¬ (root.kind.isDefined = true ∧ key = root.identity)) ∧
      compiled.definitions = Set.ncard {key | graph.ReachesName options.dictionaryKeys request.root key ∧
        ¬ (root.kind.isDefined = true ∧ key = root.identity)} := by
  obtain ⟨found, outcome, table, hc⟩ := compilation_of_build h
  obtain rfl : root = found := Option.some.inj (hroot.symm.trans hc.found)
  have hnodup := hc.ascending_defs.nodup
  have hiff : ∀ key, key ∈ Members.keys compiled.defs ↔
      graph.ReachesName options.dictionaryKeys request.root key ∧
        ¬ (root.kind.isDefined = true ∧ key = root.identity) :=
    fun key => ⟨hc.defs_sound hraw, fun hk => hc.defs_complete hn hmode hk.1 hk.2⟩
  refine ⟨hnodup, hiff, ?_⟩
  have hset : {key | graph.ReachesName options.dictionaryKeys request.root key ∧
      ¬ (root.kind.isDefined = true ∧ key = root.identity)} =
        ((Members.keys compiled.defs).toFinset : Set String) := by
    ext key
    exact (hiff key).symm.trans List.mem_toFinset.symm
  calc compiled.definitions = (Members.keys compiled.defs).length := by
        rw [CompiledSchema.definitions_eq, Members.keys, List.length_map]
    _ = (Members.keys compiled.defs).toFinset.card := (List.toFinset_card_of_nodup hnodup).symm
    _ = _ := by rw [hset, Set.ncard_coe_finset]

/-- The list of tagged nodes has the definition of a tag, and not that of a node. -/
theorem definitions_exact_taggedList : ∃ compiled, taggedList.definedNames.Nodup ∧
    build taggedList { root := ⟨1⟩ } {} = .ok compiled ∧
      (∀ key, key ∈ Members.keys compiled.defs ↔
        taggedList.ReachesName .loose ⟨1⟩ key ∧ key ≠ "Node") := by
  obtain ⟨compiled, hb⟩ := taggedList_builds
  have hn : taggedList.definedNames.Nodup := by decide
  obtain ⟨-, hkeys, -⟩ := definitions_exact hn (by decide) rfl (by decide) hb
  refine ⟨compiled, hn, hb, fun key => (hkeys key).trans (and_congr_right fun _ => not_congr ?_)⟩
  exact and_iff_right rfl

end GraphSchema
