import GraphSchema.Proofs.Document

/-!
How deep a walk goes, and how it can fail.

- `shape_error`: a node whose children are all in the graph fails only where the compilation of a child fails, in a
  state that has at least as many slots, and one more if the child has a definition.
- `shape_error_depth`: so all that can go wrong is that the levels run out.
- `shape_succeeds`: they do not run out if there are enough of them for the types that are still to be defined and
  for the nodes that stand inside this one.
- `not_translates_of_cycle`: a node from which a cycle of nodes without definitions is met has no translation.
- `build_terminates`: what this says about a build.
-/

namespace GraphSchema

/-! ## Counting -/

theorem countP_lt_of_imp {α : Type} {p q : α → Bool} {l : List α} (himp : ∀ x ∈ l, p x = true → q x = true)
    {x : α} (hx : x ∈ l) (hp : p x = false) (hq : q x = true) : l.countP p < l.countP q := by
  obtain ⟨front, back, rfl⟩ := List.append_of_mem hx
  have hfront : front.countP p ≤ front.countP q :=
    List.countP_mono_left fun y hy => himp y (List.mem_append_left _ hy)
  have hback : back.countP p ≤ back.countP q :=
    List.countP_mono_left fun y hy => himp y (List.mem_append_right _ (List.mem_cons_of_mem _ hy))
  have hnot : ¬ p x = true := by simp [hp]
  rw [List.countP_append, List.countP_append, List.countP_cons_of_neg hnot, List.countP_cons_of_pos hq]
  omega

namespace TypeGraph

variable {graph : TypeGraph} {mode : KeyMode}

/-- the number of nodes that have a definition -/
def definedCount (graph : TypeGraph) : Nat := graph.objects.countP (·.kind.isDefined)

/-- the number of the other nodes -/
def inlineCount (graph : TypeGraph) : Nat := graph.objects.countP (!·.kind.isDefined)

open Classical in
/-- how many nodes stand inside a node, at any depth -/
noncomputable def nesting (graph : TypeGraph) (mode : KeyMode) (id : ObjectId) : Nat :=
  graph.entries.countP fun entry => decide (Relation.TransGen (graph.Inlines mode) id entry.1)

theorem map_snd_entries (graph : TypeGraph) : graph.entries.map Prod.snd = graph.objects := by
  rw [entries, List.map_map]
  exact List.zipIdx_map_fst 0 graph.objects

open Classical in
/-- What stands inside a node has no definition. -/
theorem nesting_le (graph : TypeGraph) (mode : KeyMode) (id : ObjectId) :
    graph.nesting mode id ≤ graph.inlineCount := by
  have hcount : graph.inlineCount = graph.entries.countP ((!·.kind.isDefined) ∘ Prod.snd) := by
    rw [← List.countP_map, map_snd_entries, inlineCount]
  rw [hcount]
  refine List.countP_mono_left fun entry hm hinside => ?_
  have hget : graph.get? entry.1 = some entry.2 := mem_entries_iff.1 hm
  obtain ⟨owner, -, -, node, hnode, hinline⟩ := Relation.TransGen.tail'_iff.1 (of_decide_eq_true hinside)
  cases hget.symm.trans hnode
  simp [hinline]

open Classical in
/-- Where no node stands inside itself, an edge to a node that stands inside leads to one with less inside. -/
theorem nesting_lt (hacyclic : ∀ id, ¬ Relation.TransGen (graph.Inlines mode) id id) {a b : ObjectId}
    (h : graph.Inlines mode a b) : graph.nesting mode b < graph.nesting mode a := by
  obtain ⟨node, hnode, -⟩ := h.2
  refine countP_lt_of_imp (fun entry _ hinside => ?_) (mem_entries_iff.2 hnode) (decide_eq_false (hacyclic b))
    (decide_eq_true (.single h))
  exact decide_eq_true (.head h (of_decide_eq_true hinside))

end TypeGraph

/-! ## Where a node fails -/

variable {setting : Setting}

/-- **One level down.** A node that fails has an edge to a child whose compilation fails with one level less. A
child with a definition fails after its slot was reserved, which was free before. -/
theorem shape_error (hvalid : setting.graph.validate = .ok ()) {room : Nat} {id : ObjectId} {node : ObjectNode}
    {walk after : Walk} {e : GraphError} (hget : setting.graph.get? id = some node)
    (h : Walk.run (Shape.shape setting (room + 1) node) walk = (.error e, after)) :
    ∃ child found mid last, setting.graph.Follows setting.options.dictionaryKeys id child ∧
      setting.graph.get? child = some found ∧ Extends setting id walk.definitions mid.definitions ∧
      ((found.kind.isDefined = false ∧ Walk.run (Shape.shape setting room found) mid = (.error e, last)) ∨
        (found.kind.isDefined = true ∧ mid.definitions.contains found.identity = false ∧
          Walk.run (Shape.shape setting room found) (Shape.reserving found mid) = (.error e, last))) := by
  obtain ⟨last, hl, -⟩ := Shape.shape_succ h
  have hchildren : ∀ child ∈ node.children, setting.graph.Contains child :=
    fun child hchild => TypeGraph.contains_of_mem_children hvalid hget hchild
  have hvisits : ∀ child ∈ setting.graph.followed setting.options.dictionaryKeys node, _ :=
    fun child hchild => object_visits (shape_runs setting id room) (.single ⟨node, hget, hchild⟩)
  obtain ⟨child, hchild, mid, hext, hobject⟩ := Shape.layer_error tracks_extends hchildren hvisits hl
  obtain ⟨found, hfound⟩ :=
    TypeGraph.get?_of_contains (hchildren child (TypeGraph.followed_subset _ _ node hchild))
  rcases Shape.object_error hfound hobject with ⟨hdef, hreference⟩ | ⟨hinline, hshape⟩
  · rw [Shape.run_reference] at hreference
    split_ifs at hreference with hknown
    · cases hreference
    · have hnew : mid.definitions.contains found.identity = false :=
        Bool.eq_false_iff.2 (not_or.1 hknown).2
      rcases hrun : Walk.run (Shape.definition (Shape.shape setting room) found)
        (Shape.reserving found mid) with ⟨e' | schema, stop⟩
      · rw [hrun] at hreference
        cases hreference
        exact ⟨child, found, mid, last, ⟨node, hget, hchild⟩, hfound, hext,
          Or.inr ⟨hdef, hnew, Shape.definition_error hrun⟩⟩
      · rw [hrun] at hreference
        cases hreference
  · exact ⟨child, found, mid, last, ⟨node, hget, hchild⟩, hfound, hext, Or.inl ⟨hinline, hshape⟩⟩

/-- **The only failure.** In a graph that is in order, a node fails only because the levels run out. -/
theorem shape_error_depth (hvalid : setting.graph.validate = .ok ()) {room : Nat} {id : ObjectId}
    {node : ObjectNode} {walk after : Walk} {e : GraphError} (hget : setting.graph.get? id = some node)
    (h : Walk.run (Shape.shape setting room node) walk = (.error e, after)) :
    ∃ identity, e = .depthExceeded setting.options.maxDepth identity := by
  induction room generalizing id node walk after with
  | zero =>
    rw [Shape.shape, Walk.run_throw] at h
    cases h
    exact ⟨node.identity, rfl⟩
  | succ room ih =>
    obtain ⟨child, found, mid, last, -, hfound, -, ⟨-, hshape⟩ | ⟨-, -, hshape⟩⟩ := shape_error hvalid hget h
    · exact ih hfound hshape
    · exact ih hfound hshape

/-! ## Enough levels -/

/-- how many nodes have a definition that is still to be built -/
def undefinedCount (graph : TypeGraph) (table : Definitions) : Nat :=
  graph.objects.countP fun node => node.kind.isDefined && !table.contains node.identity

/-- The levels that are enough for a node: for each type that is still to be defined one, and one for each node
that may stand inside it, and then those for what stands inside the node. -/
noncomputable def levels (setting : Setting) (table : Definitions) (id : ObjectId) : Nat :=
  undefinedCount setting.graph table * (setting.graph.inlineCount + 1)
    + setting.graph.nesting setting.options.dictionaryKeys id + 1

theorem undefinedCount_le (graph : TypeGraph) (table : Definitions) :
    undefinedCount graph table ≤ graph.definedCount :=
  List.countP_mono_left fun _ _ h => (Bool.and_eq_true_iff.1 h).1

theorem undefinedCount_mono {graph : TypeGraph} {small large : Definitions}
    (hle : ∀ key, small.contains key = true → large.contains key = true) :
    undefinedCount graph large ≤ undefinedCount graph small := by
  refine List.countP_mono_left fun node _ h => ?_
  simp only [Bool.and_eq_true, Bool.not_eq_true'] at h ⊢
  refine ⟨h.1, Bool.eq_false_iff.2 fun hc => ?_⟩
  rw [hle _ hc] at h
  cases h.2

theorem contains_reserving {walk : Walk} {node : ObjectNode} {key : String} :
    (Shape.reserving node walk).definitions.contains key = true ↔
      key = node.identity ∨ walk.definitions.contains key = true := by
  rw [Definitions.contains, Definitions.contains, Members.contains_iff, Members.contains_iff]
  exact Members.mem_keys_insert

/-- To reserve a slot leaves one type less to be defined. -/
theorem undefinedCount_reserving {walk : Walk} {node : ObjectNode} (hm : node ∈ setting.graph.objects)
    (hdef : node.kind.isDefined = true) (hnew : walk.definitions.contains node.identity = false) :
    undefinedCount setting.graph (Shape.reserving node walk).definitions <
      undefinedCount setting.graph walk.definitions := by
  have hreserved : (Shape.reserving node walk).definitions.contains node.identity = true :=
    contains_reserving.2 (Or.inl rfl)
  refine countP_lt_of_imp (fun other _ h => ?_) hm (by simp [hreserved]) (by simp [hdef, hnew])
  simp only [Bool.and_eq_true, Bool.not_eq_true'] at h ⊢
  refine ⟨h.1, Bool.eq_false_iff.2 fun hc => ?_⟩
  rw [contains_reserving.2 (Or.inr hc)] at h
  cases h.2

/-- **Enough.** Where no node stands inside itself, a node does not fail if it has enough levels. The induction
is on the levels: an edge to a node that stands inside this one makes what is inside less, and an edge to a type
that is not defined yet makes the types to be defined fewer, while all that is inside of that type is counted
again. -/
theorem shape_succeeds (hvalid : setting.graph.validate = .ok ())
    (hacyclic : ∀ id, ¬ Relation.TransGen (setting.graph.Inlines setting.options.dictionaryKeys) id id)
    {room : Nat} {id : ObjectId} {node : ObjectNode} {walk after : Walk} {e : GraphError}
    (hget : setting.graph.get? id = some node) (hroom : levels setting walk.definitions id ≤ room) :
    Walk.run (Shape.shape setting room node) walk ≠ (.error e, after) := by
  induction room generalizing id node walk after with
  | zero =>
    unfold levels at hroom
    omega
  | succ room ih =>
    intro h
    obtain ⟨child, found, mid, last, hedge, hfound, hext, hfails⟩ := shape_error hvalid hget h
    have hmid : undefinedCount setting.graph mid.definitions ≤ undefinedCount setting.graph walk.definitions :=
      undefinedCount_mono hext.contains
    unfold levels at hroom
    rcases hfails with ⟨hinline, hshape⟩ | ⟨hdef, hnew, hshape⟩
    · refine ih hfound ?_ hshape
      have hless := TypeGraph.nesting_lt hacyclic ⟨hedge, found, hfound, hinline⟩
      have hmul := Nat.mul_le_mul_right (setting.graph.inlineCount + 1) hmid
      unfold levels
      omega
    · refine ih hfound ?_ hshape
      have hless := undefinedCount_reserving (TypeGraph.mem_objects hfound) hdef hnew
      have hinside := setting.graph.nesting_le setting.options.dictionaryKeys child
      have hmul := Nat.mul_le_mul_right (setting.graph.inlineCount + 1)
        (Nat.succ_le_of_lt (Nat.lt_of_lt_of_le hless hmid))
      rw [Nat.succ_mul] at hmul
      unfold levels
      omega

/-! ## Cycles without a definition -/

/-- whether a cycle of nodes without definitions is met from here, past such nodes only -/
def TypeGraph.MeetsCycle (graph : TypeGraph) (mode : KeyMode) (id : ObjectId) : Prop :=
  ∃ turn, Relation.ReflTransGen (graph.Inlines mode) id turn ∧ Relation.TransGen (graph.Inlines mode) turn turn

theorem TypeGraph.MeetsCycle.next {graph : TypeGraph} {mode : KeyMode} {a : ObjectId}
    (h : graph.MeetsCycle mode a) : ∃ b, graph.Inlines mode a b ∧ graph.MeetsCycle mode b := by
  obtain ⟨turn, hway, hcycle⟩ := h
  rcases Relation.ReflTransGen.cases_head hway with rfl | ⟨b, hedge, hrest⟩
  · obtain ⟨b, hedge, hback⟩ := Relation.TransGen.head'_iff.1 hcycle
    exact ⟨b, hedge, a, hback, hcycle⟩
  · exact ⟨b, hedge, turn, hrest, hcycle⟩

/-- **No end.** A node from which such a cycle is met has no level, because each node on the way needs the level of
the next one. -/
theorem not_translates_of_cycle (hmode : setting.options.dictionaryKeys ≠ .skip) {id : ObjectId}
    {node : ObjectNode} {schema : Schema} (hget : setting.graph.get? id = some node)
    (hcycle : setting.graph.MeetsCycle setting.options.dictionaryKeys id) :
    ¬ Translates setting node (some schema) := by
  rintro ⟨fuel, hexp⟩
  induction fuel generalizing id node schema with
  | zero => cases hexp
  | succ fuel ih =>
    obtain ⟨b, ⟨⟨owner, howner, hb⟩, found, hfound, hinline⟩, hnext⟩ := hcycle.next
    cases hget.symm.trans howner
    obtain ⟨outcome, hmeant⟩ := (Translation.level_of_layer hexp).meant hb
    obtain ⟨found', hfound', ⟨hdef, -⟩ | ⟨-, inner, hinner, -⟩⟩ := Translation.child_eq_some_iff.1 hmeant
    · cases hfound.symm.trans hfound'
      rw [hinline] at hdef
      cases hdef
    · cases hfound.symm.trans hfound'
      cases inner with
      | none => exact not_translates_none hmode found ⟨fuel, hinner⟩
      | some level => exact ih hfound hnext hinner

/-! ## Builds -/

variable {graph : TypeGraph} {request : RootRequest} {options : CompileOptions} {root : ObjectNode}

theorem build_error (hvalid : graph.validate = .ok ()) (hroot : graph.get? request.root = some root)
    {e : GraphError} (h : build graph request options = .error e) :
    ∃ after,
      Walk.run (Shape.shape (rootSetting graph options root) options.maxDepth root) {} = (.error e, after) := by
  rw [build_eq hvalid hroot] at h
  rcases hrun : Walk.run (compileRoot (rootSetting graph options root) root) {} with ⟨e' | schema, walk⟩
  · rw [hrun] at h
    cases h
    exact ⟨walk, compileRoot_error hrun⟩
  · rw [hrun] at h
    cases h

theorem levels_le (root : ObjectNode)
    (hdepth : (graph.definedCount + 1) * (graph.inlineCount + 1) ≤ options.maxDepth) :
    levels (rootSetting graph options root) {} request.root ≤ options.maxDepth := by
  have hundefined := Nat.mul_le_mul_right (graph.inlineCount + 1) (undefinedCount_le graph {})
  have hinside := graph.nesting_le options.dictionaryKeys request.root
  rw [Nat.succ_mul] at hdepth
  change undefinedCount graph {} * (graph.inlineCount + 1) +
    graph.nesting options.dictionaryKeys request.root + 1 ≤ options.maxDepth
  omega

/-- **Termination.** For a graph that is in order and a root in it, whatever the mode:

- a build fails only because the levels run out;
- where no cycle of edges consists of nodes without definitions, it succeeds as soon as there are
  `(k + 1) * (u + 1)` levels, for `k` nodes with a definition and `u` others;
- where the root meets such a cycle past nodes without definitions, and the mode drops nothing, the levels run out,
  however many there are. -/
theorem build_terminates (hvalid : graph.validate = .ok ()) (hroot : graph.Contains request.root) :
    (∀ e, build graph request options = .error e → ∃ identity, e = .depthExceeded options.maxDepth identity) ∧
    ((∀ id, ¬ Relation.TransGen (graph.Inlines options.dictionaryKeys) id id) →
      (graph.definedCount + 1) * (graph.inlineCount + 1) ≤ options.maxDepth →
        ∃ compiled, build graph request options = .ok compiled) ∧
    (options.dictionaryKeys ≠ .skip → graph.MeetsCycle options.dictionaryKeys request.root →
      ∃ identity, build graph request options = .error (.depthExceeded options.maxDepth identity)) := by
  obtain ⟨root, hget⟩ := TypeGraph.get?_of_contains hroot
  have hsetting : (rootSetting graph options root).graph.validate = .ok () := hvalid
  have hdepth : ∀ e, build graph request options = .error e →
      ∃ identity, e = .depthExceeded options.maxDepth identity := by
    intro e he
    obtain ⟨after, hrun⟩ := build_error hvalid hget he
    exact shape_error_depth hsetting hget hrun
  refine ⟨hdepth, fun hacyclic henough => ?_, fun hmode hcycle => ?_⟩
  · cases hb : build graph request options with
    | ok compiled => exact ⟨compiled, rfl⟩
    | error e =>
      obtain ⟨after, hrun⟩ := build_error hvalid hget hb
      exact absurd hrun (shape_succeeds hsetting hacyclic hget (levels_le root henough))
  · cases hb : build graph request options with
    | error e =>
      obtain ⟨identity, rfl⟩ := hdepth e hb
      exact ⟨identity, rfl⟩
    | ok compiled =>
      obtain ⟨found, outcome, table, hc⟩ := compilation_of_build hb
      cases hget.symm.trans hc.found
      exfalso
      cases outcome with
      | none => exact not_translates_none hmode root hc.translated
      | some level => exact not_translates_of_cycle hmode hget hcycle hc.translated

/-- In the list of tagged nodes, only types with a definition have something that stands inside them. -/
theorem taggedList_inlines {a b : ObjectId} (h : taggedList.Inlines .loose a b) :
    ∃ node, taggedList.get? a = some node ∧ node.kind.isDefined = true := by
  obtain ⟨⟨owner, howner, hb⟩, found, hfound, hinline⟩ := h
  have hm := TypeGraph.mem_objects howner
  simp only [taggedList, List.mem_cons, List.not_mem_nil, or_false] at hm
  rcases hm with rfl | rfl | rfl | rfl | rfl
  · cases hb
  · exact ⟨_, howner, rfl⟩
  · cases List.mem_singleton.1 hb
    cases hfound
    cases hinline
  · cases List.mem_singleton.1 hb
    cases hfound
    cases hinline
  · exact ⟨_, howner, rfl⟩

theorem taggedList_acyclic (id : ObjectId) : ¬ Relation.TransGen (taggedList.Inlines .loose) id id := by
  intro h
  obtain ⟨next, hfirst, -⟩ := Relation.TransGen.head'_iff.1 h
  obtain ⟨owner, -, -, node, hnode, hinline⟩ := Relation.TransGen.tail'_iff.1 h
  obtain ⟨node', hnode', hdef⟩ := taggedList_inlines hfirst
  cases hnode.symm.trans hnode'
  rw [hinline] at hdef
  cases hdef

/-- Twelve levels are enough for the list of tagged nodes, and no number of them for a value that may be null and
is nothing else. -/
theorem build_terminates_taggedList :
    (taggedList.validate = .ok () ∧ taggedList.Contains ⟨1⟩ ∧
      ∃ compiled, build taggedList { root := ⟨1⟩ } { maxDepth := 12 } = .ok compiled) ∧
    ∀ depth, ∃ identity, build ⟨[{ identity := "Loop", shape := .nullable ⟨0⟩ }]⟩ { root := ⟨0⟩ }
      { maxDepth := depth } = .error (.depthExceeded depth identity) := by
  have hvalid : taggedList.validate = .ok () := rfl
  have hroot : taggedList.Contains ⟨1⟩ := by decide
  refine ⟨⟨hvalid, hroot, ?_⟩, fun depth => ?_⟩
  · exact (build_terminates hvalid hroot).2.1 taggedList_acyclic (by decide)
  · have hedge : TypeGraph.Inlines ⟨[{ identity := "Loop", shape := .nullable ⟨0⟩ }]⟩ .loose ⟨0⟩ ⟨0⟩ :=
      ⟨⟨_, rfl, List.mem_singleton_self _⟩, _, rfl, rfl⟩
    have hmode : KeyMode.loose ≠ .skip := by decide
    exact (build_terminates rfl (by decide)).2.2 hmode ⟨⟨0⟩, .refl, .single hedge⟩

end GraphSchema
