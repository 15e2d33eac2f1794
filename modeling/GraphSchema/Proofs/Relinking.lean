import GraphSchema.Proofs.Linking

/-!
What becomes of a graph that is linked, when it is linked again and when it is validated.

- `TypeGraph.scan_link` : a second scan finds what the first one found, since linking changes neither identities nor
  declarations.
- `TypeGraph.complete_complete` : a list that has been completed is complete. What the first run dropped for its identity
  is offered again and dropped again.
- `link_idempotent` : so linking a linked graph changes nothing.
- `TypeGraph.checkOthers`, `TypeGraph.validateOthers` : the rules without the one on implementations.
- `TypeGraph.checkNode_link` : a linked node breaks the rules as the node before breaks the others.
- `link_validates` : a linked graph is refused exactly as these others refuse the graph before.
-/

namespace GraphSchema

namespace TypeGraph

variable {graph : TypeGraph} {found : List ObjectId} {id : ObjectId} {node : ObjectNode}

/-! ## A linked graph -/

@[simp] theorem complete_identity (graph : TypeGraph) (found : List ObjectId) (node : ObjectNode) :
    (graph.complete found node).identity = node.identity := by
  unfold complete
  cases node.shape <;> rfl

@[simp] theorem complete_kind (graph : TypeGraph) (found : List ObjectId) (node : ObjectNode) :
    (graph.complete found node).kind = node.kind := by
  unfold complete ObjectNode.kind
  cases hs : node.shape <;> simp [hs, ObjectShape.kind]

theorem complete_of_other (hs : ∀ listed, node.shape ≠ .abstract listed) : graph.complete found node = node := by
  unfold complete
  split
  · exact absurd ‹_› (hs _)
  · rfl

theorem entries_link (graph : TypeGraph) : graph.linkImplementations.entries =
    graph.entries.map fun entry => (entry.1, graph.complete (graph.scanImplementations.of entry.2.identity) entry.2) := by
  unfold entries linkImplementations
  simp [List.zipIdx_map, Function.comp_def, linkNode_eq_complete]

/-- What is asked of a node besides its shape has the same answer after linking. -/
theorem get?_link_congr {α : Type} {f : ObjectNode → α} (hf : ∀ found node, f (graph.complete found node) = f node)
    (id : ObjectId) : (graph.linkImplementations.get? id).map f = (graph.get? id).map f := by
  rw [get?_linkImplementations, Option.map_map]
  simp [Function.comp_def, hf]

theorem names_link (graph : TypeGraph) (ids : List ObjectId) : graph.linkImplementations.names ids = graph.names ids := by
  unfold names
  simp only [get?_link_congr graph.complete_identity]

theorem keepFirst_link (graph : TypeGraph) (seen : List String) (ids : List ObjectId) :
    graph.linkImplementations.keepFirst seen ids = graph.keepFirst seen ids := by
  induction ids generalizing seen with
  | nil => rfl
  | cons id rest ih =>
    rw [keepFirst, keepFirst, get?_linkImplementations]
    cases graph.get? id <;> simp [ih]

theorem complete_link (graph : TypeGraph) (found : List ObjectId) (node : ObjectNode) :
    graph.linkImplementations.complete found node = graph.complete found node := by
  unfold complete
  simp only [← keepFirst_eq_distinct, keepFirst_link]

/-! ## Linking again -/

theorem declared_link (graph : TypeGraph) (node : ObjectNode) :
    graph.linkImplementations.declared node = graph.declared node := by
  have htarget : ∀ id, (graph.linkImplementations.get? id).map (fun target => (target.kind, target.identity)) =
      (graph.get? id).map fun target => (target.kind, target.identity) := by
    intro id
    apply get?_link_congr
    simp
  have hfound : ∀ id, ((graph.linkImplementations.get? id).bind fun target =>
      if target.kind = .abstract then some target.identity else none) =
        (graph.get? id).bind fun target => if target.kind = .abstract then some target.identity else none := by
    intro id
    have h := congrArg (fun pair : Option (ObjectKind × String) =>
      pair.bind fun (kind, identity) => if kind = .abstract then some identity else none) (htarget id)
    simpa only [Option.bind_map, Function.comp_def] using h
  unfold declared
  cases node.shape with
  | custom properties implements => simp only [List.filterMap_filterMap, hfound]
  | _ => rfl

theorem declared_complete (graph : TypeGraph) (found : List ObjectId) (node : ObjectNode) :
    graph.declared (graph.complete found node) = graph.declared node := by
  unfold complete declared
  cases hs : node.shape <;> simp [hs]

/-- A second scan finds what the first one found. -/
theorem scan_link (graph : TypeGraph) : graph.linkImplementations.scanImplementations = graph.scanImplementations := by
  have hdeclarations : graph.linkImplementations.declarations = graph.declarations := by
    unfold declarations
    rw [entries_link, List.flatMap_map]
    simp only [declared_link, declared_complete, complete_identity]
  unfold scanImplementations
  rw [hdeclarations]

theorem keepFirst_eq_nil {seen : List String} {ids : List ObjectId} (hids : ∀ id ∈ ids, graph.Contains id)
    (hseen : ∀ name ∈ graph.names ids, name ∈ seen) : graph.keepFirst seen ids = [] := by
  induction ids with
  | nil => rfl
  | cons id rest ih =>
    obtain ⟨hid, hrest⟩ := List.forall_mem_cons.1 hids
    obtain ⟨node, hget⟩ := get?_of_contains hid
    rw [names_cons_some hget] at hseen
    obtain ⟨hnode, hothers⟩ := List.forall_mem_cons.1 hseen
    rw [keepFirst, hget]
    dsimp only
    rw [if_pos (List.contains_iff_mem.2 hnode), ih hrest hothers]

/-- What has been appended to a list without repetitions can be appended again: nothing comes of it. -/
theorem distinct_append_again (hfound : ∀ id ∈ found, graph.Contains id) (listed : List ObjectId) :
    graph.distinct (graph.distinct (listed ++ found) ++ found) = graph.distinct (listed ++ found) := by
  simp only [← keepFirst_eq_distinct]
  obtain ⟨hnodup, -⟩ := graph.nodup_names_keepFirst [] (listed ++ found)
  have hkept : graph.keepFirst [] (graph.keepFirst [] (listed ++ found)) = graph.keepFirst [] (listed ++ found) :=
    keepFirst_of_nodup hnodup fun _ _ => List.not_mem_nil
  have hnothing : graph.keepFirst (graph.names (graph.keepFirst [] (listed ++ found)) ++ []) found = [] := by
    apply keepFirst_eq_nil hfound
    intro name hname
    have hboth : name ∈ graph.names (listed ++ found) := by
      obtain ⟨id, hmem, hnode⟩ := mem_names.1 hname
      exact mem_names.2 ⟨id, List.mem_append_right _ hmem, hnode⟩
    rw [List.append_nil]
    exact (mem_names_keepFirst hboth).resolve_left List.not_mem_nil
  rw [keepFirst_append, hkept, hnothing, List.append_nil]

theorem complete_complete (hfound : ∀ id ∈ found, graph.Contains id) (node : ObjectNode) :
    graph.complete found (graph.complete found node) = graph.complete found node := by
  by_cases habstract : ∃ listed, node.shape = .abstract listed
  · obtain ⟨listed, hs⟩ := habstract
    have honce : graph.complete found node = { node with shape := .abstract (graph.distinct (listed ++ found)) } := by
      rw [complete, hs]
    rw [honce, complete]
    dsimp only
    rw [distinct_append_again hfound]
  · rw [not_exists] at habstract
    rw [complete_of_other habstract, complete_of_other habstract]

end TypeGraph

/-- **Linking once is enough.** A second scan finds the same implementations, and a second run adds none of them, loses
none and keeps their order, whether or not the graph is in order. -/
theorem link_idempotent (graph : TypeGraph) :
    graph.linkImplementations.scanImplementations = graph.scanImplementations ∧
      graph.linkImplementations.linkImplementations = graph.linkImplementations := by
  refine ⟨graph.scan_link, ?_⟩
  have hnode : ∀ node, graph.linkImplementations.linkNode graph.linkImplementations.scanImplementations
      (graph.linkNode graph.scanImplementations node) = graph.linkNode graph.scanImplementations node := by
    intro node
    rw [TypeGraph.linkNode_eq_complete, TypeGraph.complete_link, graph.scan_link, graph.linkNode_eq_complete,
      TypeGraph.complete_identity]
    exact TypeGraph.complete_complete (fun id => TypeGraph.contains_of_mem_scan) node
  calc graph.linkImplementations.linkImplementations
      = ⟨graph.linkImplementations.objects.map
          (graph.linkImplementations.linkNode graph.linkImplementations.scanImplementations)⟩ := rfl
    _ = ⟨graph.objects.map fun node =>
          graph.linkImplementations.linkNode graph.linkImplementations.scanImplementations
            (graph.linkNode graph.scanImplementations node)⟩ := by
        rw [TypeGraph.linkImplementations, List.map_map]
        rfl
    _ = graph.linkImplementations := by
        simp only [hnode]
        rfl

/-- An abstract type that lists one square and drops the other, a missing id and a declaration of something that is no
abstract type: all this is settled by one run. -/
example : (TypeGraph.linkImplementations (TypeGraph.linkImplementations ⟨[
    { identity := "Shape", shape := .abstract [⟨9⟩, ⟨2⟩, ⟨9⟩] },
    { identity := "Square", shape := .custom [] [⟨0⟩, ⟨3⟩] },
    { identity := "Square", shape := .custom [] [⟨0⟩] },
    { identity := "Circle", shape := .custom [] [⟨0⟩] }]⟩)).objects.map (·.shape.parts) =
      [[⟨9⟩, ⟨2⟩, ⟨9⟩, ⟨3⟩], [], [], []] := rfl

namespace TypeGraph

variable {graph : TypeGraph} {found : List ObjectId} {id : ObjectId} {node : ObjectNode} {e : GraphError}

/-! ## Validating a linked graph -/

/-- the rules for one node without the one on implementations -/
def checkOthers (graph : TypeGraph) (id : ObjectId) (node : ObjectNode) : Except GraphError Unit := do
  graph.checkChildren node
  checkIdentity id node
  checkProperties node

/-- these rules for all nodes -/
def validateOthers (graph : TypeGraph) : Except GraphError Unit :=
  graph.entries.forM fun (id, node) => graph.checkOthers id node

theorem checkNode_eq_checkOthers (graph : TypeGraph) (id : ObjectId) (node : ObjectNode) :
    graph.checkNode id node = (graph.checkOthers id node >>= fun _ => graph.checkImplementations node) := by
  unfold checkNode checkOthers
  simp only [bind_assoc]

theorem checkOthers_of_checkNode (h : graph.checkNode id node = .ok ()) : graph.checkOthers id node = .ok () := by
  rw [checkNode_eq_checkOthers, check_eq_ok_iff] at h
  exact h.1

theorem there_of_checkOthers (h : graph.checkOthers id node = .ok ()) : ∀ child ∈ node.children, graph.Contains child :=
  checkChildren_eq_ok_iff.1 (check_eq_ok_iff.1 h).1

theorem checkOthers_ne_duplicate (owner identity : String) :
    graph.checkOthers id node ≠ .error (.duplicateImplementation owner identity) := by
  intro h
  rw [checkOthers, check_eq_error_iff, check_eq_error_iff, checkChildren_eq_error_iff, checkIdentity_eq_error_iff,
    checkProperties_eq_error_iff] at h
  rcases h with ⟨_, _, _, -, -, -, he⟩ | ⟨-, ⟨-, -, he⟩ | ⟨-, _, _, _, -, -, he⟩⟩ <;> cases he

/-- A list keeps the ids that are missing, so the first of them is the same. -/
theorem find?_keepFirst (graph : TypeGraph) (seen : List String) (ids : List ObjectId) :
    (graph.keepFirst seen ids).find? (fun id => graph.size ≤ id.index) = ids.find? fun id => graph.size ≤ id.index := by
  induction ids generalizing seen with
  | nil => rfl
  | cons id rest ih =>
    rw [keepFirst]
    cases hget : graph.get? id with
    | none =>
      have hmissing : graph.size ≤ id.index := List.getElem?_eq_none_iff.1 hget
      simp [hmissing]
    | some node =>
      have hthere : ¬ graph.size ≤ id.index := Nat.not_le.2 (contains_of_get? hget)
      dsimp only
      split_ifs <;> simp [hthere, ih]

theorem checkChildren_complete (hfound : ∀ id ∈ found, graph.Contains id) (node : ObjectNode) :
    graph.checkChildren (graph.complete found node) = graph.checkChildren node := by
  by_cases habstract : ∃ listed, node.shape = .abstract listed
  · obtain ⟨listed, hs⟩ := habstract
    have hnone : found.find? (fun id => graph.size ≤ id.index) = none := by
      simpa [Contains] using hfound
    have hchildren : (graph.complete found node).children = graph.distinct (listed ++ found) := by
      rw [complete, hs]
      rfl
    have hbefore : node.children = listed := by
      rw [ObjectNode.children, hs]
      rfl
    unfold checkChildren
    rw [hchildren, hbefore, ← keepFirst_eq_distinct, find?_keepFirst, List.find?_append, hnone, Option.or_none,
      complete_identity]
  · rw [not_exists] at habstract
    rw [complete_of_other habstract]

theorem checkOthers_complete (hfound : ∀ id ∈ found, graph.Contains id) (id : ObjectId) (node : ObjectNode) :
    graph.checkOthers id (graph.complete found node) = graph.checkOthers id node := by
  have hidentity : checkIdentity id (graph.complete found node) = checkIdentity id node := by
    simp only [checkIdentity, complete_identity, complete_kind]
  have hproperties : checkProperties (graph.complete found node) = checkProperties node := by
    unfold complete checkProperties
    cases hs : node.shape <;> simp [hs]
  rw [checkOthers, checkOthers, checkChildren_complete hfound, hidentity, hproperties]

theorem checkOthers_link (graph : TypeGraph) (id : ObjectId) (node : ObjectNode) :
    graph.linkImplementations.checkOthers id node = graph.checkOthers id node := by
  have hsize : graph.linkImplementations.size = graph.size := List.length_map ..
  unfold checkOthers checkChildren
  rw [hsize]

/-- **One node.** A linked node breaks the rules of its graph as the node before breaks the others. -/
theorem checkNode_link (hfound : ∀ id ∈ found, graph.Contains id) (id : ObjectId) (node : ObjectNode) :
    graph.linkImplementations.checkNode id (graph.complete found node) = graph.checkOthers id node := by
  rw [checkNode_eq_checkOthers, checkOthers_link, checkOthers_complete hfound]
  cases hothers : graph.checkOthers id node with
  | error e => rfl
  | ok u =>
    have hlinked : graph.linkImplementations.checkOthers id (graph.complete found node) = .ok () := by
      rw [checkOthers_link, checkOthers_complete hfound, hothers]
    apply (checkImplementations_eq_ok_iff (there_of_checkOthers hlinked)).2
    intro listed hs
    rw [names_link]
    unfold complete at hs
    split at hs
    · cases hs
      rw [← keepFirst_eq_distinct]
      exact (graph.nodup_names_keepFirst [] _).1
    · rename_i hother
      exact absurd hs (hother listed)

end TypeGraph

/-- **Linking and validation.** A linked graph is refused exactly as the rules without the one on implementations refuse
the graph before: for the same reason, or not at all. So it is never refused for a repeated implementation, an error of
another kind is neither introduced nor hidden, and a graph that passes still passes. -/
theorem link_validates (graph : TypeGraph) :
    graph.linkImplementations.validate = graph.validateOthers ∧
      (∀ owner identity, graph.linkImplementations.validate ≠ .error (.duplicateImplementation owner identity)) ∧
      (∀ e, graph.validate = .error e → (∀ owner identity, e ≠ .duplicateImplementation owner identity) →
        graph.linkImplementations.validate = .error e) ∧
      (graph.validate = .ok () → graph.linkImplementations.validate = .ok ()) := by
  have hothers : graph.linkImplementations.validate = graph.validateOthers := by
    unfold TypeGraph.validate TypeGraph.validateOthers
    rw [TypeGraph.entries_link, List.forM_eq_forM, List.forM_map]
    refine congrArg _ (funext fun entry => ?_)
    exact TypeGraph.checkNode_link (fun id => TypeGraph.contains_of_mem_scan) entry.1 entry.2
  rw [hothers]
  refine ⟨rfl, ?_, ?_, ?_⟩
  · intro owner identity h
    rw [TypeGraph.validateOthers, TypeGraph.forM_entries_eq_error_iff] at h
    obtain ⟨id, node, -, -, herror⟩ := h
    exact TypeGraph.checkOthers_ne_duplicate owner identity herror
  · intro e h hother
    rw [TypeGraph.validate, TypeGraph.forM_entries_eq_error_iff] at h
    obtain ⟨id, node, hget, hearlier, herror⟩ := h
    rw [TypeGraph.validateOthers, TypeGraph.forM_entries_eq_error_iff]
    refine ⟨id, node, hget, ?_, ?_⟩
    · intro earlier other hlt hget
      exact TypeGraph.checkOthers_of_checkNode (hearlier earlier other hlt hget)
    · rw [TypeGraph.checkNode_eq_checkOthers, check_eq_error_iff] at herror
      rcases herror with herror | ⟨hok, herror⟩
      · exact herror
      · have hthere := TypeGraph.there_of_checkOthers hok
        obtain ⟨listed, name, -, -, rfl⟩ := (TypeGraph.checkImplementations_eq_error_iff hthere).1 herror
        exact absurd rfl (hother node.identity name)
  · intro h
    rw [TypeGraph.validate, TypeGraph.forM_entries_eq_ok_iff] at h
    rw [TypeGraph.validateOthers, TypeGraph.forM_entries_eq_ok_iff]
    intro id node hget
    exact TypeGraph.checkOthers_of_checkNode (h id node hget)

/-- The squares are listed twice no more, and what comes to light is the child that is missing. Shapes that pass still
pass, and a type without a name is refused as before. -/
theorem link_validates_squares :
    squares.linkImplementations.validate = .error (.danglingNode "Square" ⟨9⟩) ∧
      shapes.linkImplementations.validate = .ok () ∧
      (TypeGraph.linkImplementations ⟨[{ identity := " ", shape := .abstract [] }]⟩).validate =
        .error (.emptyIdentity ⟨0⟩ .abstract) := by
  obtain ⟨hothers, -, -, -⟩ := link_validates squares
  obtain ⟨-, -, -, hpasses⟩ := link_validates shapes
  obtain ⟨-, -, herror, -⟩ := link_validates ⟨[{ identity := " ", shape := .abstract [] }]⟩
  refine ⟨hothers.trans rfl, hpasses rfl, herror _ rfl ?_⟩
  intro owner identity h
  cases h

end GraphSchema
