import GraphSchema.Graph.Edits
import GraphSchema.Proofs.Relinking

/-!
What edits leave alone in a graph under construction.

- `Edit.Pushes`, `Edit.pushes` : all that a push can come to. Where it fails, the graph is as before.
- `ObjectNode.Kept` : how a node may change. An object type gets properties at its end, an abstract type may be linked.
- `Edit.next_keeps` : one edit keeps what is behind an id, and an object type gets what is pushed to it.
- `TypeGraph.edited_keeps` : so do any edits.
- `edits_keep_ids` : the ids that edits give out, and what these stand for from then on.
-/

namespace GraphSchema

namespace Edit

variable {graph : TypeGraph} {owner id : ObjectId} {property : Property} {node : ObjectNode}

/-! ## One edit -/

@[simp] theorem answer_add (node : ObjectNode) (graph : TypeGraph) :
    (add node).answer graph = .ok (some ⟨graph.size⟩) := rfl

@[simp] theorem next_add (node : ObjectNode) (graph : TypeGraph) :
    (add node).next graph = ⟨graph.objects ++ [node]⟩ := rfl

@[simp] theorem next_link (graph : TypeGraph) : link.next graph = graph.linkImplementations := rfl

/-- What a push comes to: there is no owner, or the owner is no object type, or it gets the property. -/
inductive Pushes (graph : TypeGraph) (owner : ObjectId) (property : Property) :
    Except GraphError (Option ObjectId) × TypeGraph → Prop
  | missing (hfound : graph.get? owner = none) :
      Pushes graph owner property (.error (.danglingNode "<graph>" owner), graph)
  | mismatch {node : ObjectNode} (hfound : graph.get? owner = some node) (hother : node.kind ≠ .custom) :
      Pushes graph owner property (.error (.kindMismatch node.identity .custom node.kind), graph)
  | pushed {node : ObjectNode} {properties : List Property} {implements : List ObjectId}
      (hfound : graph.get? owner = some node) (hshape : node.shape = .custom properties implements) :
      Pushes graph owner property (.ok none,
        ⟨graph.objects.set owner.index { node with shape := .custom (properties ++ [property]) implements }⟩)

/-- **Pushes.** Nothing else happens, and where a push fails nothing is written. -/
theorem pushes (graph : TypeGraph) (owner : ObjectId) (property : Property) :
    Pushes graph owner property ((push owner property).perform.run graph) := by
  simp only [perform, EditM.run_bind, EditM.run_get, EditM.run_liftExcept, TypeGraph.get]
  cases hfound : graph.get? owner with
  | none => exact .missing hfound
  | some node =>
    cases hshape : node.shape with
    | custom properties implements => simpa [hshape] using .pushed hfound hshape
    | _ =>
      have hother : node.kind ≠ .custom := by simp [ObjectNode.kind, hshape, ObjectShape.kind]
      simpa [hshape, ObjectNode.kind] using Pushes.mismatch hfound hother

/-- A push does to a graph what `TypeGraph.pushProperty` makes of it. -/
theorem pushProperty_eq (graph : TypeGraph) (owner : ObjectId) (property : Property) :
    graph.pushProperty owner property =
      ((push owner property).answer graph).map fun _ => (push owner property).next graph := by
  have hpushes := pushes graph owner property
  unfold answer next
  generalize (push owner property).perform.run graph = result at hpushes ⊢
  unfold TypeGraph.pushProperty TypeGraph.get
  cases hpushes with
  | missing hfound => rw [hfound]; rfl
  | @mismatch node hfound hother =>
    rw [hfound]
    cases hshape : node.shape with
    | custom properties implements => simp [ObjectNode.kind, hshape, ObjectShape.kind] at hother
    | _ => simp [bind, Except.bind, Except.map, ObjectNode.kind, hshape]
  | pushed hfound hshape =>
    rw [hfound]
    simp [bind, Except.bind, Except.map, pure, Except.pure, hshape]

/-- **Failing pushes.** A push succeeds exactly for an object type, and else leaves the graph as it was. -/
theorem push_fails_or (graph : TypeGraph) (owner : ObjectId) (property : Property) :
    (∃ node, graph.get? owner = some node ∧ node.kind = .custom) ∧ (push owner property).answer graph = .ok none ∨
      (∀ node, graph.get? owner = some node → node.kind ≠ .custom) ∧
        (∃ e, (push owner property).answer graph = .error e) ∧ (push owner property).next graph = graph := by
  have hpushes := pushes graph owner property
  unfold answer next
  generalize (push owner property).perform.run graph = result at hpushes ⊢
  cases hpushes with
  | missing hfound =>
    refine Or.inr ⟨fun node hget => ?_, ⟨_, rfl⟩, rfl⟩
    rw [hfound] at hget
    cases hget
  | mismatch hfound hother =>
    refine Or.inr ⟨fun node hget => ?_, ⟨_, rfl⟩, rfl⟩
    cases hfound.symm.trans hget
    exact hother
  | pushed hfound hshape =>
    refine Or.inl ⟨⟨_, hfound, ?_⟩, rfl⟩
    rw [ObjectNode.kind, hshape]
    rfl

end Edit

/-! ## What may become of a node -/

/-- How a node may change while these properties are pushed to it and graphs are linked or not. -/
structure ObjectNode.Kept (pushed : List Property) (linked : Prop) (before after : ObjectNode) : Prop where
  identity : after.identity = before.identity
  metadata : after.metadata = before.metadata
  kind : after.kind = before.kind
  /-- an object type has the properties behind its own -/
  properties : ∀ properties implements, before.shape = .custom properties implements →
    after.shape = .custom (properties ++ pushed) implements
  /-- nothing is pushed to another node, and it is the same, unless it is an abstract type that is linked -/
  others : before.kind ≠ .custom → pushed = [] ∧ (before.kind = .abstract ∧ linked ∨ after = before)

namespace ObjectNode.Kept

variable {front back : List Property} {linked later : Prop} {a b c : ObjectNode}

theorem refl (linked : Prop) (node : ObjectNode) : Kept [] linked node node where
  identity := rfl
  metadata := rfl
  kind := rfl
  properties _ _ h := by rw [h, List.append_nil]
  others _ := ⟨rfl, Or.inr rfl⟩

theorem trans (hab : Kept front linked a b) (hbc : Kept back later b c) : Kept (front ++ back) (linked ∨ later) a c where
  identity := hbc.identity.trans hab.identity
  metadata := hbc.metadata.trans hab.metadata
  kind := hbc.kind.trans hab.kind
  properties properties implements h := by
    rw [hbc.properties _ _ (hab.properties properties implements h), List.append_assoc]
  others h := by
    obtain ⟨hfront, hmid⟩ := hab.others h
    obtain ⟨hback, hlast⟩ := hbc.others (by rwa [hab.kind])
    refine ⟨by rw [hfront, hback, List.append_nil], ?_⟩
    rcases hmid with ⟨habstract, hlinked⟩ | rfl
    · exact Or.inl ⟨habstract, Or.inl hlinked⟩
    · exact hlast.imp_left fun ⟨habstract, hlater⟩ => ⟨habstract, Or.inr hlater⟩

theorem mono (h : Kept front linked a b) (hlinked : linked → later) : Kept front later a b :=
  { h with others := fun hkind => (h.others hkind).imp_right (Or.imp_left (And.imp_right hlinked)) }

/-- A graph that is linked keeps its nodes. -/
theorem complete (graph : TypeGraph) (found : List ObjectId) (node : ObjectNode) :
    Kept [] True node (graph.complete found node) where
  identity := graph.complete_identity found node
  metadata := by
    unfold TypeGraph.complete
    cases node.shape <;> rfl
  kind := graph.complete_kind found node
  properties properties implements h := by
    have hother : ∀ listed, node.shape ≠ .abstract listed := by simp [h]
    rw [TypeGraph.complete_of_other hother, h, List.append_nil]
  others _ := by
    refine ⟨rfl, ?_⟩
    cases hs : node.shape with
    | abstract listed => exact Or.inl ⟨by rw [ObjectNode.kind, hs]; rfl, trivial⟩
    | _ => exact Or.inr (TypeGraph.complete_of_other (by simp [hs]))

/-- An object type keeps what it is when a property is pushed to it. -/
theorem push {node : ObjectNode} {properties : List Property} {implements : List ObjectId} (linked : Prop)
    (hshape : node.shape = .custom properties implements) (property : Property) :
    Kept [property] linked node { node with shape := .custom (properties ++ [property]) implements } where
  identity := rfl
  metadata := rfl
  kind := by rw [ObjectNode.kind, ObjectNode.kind, hshape]; rfl
  properties ps is h := by
    rw [hshape] at h
    cases h
    rfl
  others h := absurd (by rw [ObjectNode.kind, hshape]; rfl) h

end ObjectNode.Kept

namespace Edit

variable {graph : TypeGraph} {id : ObjectId} {node : ObjectNode}

/-- the property that an edit has pushed to a node, if it has -/
def pushedTo (id : ObjectId) : Edit × Except GraphError (Option ObjectId) → Option Property
  | (push owner property, .ok _) => if owner = id then some property else none
  | _ => none

/-- **One edit.** What is behind an id stays behind it, and an object type gets what is pushed to it. -/
theorem next_keeps (edit : Edit) (hget : graph.get? id = some node) :
    ∃ found, (edit.next graph).get? id = some found ∧
      node.Kept (pushedTo id (edit, edit.answer graph)).toList (edit = link) found := by
  cases edit with
  | add new =>
    refine ⟨node, ?_, .refl _ node⟩
    have hid : id.index < graph.objects.length := TypeGraph.contains_of_get? hget
    rw [next_add, TypeGraph.get?, List.getElem?_append_left hid]
    exact hget
  | link =>
    refine ⟨_, by rw [next_link, TypeGraph.get?_linkImplementations, hget]; rfl, ?_⟩
    exact (ObjectNode.Kept.complete graph _ node).mono fun _ => rfl
  | push owner property =>
    have hpushes := pushes graph owner property
    unfold answer next
    generalize (push owner property).perform.run graph = result at hpushes ⊢
    cases hpushes with
    | missing hfound => exact ⟨node, hget, .refl _ node⟩
    | mismatch hfound hother => exact ⟨node, hget, .refl _ node⟩
    | @pushed target properties implements hfound hshape =>
      by_cases howner : owner = id
      · subst howner
        cases hget.symm.trans hfound
        refine ⟨{ node with shape := .custom (properties ++ [property]) implements }, ?_, ?_⟩
        · exact List.getElem?_set_self (TypeGraph.contains_of_get? hfound)
        · simpa [pushedTo] using ObjectNode.Kept.push _ hshape property
      · have hindex : owner.index ≠ id.index := fun h => howner (congrArg ObjectId.mk h)
        refine ⟨node, ?_, ?_⟩
        · exact (List.getElem?_set_ne hindex).trans hget
        · simpa [pushedTo, howner] using ObjectNode.Kept.refl _ node

theorem size_next (edit : Edit) (graph : TypeGraph) :
    (edit.next graph).size = graph.size + if edit.isAdd then 1 else 0 := by
  cases edit with
  | add node => exact List.length_append
  | link => exact List.length_map ..
  | push owner property =>
    have hpushes := pushes graph owner property
    unfold next
    generalize (push owner property).perform.run graph = result at hpushes ⊢
    cases hpushes with
    | missing => rfl
    | mismatch => rfl
    | pushed => exact List.length_set

/-- Nothing is pushed to a node that is not there yet. -/
theorem pushedTo_of_missing (edit : Edit) (h : graph.get? id = none) : pushedTo id (edit, edit.answer graph) = none := by
  cases edit with
  | add | link => rfl
  | push owner property =>
    rcases push_fails_or graph owner property with ⟨⟨node, hget, -⟩, hok⟩ | ⟨-, ⟨e, herror⟩, -⟩
    · have howner : owner ≠ id := by
        rintro rfl
        rw [h] at hget
        cases hget
      simp [pushedTo, hok, howner]
    · simp [pushedTo, herror]

end Edit

/-! ## Any edits -/

namespace TypeGraph

variable {graph : TypeGraph} {id : ObjectId} {node : ObjectNode}

theorem edited_append (graph : TypeGraph) (front back : List Edit) :
    graph.edited (front ++ back) = (graph.edited front).edited back :=
  List.foldl_append

theorem editLog_append (graph : TypeGraph) (front back : List Edit) :
    graph.editLog (front ++ back) = graph.editLog front ++ (graph.edited front).editLog back := by
  induction front generalizing graph with
  | nil => rfl
  | cons edit rest ih => exact congrArg (_ :: ·) (ih (edit.next graph))

theorem length_editLog (graph : TypeGraph) (edits : List Edit) : (graph.editLog edits).length = edits.length := by
  induction edits generalizing graph with
  | nil => rfl
  | cons edit rest ih => exact congrArg (· + 1) (ih (edit.next graph))

theorem size_edited (graph : TypeGraph) (edits : List Edit) :
    (graph.edited edits).size = graph.size + edits.countP Edit.isAdd := by
  induction edits generalizing graph with
  | nil => rfl
  | cons edit rest ih =>
    calc ((edit.next graph).edited rest).size
        = (edit.next graph).size + rest.countP Edit.isAdd := ih (edit.next graph)
      _ = graph.size + (if edit.isAdd then 1 else 0) + rest.countP Edit.isAdd := by rw [edit.size_next]
      _ = graph.size + (edit :: rest).countP Edit.isAdd := by
          rw [List.countP_cons]
          omega

/-- **Any edits.** What is behind an id stays behind it, and an object type has what was pushed to it, in order. -/
theorem edited_keeps (edits : List Edit) (hget : graph.get? id = some node) :
    ∃ found, (graph.edited edits).get? id = some found ∧
      node.Kept ((graph.editLog edits).filterMap (Edit.pushedTo id)) (Edit.link ∈ edits) found := by
  induction edits generalizing graph node with
  | nil => exact ⟨node, hget, .refl _ node⟩
  | cons edit rest ih =>
    obtain ⟨mid, hmid, hfirst⟩ := edit.next_keeps hget
    obtain ⟨found, hfound, hrest⟩ := ih hmid
    refine ⟨found, hfound, ?_⟩
    have hlog : (graph.editLog (edit :: rest)).filterMap (Edit.pushedTo id) =
        (Edit.pushedTo id (edit, edit.answer graph)).toList
          ++ ((edit.next graph).editLog rest).filterMap (Edit.pushedTo id) := by
      rw [editLog, List.filterMap_cons]
      cases Edit.pushedTo id (edit, edit.answer graph) <;> rfl
    rw [hlog]
    apply (hfirst.trans hrest).mono
    intro hlinked
    rw [List.mem_cons]
    exact hlinked.imp_left Eq.symm

/-- Nothing is pushed to a node before it is there. -/
theorem pushedTo_editLog_of_missing (edits : List Edit) (h : (graph.edited edits).size ≤ id.index) :
    (graph.editLog edits).filterMap (Edit.pushedTo id) = [] := by
  induction edits generalizing graph with
  | nil => rfl
  | cons edit rest ih =>
    have hmissing : graph.get? id = none := by
      apply List.getElem?_eq_none
      have hsize := graph.size_edited (edit :: rest)
      unfold size at hsize h
      omega
    rw [editLog, List.filterMap_cons, edit.pushedTo_of_missing hmissing]
    exact ih h

end TypeGraph

/-- **Ids are stable.** Take any edits of an empty graph, any of which may fail, and one of them that adds a node. It is
answered with the number of nodes that were added before. Behind this id there is a node from then on, with the identity,
the metadata and the kind of the one that was added. If it is an object type, it has its own properties and behind them
those of the pushes to it that succeeded, in order; any other node is the same, unless it is an abstract type and the graph
is linked. There are as many nodes as were added. A push does what `TypeGraph.pushProperty` says. It succeeds exactly for
an object type, and where it fails the whole graph is as it was. -/
theorem edits_keep_ids (front back : List Edit) (node : ObjectNode) :
    let edits := front ++ .add node :: back
    let id : ObjectId := ⟨front.countP Edit.isAdd⟩
    (TypeGraph.editLog {} edits)[front.length]? = some (.add node, .ok (some id)) ∧
    (∃ found, (TypeGraph.edited {} edits).get? id = some found ∧
      node.Kept ((TypeGraph.editLog {} edits).filterMap (Edit.pushedTo id)) (.link ∈ back) found) ∧
    (TypeGraph.edited {} edits).size = edits.countP Edit.isAdd ∧
    ∀ (graph : TypeGraph) (owner : ObjectId) (property : Property),
      graph.pushProperty owner property =
        ((Edit.push owner property).answer graph).map (fun _ => (Edit.push owner property).next graph) ∧
      ((∃ target, graph.get? owner = some target ∧ target.kind = .custom) ∧
          (Edit.push owner property).answer graph = .ok none ∨
        (∀ target, graph.get? owner = some target → target.kind ≠ .custom) ∧
          (∃ e, (Edit.push owner property).answer graph = .error e) ∧ (Edit.push owner property).next graph = graph) := by
  intro edits id
  have hsize : ∀ edits, (TypeGraph.edited {} edits).size = edits.countP Edit.isAdd := by
    intro edits
    rw [TypeGraph.size_edited]
    exact Nat.zero_add _
  have hlog : TypeGraph.editLog {} edits = TypeGraph.editLog {} front ++ (.add node, .ok (some id)) ::
      ((Edit.add node).next (TypeGraph.edited {} front)).editLog back := by
    rw [TypeGraph.editLog_append, TypeGraph.editLog, Edit.answer_add, hsize]
  refine ⟨?_, ?_, hsize edits, fun graph owner property => ⟨?_, ?_⟩⟩
  · rw [hlog, List.getElem?_append_right (Nat.le_of_eq (TypeGraph.length_editLog _ _)), TypeGraph.length_editLog,
      Nat.sub_self]
    rfl
  · have hadded : ((Edit.add node).next (TypeGraph.edited {} front)).get? id = some node := by
      have hid : id.index = (TypeGraph.edited {} front).objects.length := (hsize front).symm
      rw [Edit.next_add, TypeGraph.get?, hid]
      exact List.getElem?_concat_length
    have hbefore : (TypeGraph.editLog {} front).filterMap (Edit.pushedTo id) = [] :=
      TypeGraph.pushedTo_editLog_of_missing front (Nat.le_of_eq (hsize front))
    obtain ⟨found, hfound, hkept⟩ := TypeGraph.edited_keeps back hadded
    refine ⟨found, by rw [TypeGraph.edited_append]; exact hfound, ?_⟩
    rw [hlog, List.filterMap_append, hbefore]
    exact hkept
  · exact Edit.pushProperty_eq graph owner property
  · exact Edit.push_fails_or graph owner property

/-- an object type with one property, which is an implementation of something that is added later -/
def growingNode : ObjectNode :=
  { identity := "Node", shape := .custom [Property.raw "first" "true"] [⟨2⟩] }

/-- edits that close a cycle through the object type, add what it implements, and push once to something else -/
def growingEdits : List Edit := [
  .add { identity := "Node?", shape := .nullable ⟨0⟩ },
  .push ⟨0⟩ (Property.custom "next" ⟨1⟩),
  .push ⟨1⟩ (Property.custom "lost" ⟨0⟩),
  .add { identity := "Linked", shape := .abstract [] },
  .link,
  .push ⟨0⟩ (Property.raw "last" "true")]

/-- A push that comes too early is lost, and so is one to a value that may be null, which leaves the graph as it was. The
others stand in their order. -/
theorem edits_keep_ids_growing :
    let edits := .push ⟨0⟩ (Property.raw "early" "true") :: .add growingNode :: growingEdits
    let graph : TypeGraph := ⟨[growingNode, { identity := "Node?", shape := .nullable ⟨0⟩ }]⟩
    (TypeGraph.editLog {} edits)[1]? = some (.add growingNode, .ok (some ⟨0⟩)) ∧
      (∃ found, (TypeGraph.edited {} edits).get? ⟨0⟩ = some found ∧ found.identity = "Node" ∧ found.shape = .custom
        [Property.raw "first" "true", Property.custom "next" ⟨1⟩, Property.raw "last" "true"] [⟨2⟩]) ∧
      (Edit.push ⟨1⟩ (Property.custom "lost" ⟨0⟩)).next graph = graph := by
  intro edits graph
  obtain ⟨hadded, ⟨found, hfound, hkept⟩, -, hpushes⟩ :=
    edits_keep_ids [.push ⟨0⟩ (Property.raw "early" "true")] growingEdits growingNode
  refine ⟨hadded, ⟨found, hfound, hkept.identity, hkept.properties _ _ rfl⟩, ?_⟩
  rcases (hpushes graph ⟨1⟩ (Property.custom "lost" ⟨0⟩)).2 with ⟨⟨target, hget, hkind⟩, -⟩ | ⟨-, -, hsame⟩
  · cases hget
    cases hkind
  · exact hsame

end GraphSchema
