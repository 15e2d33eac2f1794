import Mathlib.Data.List.Nodup
import Mathlib.Tactic.Common
import GraphSchema.Graph.Validation

/-!
What the validation of a graph finds, and in which order.

- `TypeGraph.InOrder` : what a node has to satisfy.
- `TypeGraph.Refused` : with which error a node is refused that does not. A child that is missing comes before a blank
  name, and that before a repetition.
- `TypeGraph.checkNode_eq_ok_iff`, `TypeGraph.checkNode_eq_error_iff` : the rules for one node come to this.
- `validation_reports_first` : a graph passes if all its nodes are in order, and is refused for the first one that is
  not. No identity of an implementation is looked up outside the graph.
-/

namespace GraphSchema

/-! ## Checks in a row -/

section

variable {ε α : Type} {e : ε} {first rest : Except ε Unit} {check : α → Except ε Unit} {items : List α}

theorem check_eq_ok_iff : (first >>= fun _ => rest) = .ok () ↔ first = .ok () ∧ rest = .ok () := by
  cases first <;> simp [bind, Except.bind]

theorem check_eq_error_iff :
    (first >>= fun _ => rest) = .error e ↔ first = .error e ∨ first = .ok () ∧ rest = .error e := by
  cases first <;> simp [bind, Except.bind]

theorem forM_eq_ok_iff : items.forM check = .ok () ↔ ∀ item ∈ items, check item = .ok () := by
  induction items with
  | nil => simp [List.forM, pure, Except.pure]
  | cons item rest ih => rw [List.forM, check_eq_ok_iff, ih, List.forall_mem_cons]

/-- Checks of a list fail with the first item that fails. -/
theorem forM_eq_error_iff : items.forM check = .error e ↔ ∃ front item back, items = front ++ item :: back ∧
    (∀ earlier ∈ front, check earlier = .ok ()) ∧ check item = .error e := by
  induction items with
  | nil => simp [List.forM, pure, Except.pure]
  | cons item rest ih =>
    rw [List.forM, check_eq_error_iff, ih]
    constructor
    · rintro (hitem | ⟨hitem, front, last, back, rfl, hfront, hlast⟩)
      · exact ⟨[], item, rest, rfl, by simp, hitem⟩
      · exact ⟨item :: front, last, back, rfl, List.forall_mem_cons.2 ⟨hitem, hfront⟩, hlast⟩
    · rintro ⟨front, last, back, hsplit, hfront, hlast⟩
      cases front with
      | nil =>
        obtain ⟨rfl, -⟩ := List.cons.inj hsplit
        exact Or.inl hlast
      | cons head front =>
        obtain ⟨rfl, rfl⟩ := List.cons.inj hsplit
        obtain ⟨hhead, hothers⟩ := List.forall_mem_cons.1 hfront
        exact Or.inr ⟨hhead, front, last, back, rfl, hothers, hlast⟩

end

/-! ## Repetitions -/

/-- whether a text is the first one in a list that repeats one before it -/
def FirstRepeat (texts : List String) (text : String) : Prop :=
  ∃ front back, texts = front ++ text :: back ∧ front.Nodup ∧ text ∈ front

theorem firstRepeated_eq_none_iff {seen texts : List String} :
    firstRepeated seen texts = none ↔ texts.Nodup ∧ ∀ text ∈ texts, text ∉ seen := by
  induction texts generalizing seen with
  | nil => simp [firstRepeated]
  | cons head rest ih =>
    rw [firstRepeated, List.nodup_cons, List.forall_mem_cons]
    by_cases hseen : head ∈ seen
    · simp [hseen]
    · rw [if_neg (mt List.contains_iff_mem.1 hseen), ih]
      simp only [List.mem_cons, not_or]
      constructor
      · rintro ⟨hnodup, hnew⟩
        exact ⟨⟨fun hmem => (hnew head hmem).1 rfl, hnodup⟩, hseen, fun text hmem => (hnew text hmem).2⟩
      · rintro ⟨⟨hhead, hnodup⟩, -, hnew⟩
        exact ⟨hnodup, fun text hmem => ⟨fun heq => hhead (heq ▸ hmem), hnew text hmem⟩⟩

theorem firstRepeated_eq_some_iff {seen texts : List String} {text : String} :
    firstRepeated seen texts = some text ↔ ∃ front back, texts = front ++ text :: back ∧ front.Nodup ∧
      (∀ earlier ∈ front, earlier ∉ seen) ∧ (text ∈ seen ∨ text ∈ front) := by
  induction texts generalizing seen with
  | nil => simp [firstRepeated]
  | cons head rest ih =>
    rw [firstRepeated]
    by_cases hseen : head ∈ seen
    · rw [if_pos (List.contains_iff_mem.2 hseen), Option.some.injEq]
      constructor
      · rintro rfl
        exact ⟨[], rest, rfl, List.nodup_nil, by simp, Or.inl hseen⟩
      · rintro ⟨front, back, hsplit, -, hnew, -⟩
        cases front with
        | nil => exact (List.cons.inj hsplit).1
        | cons first front =>
          obtain ⟨rfl, -⟩ := List.cons.inj hsplit
          exact absurd hseen (hnew head List.mem_cons_self)
    · rw [if_neg (mt List.contains_iff_mem.1 hseen), ih]
      constructor
      · rintro ⟨front, back, rfl, hnodup, hnew, htext⟩
        refine ⟨head :: front, back, rfl, ?_, ?_, ?_⟩
        · exact List.nodup_cons.2 ⟨fun hmem => hnew head hmem List.mem_cons_self, hnodup⟩
        · exact List.forall_mem_cons.2 ⟨hseen, fun earlier hmem => mt (List.mem_cons_of_mem head) (hnew earlier hmem)⟩
        · simpa [or_comm, or_assoc, or_left_comm] using htext
      · rintro ⟨front, back, hsplit, hnodup, hnew, htext⟩
        cases front with
        | nil =>
          obtain ⟨rfl, -⟩ := List.cons.inj hsplit
          exact absurd (htext.resolve_right List.not_mem_nil) hseen
        | cons first front =>
          obtain ⟨rfl, rfl⟩ := List.cons.inj hsplit
          obtain ⟨hhead, hfront⟩ := List.nodup_cons.1 hnodup
          refine ⟨front, back, rfl, hfront, fun earlier hmem => ?_, ?_⟩
          · simp only [List.mem_cons, not_or]
            exact ⟨fun heq => hhead (heq ▸ hmem), hnew earlier (List.mem_cons_of_mem head hmem)⟩
          · simpa [or_comm, or_assoc, or_left_comm] using htext

/-- the outcome of a rule against repetitions -/
def refuseRepeat (complain : String → GraphError) (texts : List String) : Except GraphError Unit :=
  match firstRepeated [] texts with
  | some text => .error (complain text)
  | none => .ok ()

theorem refuseRepeat_eq_ok_iff {complain : String → GraphError} {texts : List String} :
    refuseRepeat complain texts = .ok () ↔ texts.Nodup := by
  have hnone : firstRepeated [] texts = none ↔ texts.Nodup := by simp [firstRepeated_eq_none_iff]
  unfold refuseRepeat
  rw [← hnone]
  cases firstRepeated [] texts <;> simp

theorem refuseRepeat_eq_error_iff {complain : String → GraphError} {texts : List String} {e : GraphError} :
    refuseRepeat complain texts = .error e ↔ ∃ text, FirstRepeat texts text ∧ e = complain text := by
  have hsome : ∀ text, firstRepeated [] texts = some text ↔ FirstRepeat texts text := by
    simp [firstRepeated_eq_some_iff, FirstRepeat]
  unfold refuseRepeat
  simp only [← hsome]
  cases firstRepeated [] texts <;> simp [eq_comm]

/-! ## One node -/

/-- whether an id stands in a shape, in one of the places that its kind has for ids -/
inductive ObjectShape.RefersTo : ObjectShape → ObjectId → Prop
  | nullable (element : ObjectId) : RefersTo (.nullable element) element
  | argument {base : String} {arguments : List ObjectId} {id : ObjectId} (hmem : id ∈ arguments) :
      RefersTo (.generic base arguments) id
  | key (base : String) (key value : ObjectId) : RefersTo (.map base key value) key
  | value (base : String) (key value : ObjectId) : RefersTo (.map base key value) value
  | array (base : String) (element : ObjectId) : RefersTo (.array base element) element
  | implementation {listed : List ObjectId} {id : ObjectId} (hmem : id ∈ listed) : RefersTo (.abstract listed) id
  | member {properties : List Property} {implements : List ObjectId} {p : Property} {id : ObjectId}
      {default : Option String} (hmem : p ∈ properties) (hshape : p.shape = .custom id default) :
      RefersTo (.custom properties implements) id
  | implements {properties : List Property} {implements : List ObjectId} {id : ObjectId} (hmem : id ∈ implements) :
      RefersTo (.custom properties implements) id
  | element {elements : List ObjectId} {id : ObjectId} (hmem : id ∈ elements) : RefersTo (.tuple elements) id

/-- whether the identity of a node has a character that is not blank -/
def ObjectNode.Named (node : ObjectNode) : Prop := ∃ c ∈ node.identity.toList, Text.isBlank c = false

theorem Property.member?_eq_some_iff {p : Property} {id : ObjectId} :
    p.member? = some id ↔ ∃ default, p.shape = .custom id default := by
  unfold member?
  cases p.shape <;> simp

/-- The children of a node are the ids in its shape. -/
theorem ObjectNode.mem_children_iff {node : ObjectNode} {id : ObjectId} :
    id ∈ node.children ↔ node.shape.RefersTo id := by
  unfold children ObjectShape.children
  constructor
  · intro h
    cases hs : node.shape with
    | system primitive | override schema => simp [hs, ObjectShape.parts] at h
    | nullable element =>
      simp only [hs, ObjectShape.parts, List.mem_singleton] at h
      exact h ▸ .nullable element
    | generic base arguments =>
      simp only [hs, ObjectShape.parts] at h
      exact .argument h
    | map base key value =>
      simp only [hs, ObjectShape.parts, List.mem_cons, List.not_mem_nil, or_false] at h
      rcases h with rfl | rfl
      · exact .key base id value
      · exact .value base key id
    | array base element =>
      simp only [hs, ObjectShape.parts, List.mem_singleton] at h
      exact h ▸ .array base element
    | abstract listed =>
      simp only [hs, ObjectShape.parts] at h
      exact .implementation h
    | custom properties implements =>
      simp only [hs, ObjectShape.parts, List.mem_append, List.mem_filterMap] at h
      rcases h with ⟨p, hp, hmember⟩ | h
      · obtain ⟨default, hshape⟩ := Property.member?_eq_some_iff.1 hmember
        exact .member hp hshape
      · exact .implements h
    | tuple elements =>
      simp only [hs, ObjectShape.parts] at h
      exact .element h
  · intro h
    cases hs : node.shape with
    | custom properties implements =>
      rw [hs] at h
      cases h with
      | member hp hshape =>
        exact List.mem_append_left _ (List.mem_filterMap.2 ⟨_, hp, Property.member?_eq_some_iff.2 ⟨_, hshape⟩⟩)
      | implements hmem => exact List.mem_append_right _ hmem
    | _ =>
      rw [hs] at h
      cases h <;> simp_all [ObjectShape.parts]

namespace TypeGraph

variable {graph : TypeGraph} {id : ObjectId} {node : ObjectNode} {e : GraphError}

theorem get?_of_contains (h : graph.Contains id) : ∃ node, graph.get? id = some node :=
  ⟨_, List.getElem?_eq_getElem h⟩

theorem contains_of_get? (h : graph.get? id = some node) : graph.Contains id :=
  (List.getElem?_eq_some_iff.1 h).1

/-- the identities of those ids that are in the graph -/
def names (graph : TypeGraph) (ids : List ObjectId) : List String :=
  ids.filterMap fun id => (graph.get? id).map (·.identity)

theorem mem_names {ids : List ObjectId} {name : String} :
    name ∈ graph.names ids ↔ ∃ id ∈ ids, ∃ node, graph.get? id = some node ∧ node.identity = name := by
  simp [names]

theorem names_cons_none (h : graph.get? id = none) (rest : List ObjectId) :
    graph.names (id :: rest) = graph.names rest := by
  simp [names, h]

theorem names_cons_some (h : graph.get? id = some node) (rest : List ObjectId) :
    graph.names (id :: rest) = node.identity :: graph.names rest := by
  simp [names, h]

/-- Where all ids are in the graph, their identities are the names. -/
theorem identities?_of_contains {ids : List ObjectId} (h : ∀ id ∈ ids, graph.Contains id) :
    graph.identities? ids = some (graph.names ids) := by
  unfold identities?
  induction ids with
  | nil => rfl
  | cons id rest ih =>
    obtain ⟨hid, hrest⟩ := List.forall_mem_cons.1 h
    obtain ⟨node, hget⟩ := get?_of_contains hid
    rw [List.mapM_cons, ih hrest, hget, names_cons_some hget]
    rfl

/-- What a node has to satisfy: the ids in its shape are in the graph, a type that is referred to has a name, and no two
properties and no two implementations have one name. -/
structure InOrder (graph : TypeGraph) (node : ObjectNode) : Prop where
  children : ∀ id, node.shape.RefersTo id → graph.Contains id
  named : node.kind = .custom ∨ node.kind = .abstract → node.Named
  properties : ∀ properties implements, node.shape = .custom properties implements → (properties.map (·.name)).Nodup
  implementations : ∀ listed, node.shape = .abstract listed → (graph.names listed).Nodup

/-- The error with which a node is refused. What is said later of a node presumes that nothing was wrong before. -/
inductive Refused (graph : TypeGraph) (id : ObjectId) (node : ObjectNode) : GraphError → Prop
  | dangling {front back : List ObjectId} {child : ObjectId} (hsplit : node.children = front ++ child :: back)
      (hthere : ∀ earlier ∈ front, graph.Contains earlier) (hmissing : ¬ graph.Contains child) :
      Refused graph id node (.danglingNode node.identity child)
  | nameless (hthere : ∀ child ∈ node.children, graph.Contains child)
      (hdefined : node.kind = .custom ∨ node.kind = .abstract) (hblank : ¬ node.Named) :
      Refused graph id node (.emptyIdentity id node.kind)
  | property {properties : List Property} {implements : List ObjectId} {name : String}
      (hthere : ∀ child ∈ node.children, graph.Contains child) (hnamed : node.Named)
      (hshape : node.shape = .custom properties implements) (hrepeated : FirstRepeat (properties.map (·.name)) name) :
      Refused graph id node (.duplicateProperty node.identity name)
  | implementation {listed : List ObjectId} {name : String} (hthere : ∀ child ∈ node.children, graph.Contains child)
      (hnamed : node.Named) (hshape : node.shape = .abstract listed)
        (hrepeated : FirstRepeat (graph.names listed) name) :
      Refused graph id node (.duplicateImplementation node.identity name)

theorem checkChildren_eq_ok_iff :
    graph.checkChildren node = .ok () ↔ ∀ child ∈ node.children, graph.Contains child := by
  unfold checkChildren
  cases hfind : node.children.find? fun child => graph.size ≤ child.index with
  | none => simpa [Contains] using hfind
  | some child =>
    have hmem := List.mem_of_find?_eq_some hfind
    have hmissing : graph.size ≤ child.index := by simpa using List.find?_some hfind
    simp only [reduceCtorEq, false_iff, not_forall]
    exact ⟨child, hmem, Nat.not_lt.2 hmissing⟩

theorem checkChildren_eq_error_iff : graph.checkChildren node = .error e ↔ ∃ front child back,
    node.children = front ++ child :: back ∧ (∀ earlier ∈ front, graph.Contains earlier) ∧ ¬ graph.Contains child ∧
      e = .danglingNode node.identity child := by
  have hfind : ∀ child, (node.children.find? fun child => graph.size ≤ child.index) = some child ↔ ∃ front back,
      node.children = front ++ child :: back ∧ (∀ earlier ∈ front, graph.Contains earlier) ∧
        ¬ graph.Contains child := by
    intro child
    rw [List.find?_eq_some_iff_append]
    simp only [Contains, decide_eq_true_eq, Bool.not_eq_eq_eq_not, Bool.not_true, decide_eq_false_iff_not, Nat.not_le,
      Nat.not_lt]
    constructor
    · rintro ⟨hmissing, front, back, hsplit, hfront⟩
      exact ⟨front, back, hsplit, hfront, hmissing⟩
    · rintro ⟨front, back, hsplit, hfront, hmissing⟩
      exact ⟨hmissing, front, back, hsplit, hfront⟩
  unfold checkChildren
  constructor
  · intro h
    split at h
    · rename_i child hchild
      cases h
      obtain ⟨front, back, hsplit, hfront, hmissing⟩ := (hfind child).1 hchild
      exact ⟨front, child, back, hsplit, hfront, hmissing, rfl⟩
    · cases h
  · rintro ⟨front, child, back, hsplit, hfront, hmissing, rfl⟩
    rw [(hfind child).2 ⟨front, back, hsplit, hfront, hmissing⟩]

theorem isDefined_iff {kind : ObjectKind} : kind.isDefined = true ↔ kind = .custom ∨ kind = .abstract := by
  cases kind <;> simp [ObjectKind.isDefined]

theorem allBlank_eq_false_iff : Text.allBlank node.identity = false ↔ node.Named := by
  simp [Text.allBlank, ObjectNode.Named]

theorem checkIdentity_eq_ok_iff :
    checkIdentity id node = .ok () ↔ (node.kind = .custom ∨ node.kind = .abstract → node.Named) := by
  unfold checkIdentity
  rw [← isDefined_iff, ← allBlank_eq_false_iff]
  cases node.kind.isDefined <;> cases Text.allBlank node.identity <;> simp

theorem checkIdentity_eq_error_iff : checkIdentity id node = .error e ↔
    (node.kind = .custom ∨ node.kind = .abstract) ∧ ¬ node.Named ∧ e = .emptyIdentity id node.kind := by
  unfold checkIdentity
  rw [← isDefined_iff, ← allBlank_eq_false_iff]
  cases node.kind.isDefined <;> cases Text.allBlank node.identity <;> simp [eq_comm]

theorem checkProperties_eq_ok_iff : checkProperties node = .ok () ↔
    ∀ properties implements, node.shape = .custom properties implements → (properties.map (·.name)).Nodup := by
  unfold checkProperties
  cases hs : node.shape with
  | custom properties implements =>
    apply refuseRepeat_eq_ok_iff.trans
    simp
  | _ => simp

theorem checkProperties_eq_error_iff : checkProperties node = .error e ↔ ∃ properties implements name,
    node.shape = .custom properties implements ∧ FirstRepeat (properties.map (·.name)) name ∧
      e = .duplicateProperty node.identity name := by
  unfold checkProperties
  cases hs : node.shape with
  | custom properties implements =>
    apply refuseRepeat_eq_error_iff.trans
    simp
  | _ => simp

/-- What the rule on implementations finds where all of them are in the graph. -/
theorem checkImplementations_of_there (hthere : ∀ child ∈ node.children, graph.Contains child)
    {listed : List ObjectId} (hs : node.shape = .abstract listed) :
    graph.checkImplementations node = refuseRepeat (.duplicateImplementation node.identity) (graph.names listed) := by
  have hlisted : ∀ child ∈ listed, graph.Contains child := by
    intro child hchild
    exact hthere child (ObjectNode.mem_children_iff.2 (hs ▸ .implementation hchild))
  unfold checkImplementations
  rw [hs]
  dsimp only
  rw [identities?_of_contains hlisted]
  rfl

theorem checkImplementations_of_other (hs : ∀ listed, node.shape ≠ .abstract listed) :
    graph.checkImplementations node = .ok () := by
  unfold checkImplementations
  split
  · exact absurd ‹_› (hs _)
  · rfl

theorem checkImplementations_eq_ok_iff (hthere : ∀ child ∈ node.children, graph.Contains child) :
    graph.checkImplementations node = .ok () ↔
      ∀ listed, node.shape = .abstract listed → (graph.names listed).Nodup := by
  by_cases habstract : ∃ listed, node.shape = .abstract listed
  · obtain ⟨listed, hs⟩ := habstract
    rw [checkImplementations_of_there hthere hs, refuseRepeat_eq_ok_iff]
    simp [hs]
  · simp only [not_exists] at habstract
    rw [checkImplementations_of_other habstract]
    simp [habstract]

theorem checkImplementations_eq_error_iff (hthere : ∀ child ∈ node.children, graph.Contains child) :
    graph.checkImplementations node = .error e ↔ ∃ listed name, node.shape = .abstract listed ∧
      FirstRepeat (graph.names listed) name ∧ e = .duplicateImplementation node.identity name := by
  by_cases habstract : ∃ listed, node.shape = .abstract listed
  · obtain ⟨listed, hs⟩ := habstract
    rw [checkImplementations_of_there hthere hs, refuseRepeat_eq_error_iff]
    simp [hs]
  · simp only [not_exists] at habstract
    rw [checkImplementations_of_other habstract]
    simp [habstract]

/-- **One node.** The rules find nothing exactly if the node is in order. -/
theorem checkNode_eq_ok_iff : graph.checkNode id node = .ok () ↔ graph.InOrder node := by
  unfold checkNode
  rw [check_eq_ok_iff, check_eq_ok_iff, check_eq_ok_iff, checkChildren_eq_ok_iff, checkIdentity_eq_ok_iff,
    checkProperties_eq_ok_iff]
  constructor
  · rintro ⟨hchildren, hnamed, hproperties, himplementations⟩
    exact ⟨fun child hchild => hchildren child (ObjectNode.mem_children_iff.2 hchild), hnamed, hproperties,
      (checkImplementations_eq_ok_iff hchildren).1 himplementations⟩
  · rintro ⟨hchildren, hnamed, hproperties, himplementations⟩
    have hthere : ∀ child ∈ node.children, graph.Contains child :=
      fun child hchild => hchildren child (ObjectNode.mem_children_iff.1 hchild)
    exact ⟨hthere, hnamed, hproperties, (checkImplementations_eq_ok_iff hthere).2 himplementations⟩

/-- **One node.** What they find is the error that the node is refused with. -/
theorem checkNode_eq_error_iff : graph.checkNode id node = .error e ↔ graph.Refused id node e := by
  unfold checkNode
  rw [check_eq_error_iff, check_eq_error_iff, check_eq_error_iff, checkChildren_eq_ok_iff, checkIdentity_eq_ok_iff,
    checkProperties_eq_ok_iff, checkChildren_eq_error_iff, checkIdentity_eq_error_iff, checkProperties_eq_error_iff]
  constructor
  · rintro (⟨front, child, back, hsplit, hfront, hmissing, rfl⟩ | ⟨hthere, ⟨hdefined, hblank, rfl⟩ |
      ⟨hnamed, ⟨properties, implements, name, hs, hrepeated, rfl⟩ | ⟨-, h⟩⟩⟩)
    · exact .dangling hsplit hfront hmissing
    · exact .nameless hthere hdefined hblank
    · exact .property hthere (hnamed (Or.inl (by rw [ObjectNode.kind, hs]; rfl))) hs hrepeated
    · obtain ⟨listed, name, hs, hrepeated, rfl⟩ := (checkImplementations_eq_error_iff hthere).1 h
      exact .implementation hthere (hnamed (Or.inr (by rw [ObjectNode.kind, hs]; rfl))) hs hrepeated
  · intro h
    cases h with
    | dangling hsplit hfront hmissing => exact Or.inl ⟨_, _, _, hsplit, hfront, hmissing, rfl⟩
    | nameless hthere hdefined hblank => exact Or.inr ⟨hthere, Or.inl ⟨hdefined, hblank, rfl⟩⟩
    | property hthere hnamed hs hrepeated =>
      exact Or.inr ⟨hthere, Or.inr ⟨fun _ => hnamed, Or.inl ⟨_, _, _, hs, hrepeated, rfl⟩⟩⟩
    | implementation hthere hnamed hs hrepeated =>
      have herror := (checkImplementations_eq_error_iff hthere).2 ⟨_, _, hs, hrepeated, rfl⟩
      refine Or.inr ⟨hthere, Or.inr ⟨fun _ => hnamed, Or.inr ⟨?_, herror⟩⟩⟩
      intro properties implements hcustom
      cases hs.symm.trans hcustom

/-! ## All nodes -/

theorem mem_entries_iff : (id, node) ∈ graph.entries ↔ graph.get? id = some node := by
  unfold entries
  constructor
  · intro h
    obtain ⟨⟨n, i⟩, hmem, heq⟩ := List.mem_map.1 h
    cases heq
    exact List.mem_zipIdx_iff_getElem?.1 hmem
  · intro h
    exact List.mem_map.2 ⟨(node, id.index), List.mem_zipIdx_iff_getElem?.2 h, rfl⟩

theorem entries_ascending (graph : TypeGraph) : graph.entries.Pairwise fun a b => a.1.index < b.1.index := by
  unfold entries
  rw [List.pairwise_map, List.pairwise_iff_getElem]
  intro i j hi hj hlt
  simpa using hlt

/-- The nodes before a node are those at smaller positions. -/
theorem mem_front_iff {front back : List (ObjectId × ObjectNode)} (hsplit : graph.entries = front ++ (id, node) :: back)
    {earlier : ObjectId} {other : ObjectNode} :
    (earlier, other) ∈ front ↔ earlier.index < id.index ∧ graph.get? earlier = some other := by
  have hascending := entries_ascending graph
  rw [hsplit, List.pairwise_append, List.pairwise_cons] at hascending
  obtain ⟨-, ⟨hbehind, -⟩, hbefore⟩ := hascending
  constructor
  · intro hmem
    have hentry : (earlier, other) ∈ graph.entries := hsplit ▸ List.mem_append_left _ hmem
    exact ⟨hbefore _ hmem _ List.mem_cons_self, mem_entries_iff.1 hentry⟩
  · rintro ⟨hlt, hget⟩
    have hentry : (earlier, other) ∈ front ++ (id, node) :: back := hsplit ▸ mem_entries_iff.2 hget
    rcases List.mem_append.1 hentry with hmem | hmem
    · exact hmem
    · rcases List.mem_cons.1 hmem with heq | hmem
      · cases heq
        exact absurd hlt (Nat.lt_irrefl _)
      · exact absurd (hbehind _ hmem) (Nat.lt_asymm hlt)

/-- A rule for all nodes finds nothing if it finds nothing in any of them. -/
theorem forM_entries_eq_ok_iff {check : ObjectId → ObjectNode → Except GraphError Unit} :
    (graph.entries.forM fun (id, node) => check id node) = .ok () ↔
      ∀ id node, graph.get? id = some node → check id node = .ok () := by
  rw [forM_eq_ok_iff]
  constructor
  · intro h id node hget
    exact h (id, node) (mem_entries_iff.2 hget)
  · rintro h ⟨id, node⟩ hmem
    exact h id node (mem_entries_iff.1 hmem)

/-- And else it reports what it finds in the first node in which it finds something. -/
theorem forM_entries_eq_error_iff {check : ObjectId → ObjectNode → Except GraphError Unit} :
    (graph.entries.forM fun (id, node) => check id node) = .error e ↔ ∃ id node, graph.get? id = some node ∧
      (∀ earlier other, earlier.index < id.index → graph.get? earlier = some other → check earlier other = .ok ()) ∧
      check id node = .error e := by
  rw [forM_eq_error_iff]
  constructor
  · rintro ⟨front, ⟨id, node⟩, back, hsplit, hfront, herror⟩
    have hentry : (id, node) ∈ graph.entries := by simp [hsplit]
    refine ⟨id, node, mem_entries_iff.1 hentry, ?_, herror⟩
    intro earlier other hlt hget
    exact hfront _ ((mem_front_iff hsplit).2 ⟨hlt, hget⟩)
  · rintro ⟨id, node, hget, hearlier, herror⟩
    obtain ⟨front, back, hsplit⟩ := List.append_of_mem (mem_entries_iff.2 hget)
    refine ⟨front, (id, node), back, hsplit, ?_, herror⟩
    rintro ⟨earlier, other⟩ hmem
    obtain ⟨hlt, hother⟩ := (mem_front_iff hsplit).1 hmem
    exact hearlier earlier other hlt hother

theorem validate_eq_ok_iff :
    graph.validate = .ok () ↔ ∀ id node, graph.get? id = some node → graph.InOrder node := by
  unfold validate
  rw [forM_entries_eq_ok_iff]
  simp only [checkNode_eq_ok_iff]

theorem validate_eq_error_iff : graph.validate = .error e ↔ ∃ id node, graph.get? id = some node ∧
    (∀ earlier other, earlier.index < id.index → graph.get? earlier = some other → graph.InOrder other) ∧
    graph.Refused id node e := by
  unfold validate
  rw [forM_entries_eq_error_iff]
  simp only [checkNode_eq_ok_iff, checkNode_eq_error_iff]

end TypeGraph

/-- **What validation reports.** A graph passes exactly if all its nodes are in order. Otherwise the error is that of
the first node which is not: its first child that is missing, or else its blank name, or else its first repetition of
a property's name or an implementation's identity. Where the rules come to the identities of implementations, the
children of the same node have passed, and every look-up finds a node. -/
theorem validation_reports_first (graph : TypeGraph) :
    (graph.validate = .ok () ↔ ∀ id node, graph.get? id = some node → graph.InOrder node) ∧
    (∀ e, graph.validate = .error e ↔ ∃ id node, graph.get? id = some node ∧
      (∀ earlier other, earlier.index < id.index → graph.get? earlier = some other → graph.InOrder other) ∧
      graph.Refused id node e) ∧
    ∀ node listed, node.shape = .abstract listed → graph.checkChildren node = .ok () →
      graph.identities? listed = some (graph.names listed) := by
  refine ⟨TypeGraph.validate_eq_ok_iff, fun e => TypeGraph.validate_eq_error_iff, ?_⟩
  intro node listed hs hchildren
  apply TypeGraph.identities?_of_contains
  intro child hchild
  have hmem : child ∈ node.children := ObjectNode.mem_children_iff.2 (hs ▸ .implementation hchild)
  exact TypeGraph.checkChildren_eq_ok_iff.1 hchildren child hmem

/-- An abstract type that lists squares twice under one identity, before an object type with a child that is missing and
a property twice. -/
def squares : TypeGraph := ⟨[
  { identity := "Square", shape := .custom [.custom "corner" ⟨0⟩] [⟨1⟩] },
  { identity := "Shape", shape := .abstract [⟨0⟩, ⟨2⟩] },
  { identity := "Square", shape := .custom [.custom "side" ⟨9⟩, .custom "side" ⟨0⟩] [⟨1⟩] }]⟩

/-- The abstract type is the first node that is not in order, and both of its implementations are there. -/
theorem validation_reports_first_squares :
    squares.validate = .error (.duplicateImplementation "Shape" "Square") ∧
      squares.identities? [⟨0⟩, ⟨2⟩] = some ["Square", "Square"] := by
  obtain ⟨-, herror, hlookup⟩ := validation_reports_first squares
  constructor
  · refine (herror _).2 ⟨⟨1⟩, _, rfl, ?_, .implementation ?_ ?_ rfl ⟨["Square"], [], rfl, by decide, by decide⟩⟩
    · rintro ⟨earlier⟩ other hlt hget
      obtain rfl : earlier = 0 := Nat.lt_one_iff.1 hlt
      cases hget
      exact TypeGraph.checkNode_eq_ok_iff.1 (show squares.checkNode ⟨0⟩ _ = .ok () from rfl)
    · decide
    · exact ⟨'S', by decide, by decide⟩
  · exact hlookup _ [⟨0⟩, ⟨2⟩] rfl (show squares.checkChildren
      { identity := "Shape", shape := .abstract [⟨0⟩, ⟨2⟩] } = .ok () from rfl)

end GraphSchema
