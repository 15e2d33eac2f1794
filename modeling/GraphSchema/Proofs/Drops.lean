import GraphSchema.Proofs.Bookkeeping
import GraphSchema.Proofs.References

/-!
What the mode drops, and what a drop leaves behind.

- `TypeGraph.Droppable` says which nodes are dropped: a map by its keys, and what cannot do without a dropped
  child. `object_dropped_iff`: these and no others come out as nothing, in one mode only.
- `LeavesTrace` says which nodes write to the table or to the diagnostics before they come out as something or
  nothing.
- `drop_traceless_iff`: a drop leaves the state as it was exactly if there is no such node on its way.
  `drop_leaves_trace` is a drop that leaves a definition and a diagnostic, and `LeavesTrace.tuple_of_dropped` says
  where that comes from: only a tuple goes to further children before the one that drops it.
-/

namespace GraphSchema

/-! ## What is dropped -/

/-- A node that cannot be kept where maps with other keys than strings are dropped. -/
inductive TypeGraph.Droppable (graph : TypeGraph) : ObjectId → Prop
  | keys {id key value : ObjectId} {node : ObjectNode} {base : String} (hfound : graph.get? id = some node)
      (hshape : node.shape = .map base key value) (hdenied : graph.acceptsKey .skip key = false) : Droppable graph id
  | values {id key value : ObjectId} {node : ObjectNode} {base : String} (hfound : graph.get? id = some node)
      (hshape : node.shape = .map base key value) (hdropped : Droppable graph value) : Droppable graph id
  | nullable {id element : ObjectId} {node : ObjectNode} (hfound : graph.get? id = some node)
      (hshape : node.shape = .nullable element) (hdropped : Droppable graph element) : Droppable graph id
  | array {id element : ObjectId} {node : ObjectNode} {base : String} (hfound : graph.get? id = some node)
      (hshape : node.shape = .array base element) (hdropped : Droppable graph element) : Droppable graph id
  | tuple {id element : ObjectId} {node : ObjectNode} {elements : List ObjectId} (hfound : graph.get? id = some node)
      (hshape : node.shape = .tuple elements) (hmem : element ∈ elements) (hdropped : Droppable graph element) :
      Droppable graph id

theorem TypeGraph.acceptsKey_skip {graph : TypeGraph} {key : ObjectId} {keyNode : ObjectNode}
    (hget : graph.get? key = some keyNode) : graph.acceptsKey .skip key = Shape.hasStringKeys keyNode := by
  rw [acceptsKey_eq hget]
  exact Bool.or_false _

/-- whether a node is dropped, by its shape and by what holds of its children -/
def TypeGraph.Drops (graph : TypeGraph) (dropped : ObjectId → Prop) : ObjectShape → Prop
  | .map _ key value => graph.acceptsKey .skip key = false ∨ dropped value
  | .nullable element | .array _ element => dropped element
  | .tuple elements => ∃ element ∈ elements, dropped element
  | .system _ | .override _ | .generic .. | .abstract _ | .custom .. => False

theorem TypeGraph.droppable_iff {graph : TypeGraph} {id : ObjectId} {node : ObjectNode}
    (hget : graph.get? id = some node) : graph.Droppable id ↔ graph.Drops graph.Droppable node.shape := by
  constructor
  · intro h
    cases h with
    | keys hfound hshape hdenied =>
      cases hget.symm.trans hfound
      rw [hshape]
      exact Or.inl hdenied
    | values hfound hshape hdropped =>
      cases hget.symm.trans hfound
      rw [hshape]
      exact Or.inr hdropped
    | nullable hfound hshape hdropped | array hfound hshape hdropped =>
      cases hget.symm.trans hfound
      rw [hshape]
      exact hdropped
    | tuple hfound hshape hmem hdropped =>
      cases hget.symm.trans hfound
      rw [hshape]
      exact ⟨_, hmem, hdropped⟩
  · intro h
    cases hs : node.shape with
    | map base key value =>
      rw [hs] at h
      exact h.elim (.keys hget hs) (.values hget hs)
    | nullable element => exact .nullable hget hs (by rwa [hs] at h)
    | array base element => exact .array hget hs (by rwa [hs] at h)
    | tuple elements =>
      rw [hs] at h
      obtain ⟨element, hmem, hdropped⟩ := h
      exact .tuple hget hs hmem hdropped
    | _ =>
      rw [hs] at h
      exact h.elim

/-- Whatever has a definition is kept. -/
theorem TypeGraph.not_droppable_of_defined {graph : TypeGraph} {id : ObjectId} {node : ObjectNode}
    (hget : graph.get? id = some node) (hdef : node.kind.isDefined = true) : ¬ graph.Droppable id := by
  rw [droppable_iff hget]
  unfold ObjectNode.kind at hdef
  cases hs : node.shape with
  | abstract implementations | custom properties implements => exact not_false
  | _ =>
    rw [hs] at hdef
    cases hdef

theorem TypeGraph.Droppable.inlined {graph : TypeGraph} {id : ObjectId} (h : graph.Droppable id) :
    ∃ node, graph.get? id = some node ∧ node.kind.isDefined = false := by
  obtain ⟨node, hget⟩ : ∃ node, graph.get? id = some node := by
    cases h <;> exact ⟨_, by assumption⟩
  exact ⟨node, hget, Bool.eq_false_iff.2 fun hdef => not_droppable_of_defined hget hdef h⟩

namespace Translation

variable {meaning : ObjectId → Option (Option Schema)} {dropped : ObjectId → Prop}

theorem elements_eq_none_iff {ids : List ObjectId}
    (hc : ∀ id ∈ ids, ∀ outcome, meaning id = some outcome → (outcome = none ↔ dropped id))
    {outcome : Option (List Json)} (h : elements meaning ids = some outcome) :
    outcome = none ↔ ∃ id ∈ ids, dropped id := by
  induction ids generalizing outcome with
  | nil =>
    cases h
    simp
  | cons id rest ih =>
    obtain ⟨first, hfirst, h⟩ := Option.bind_eq_some_iff.1 h
    have hhead := hc id List.mem_cons_self first hfirst
    rw [List.exists_mem_cons_iff, ← hhead]
    cases first with
    | none =>
      cases h
      simp
    | some schema =>
      obtain ⟨schemas, hrest, rfl⟩ := Option.map_eq_some_iff.1 h
      rw [← ih (fun id hid => hc id (List.mem_cons_of_mem _ hid)) hrest]
      simp

theorem mapped_eq_none_iff {id : ObjectId} {α : Type} {f : Schema → α}
    (hc : ∀ outcome, meaning id = some outcome → (outcome = none ↔ dropped id)) {outcome : Option α}
    (h : (meaning id).map (·.map f) = some outcome) : outcome = none ↔ dropped id := by
  obtain ⟨inner, hinner, rfl⟩ := Option.map_eq_some_iff.1 h
  rw [Option.map_eq_none_iff]
  exact hc inner hinner

theorem layer_eq_none_iff {setting : Setting} (hmode : setting.options.dictionaryKeys = .skip)
    {node : ObjectNode} (hc : ∀ id outcome, meaning id = some outcome → (outcome = none ↔ dropped id))
    {outcome : Option Schema} (h : layer meaning setting node = some outcome) :
    outcome = none ↔ setting.graph.Drops dropped node.shape := by
  unfold layer at h
  cases hs : node.shape with
  | nullable element | array base element =>
    rw [hs] at h
    exact mapped_eq_none_iff (hc element) h
  | map base key value =>
    rw [hs] at h
    obtain ⟨keyNode, hkey, h⟩ := Option.bind_eq_some_iff.1 h
    have hacc := TypeGraph.acceptsKey_skip hkey
    unfold map at h
    split_ifs at h with hstring
    · simpa [TypeGraph.Drops, hacc, hstring] using mapped_eq_none_iff (hc value) h
    · rw [hmode] at h
      cases h
      simp [TypeGraph.Drops, hacc, hstring]
  | tuple ids =>
    rw [hs] at h
    obtain ⟨items, hitems, rfl⟩ := Option.map_eq_some_iff.1 h
    rw [Option.map_eq_none_iff]
    exact elements_eq_none_iff (fun id _ => hc id) hitems
  | abstract implementations =>
    rw [hs] at h
    obtain ⟨schemas, -, rfl⟩ := Option.map_eq_some_iff.1 h
    simp [TypeGraph.Drops]
  | custom props implements =>
    rw [hs] at h
    obtain ⟨compiled, -, rfl⟩ := Option.map_eq_some_iff.1 h
    simp [TypeGraph.Drops]
  | _ =>
    rw [hs] at h
    cases h
    simp [TypeGraph.Drops]

theorem child_eq_none_iff {setting : Setting} (hmode : setting.options.dictionaryKeys = .skip) (fuel : Nat)
    (id : ObjectId) (outcome : Option Schema) (h : child setting (expand setting fuel) id = some outcome) :
    outcome = none ↔ setting.graph.Droppable id := by
  induction fuel generalizing id outcome with
  | zero =>
    obtain ⟨node, hget, ⟨hdef, rfl⟩ | ⟨-, inner, hinner, -⟩⟩ := child_eq_some_iff.1 h
    · simpa using TypeGraph.not_droppable_of_defined hget hdef
    · cases hinner
  | succ fuel ih =>
    obtain ⟨node, hget, ⟨hdef, rfl⟩ | ⟨-, inner, hinner, rfl⟩⟩ := child_eq_some_iff.1 h
    · simpa using TypeGraph.not_droppable_of_defined hget hdef
    · rw [Option.map_eq_none_iff, TypeGraph.droppable_iff hget]
      exact layer_eq_none_iff hmode ih hinner

/-- The translation drops a child in one mode only, and there the nodes that cannot be kept. -/
theorem child_dropped_iff {setting : Setting} {fuel : Nat} {id : ObjectId} {outcome : Option Schema}
    (h : child setting (expand setting fuel) id = some outcome) :
    outcome = none ↔ setting.options.dictionaryKeys = .skip ∧ setting.graph.Droppable id := by
  by_cases hmode : setting.options.dictionaryKeys = .skip
  · rw [child_eq_none_iff hmode fuel id outcome h]
    exact (and_iff_right hmode).symm
  · refine iff_of_false ?_ fun hskip => hmode hskip.1
    rintro rfl
    obtain ⟨node, -, ⟨-, hnone⟩ | ⟨-, inner, hinner, hnone⟩⟩ := child_eq_some_iff.1 h
    · cases hnone
    · rw [Option.map_eq_none_iff.1 hnone.symm] at hinner
      exact not_translates_none hmode node ⟨fuel, hinner⟩

end Translation

open Walk (run run_bind_ok run_map_ok run_pure_ok)

variable {setting : Setting} {walk after : Walk}

/-- **What is dropped.** A node that compiles, from any state, comes out as nothing exactly if the mode drops maps
and the node cannot be kept then. -/
theorem object_dropped_iff {room : Nat} {id : ObjectId} {outcome : Option Schema}
    (h : run (Shape.object setting (Shape.shape setting room) id) walk = (.ok outcome, after)) :
    outcome = none ↔ setting.options.dictionaryKeys = .skip ∧ setting.graph.Droppable id :=
  Translation.child_dropped_iff (object_visits (shape_runs setting id room) .refl walk outcome after h).2.1

/-! ## What is left behind -/

/-- whether the node itself is noted among the diagnostics in the mode that drops maps -/
def ObjectNode.Notes (node : ObjectNode) : Prop :=
  match node.shape with
  | .generic .. => True
  | .override fragment => ∃ error, Schema.ofFragment fragment = .error error
  | _ => False

/-- One of the children is like this, and none before it is dropped. -/
def TypeGraph.ComesTo (graph : TypeGraph) (P : ObjectId → Prop) (ids : List ObjectId) : Prop :=
  ∃ front child back, ids = front ++ child :: back ∧ (∀ id ∈ front, ¬ graph.Droppable id) ∧ P child

/-- Compilation of the node writes something that stays: a definition that the table does not have, or a
diagnostic, for itself or for a child inside it that compilation comes to. -/
inductive LeavesTrace (setting : Setting) (table : Definitions) : ObjectId → Prop
  | define {id : ObjectId} {node : ObjectNode} (hfound : setting.graph.get? id = some node)
      (hdefined : node.kind.isDefined = true) (hunknown : ¬ Known setting table node.identity) :
      LeavesTrace setting table id
  | note {id : ObjectId} {node : ObjectNode} (hfound : setting.graph.get? id = some node) (hnotes : node.Notes) :
      LeavesTrace setting table id
  | through {id child : ObjectId} {node : ObjectNode} {front back : List ObjectId}
      (hfound : setting.graph.get? id = some node) (hinlined : node.kind.isDefined = false)
      (hsplit : setting.graph.followed .skip node = front ++ child :: back)
      (hkept : ∀ id ∈ front, ¬ setting.graph.Droppable id) (hrest : LeavesTrace setting table child) :
      LeavesTrace setting table id

theorem ObjectNode.not_notes_of_defined {node : ObjectNode} (h : node.kind.isDefined = true) : ¬ node.Notes := by
  unfold ObjectNode.kind at h
  unfold ObjectNode.Notes
  cases hs : node.shape with
  | abstract implementations | custom properties implements => exact not_false
  | _ =>
    rw [hs] at h
    cases h

theorem leavesTrace_defined_iff {table : Definitions} {id : ObjectId} {node : ObjectNode}
    (hget : setting.graph.get? id = some node) (hdef : node.kind.isDefined = true) :
    LeavesTrace setting table id ↔ ¬ Known setting table node.identity := by
  refine ⟨fun h => ?_, .define hget hdef⟩
  cases h with
  | define hfound hdefined hunknown =>
    cases hget.symm.trans hfound
    exact hunknown
  | note hfound hnotes =>
    cases hget.symm.trans hfound
    exact absurd hnotes (ObjectNode.not_notes_of_defined hdef)
  | through hfound hinlined hsplit hkept hrest =>
    cases hget.symm.trans hfound
    exact absurd hdef (Bool.eq_false_iff.1 hinlined)

theorem leavesTrace_inlined_iff {table : Definitions} {id : ObjectId} {node : ObjectNode}
    (hget : setting.graph.get? id = some node) (hinl : node.kind.isDefined = false) :
    LeavesTrace setting table id ↔
      node.Notes ∨ setting.graph.ComesTo (LeavesTrace setting table) (setting.graph.followed .skip node) := by
  constructor
  · intro h
    cases h with
    | define hfound hdefined hunknown =>
      cases hget.symm.trans hfound
      exact absurd hdefined (Bool.eq_false_iff.1 hinl)
    | note hfound hnotes =>
      cases hget.symm.trans hfound
      exact Or.inl hnotes
    | through hfound hinlined hsplit hkept hrest =>
      cases hget.symm.trans hfound
      exact Or.inr ⟨_, _, _, hsplit, hkept, hrest⟩
  · rintro (hnotes | ⟨front, child, back, hsplit, hkept, hrest⟩)
    · exact .note hget hnotes
    · exact .through hget hinl hsplit hkept hrest

theorem TypeGraph.comesTo_cons {graph : TypeGraph} {P : ObjectId → Prop} {id : ObjectId} {ids : List ObjectId} :
    graph.ComesTo P (id :: ids) ↔ P id ∨ ¬ graph.Droppable id ∧ graph.ComesTo P ids := by
  constructor
  · rintro ⟨front, child, back, hsplit, hkept, hchild⟩
    cases front with
    | nil =>
      obtain ⟨rfl, -⟩ := List.cons.inj hsplit
      exact Or.inl hchild
    | cons first front =>
      obtain ⟨rfl, hrest⟩ := List.cons.inj hsplit
      exact Or.inr ⟨hkept id List.mem_cons_self, front, child, back, hrest,
        fun x hx => hkept x (List.mem_cons_of_mem _ hx), hchild⟩
  · rintro (hid | ⟨hkept, front, child, back, rfl, hfront, hchild⟩)
    · exact ⟨[], id, ids, rfl, by simp, hid⟩
    · exact ⟨id :: front, child, back, rfl, List.forall_mem_cons.2 ⟨hkept, hfront⟩, hchild⟩

@[simp] theorem TypeGraph.not_comesTo_nil {graph : TypeGraph} {P : ObjectId → Prop} : ¬ graph.ComesTo P [] := by
  rintro ⟨front, child, back, hsplit, -⟩
  exact List.append_ne_nil_of_right_ne_nil front (List.cons_ne_nil child back) hsplit.symm

@[simp] theorem TypeGraph.comesTo_singleton {graph : TypeGraph} {P : ObjectId → Prop} {id : ObjectId} :
    graph.ComesTo P [id] ↔ P id := by
  simp [comesTo_cons]

/-- There is a diagnostic more, or a key more. -/
def Walk.Louder (walk after : Walk) : Prop :=
  walk.diagnostics.length < after.diagnostics.length ∨
    ∃ key, walk.definitions.contains key = false ∧ after.definitions.contains key = true

/-- A step that leaves nothing leaves the state as it was, and one that leaves something can be told from it. -/
structure Walk.Traced (trace : Prop) (walk after : Walk) : Prop where
  quiet : ¬ trace → after = walk
  loud : trace → walk.Louder after

theorem Walk.Louder.later {mid : Walk} (h : walk.Louder mid) (hgrows : mid.Grows after) : walk.Louder after :=
  h.imp (fun hlength => Nat.lt_of_lt_of_le hlength hgrows.diagnostics.length_le)
    fun ⟨key, hnew, hkey⟩ => ⟨key, hnew, hgrows.contains hkey⟩

theorem Walk.Louder.ne (h : walk.Louder after) :
    ¬ (after.definitions = walk.definitions ∧ after.diagnostics = walk.diagnostics) := by
  rintro ⟨hdefinitions, hdiagnostics⟩
  rcases h with hlength | ⟨key, hnew, hkey⟩
  · rw [hdiagnostics] at hlength
    exact Nat.lt_irrefl _ hlength
  · rw [hdefinitions, hnew] at hkey
    cases hkey

namespace Walk.Traced

theorem still {trace : Prop} (h : ¬ trace) : Traced trace walk walk :=
  ⟨fun _ => rfl, fun ht => absurd ht h⟩

theorem noted {trace : Prop} (h : trace) (d : Diagnostic) :
    Traced trace walk { walk with diagnostics := walk.diagnostics ++ [d] } :=
  ⟨fun hn => absurd h hn, fun _ => Or.inl (by simp)⟩

/-- A further step adds its own trace, and takes nothing back. -/
theorem next {first rest : Prop} {mid : Walk} (hfirst : Traced first walk mid) (hgrows : mid.Grows after)
    (hrest : mid = walk → Traced rest mid after) : Traced (first ∨ rest) walk after where
  quiet h := by
    obtain ⟨hf, hr⟩ := not_or.1 h
    have hmid := hfirst.quiet hf
    exact ((hrest hmid).quiet hr).trans hmid
  loud h := by
    by_cases hf : first
    · exact (hfirst.loud hf).later hgrows
    · have hmid := hfirst.quiet hf
      exact hmid ▸ (hrest hmid).loud (h.resolve_left hf)

/-- A level that is left again leaves nothing. -/
theorem level {trace : Prop} {last : Walk} (h : Traced trace { walk with depth := walk.depth + 1 } last) :
    Traced trace walk { last with depth := last.depth - 1 } where
  quiet hn := by
    rw [h.quiet hn]
    rfl
  loud := h.loud

end Walk.Traced

/-! ## What compilation leaves

In the mode that drops maps. -/

/-- Whenever a child compiles, it comes out as nothing if it is one of the nodes that are dropped, and it leaves
what this predicate on tables says. -/
def Shape.Traces (graph : TypeGraph) (trace : Definitions → ObjectId → Prop) (compile : Shape.Compiler ObjectId) :
    Prop :=
  ∀ id walk outcome after, run (compile id) walk = (.ok outcome, after) →
    (outcome = none ↔ graph.Droppable id) ∧ walk.Traced (trace walk.definitions id) after

namespace Shape

variable {graph : TypeGraph} {trace : Definitions → ObjectId → Prop} {compile : Compiler ObjectId}

theorem elements_traced (hgrows : ∀ id, Keeps Walk.Grows (compile id)) (ht : Traces graph trace compile)
    {ids : List ObjectId} {outcome : Option (List Json)}
    (h : run (elements compile ids) walk = (.ok outcome, after)) :
    Walk.Traced (graph.ComesTo (trace walk.definitions) ids) walk after := by
  induction ids generalizing walk after outcome with
  | nil =>
    obtain ⟨-, rfl⟩ := run_pure_ok h
    exact .still TypeGraph.not_comesTo_nil
  | cons id rest ih =>
    obtain ⟨first, mid, hfirst, h⟩ := run_bind_ok h
    obtain ⟨hdropped, htraced⟩ := ht id walk first mid hfirst
    rw [TypeGraph.comesTo_cons, ← hdropped]
    cases first with
    | none =>
      -- the tuple is given up here, so what the rest would leave is not left
      obtain ⟨-, rfl⟩ := run_pure_ok h
      simpa using htraced
    | some schema =>
      obtain ⟨others, last, hothers, h⟩ := run_bind_ok h
      obtain rfl : after = last := by cases others <;> exact (run_pure_ok h).2
      have hmore : mid.Grows after := by
        have hkeeps := elements_keeps frames_grows hgrows rest mid
        rwa [hothers] at hkeeps
      refine htraced.next hmore fun hmid => ?_
      subst hmid
      simpa using ih hothers

theorem map_traced {setting : Setting} (hmode : setting.options.dictionaryKeys = .skip)
    (ht : Traces setting.graph trace compile) {node : ObjectNode} {key value : ObjectId} {outcome : Option Schema}
    (h : run (map setting compile node key value) walk = (.ok outcome, after)) :
    Walk.Traced (setting.graph.ComesTo (trace walk.definitions)
      (if setting.graph.acceptsKey .skip key then [value] else [])) walk after := by
  obtain ⟨keyNode, mid, hkey, hr⟩ := run_bind_ok h
  obtain ⟨hget, rfl⟩ := Walk.run_node_ok hkey
  rw [TypeGraph.acceptsKey_skip hget]
  cases hs : hasStringKeys keyNode with
  | true =>
    simp only [hs, if_true] at hr
    obtain ⟨inner, hvalue, -⟩ := run_map_ok hr
    simpa using (ht value _ inner after hvalue).2
  | false =>
    simp only [hs, Bool.false_eq_true, if_false, hmode] at hr
    obtain ⟨-, rfl⟩ := run_pure_ok hr
    exact .still (by simp)

/-- **One level.** What a node without a definition leaves is its own note and what the children leave that it
comes to. -/
theorem layer_traced {setting : Setting} (hmode : setting.options.dictionaryKeys = .skip)
    (hgrows : ∀ id, Keeps Walk.Grows (compile id)) (ht : Traces setting.graph trace compile) {node : ObjectNode}
    (hinl : node.kind.isDefined = false) {outcome : Option Schema}
    (h : run (layer setting compile node) walk = (.ok outcome, after)) :
    Walk.Traced (node.Notes ∨ setting.graph.ComesTo (trace walk.definitions) (setting.graph.followed .skip node))
      walk after := by
  unfold layer at h
  unfold ObjectNode.kind at hinl
  unfold ObjectNode.Notes TypeGraph.followed
  cases hs : node.shape with
  | system primitive =>
    simp only [hs] at h ⊢
    obtain ⟨-, rfl⟩ := run_pure_ok h
    exact .still (by simp)
  | override fragment =>
    simp only [hs] at h ⊢
    cases hf : Schema.ofFragment fragment with
    | ok schema =>
      simp only [hf] at h
      obtain ⟨-, rfl⟩ := run_pure_ok h
      exact .still (by simp)
    | error e =>
      simp only [hf] at h
      obtain ⟨schema, hu, -⟩ := run_map_ok h
      rw [Walk.run_unsupported] at hu
      cases hu
      exact .noted (Or.inl ⟨e, rfl⟩) _
  | nullable element | array base element =>
    simp only [hs] at h ⊢
    obtain ⟨inner, helement, -⟩ := run_map_ok h
    simpa using (ht element _ inner after helement).2
  | generic base arguments =>
    simp only [hs] at h ⊢
    obtain ⟨u, mid, hn, h⟩ := run_bind_ok h
    obtain ⟨-, rfl⟩ := run_pure_ok h
    rw [Walk.run_note] at hn
    cases hn
    exact .noted (Or.inl trivial) _
  | map base key value =>
    simp only [hs] at h ⊢
    simpa using map_traced hmode ht h
  | tuple ids =>
    simp only [hs] at h ⊢
    obtain ⟨items, helements, -⟩ := run_map_ok h
    simpa using elements_traced hgrows ht helements
  | abstract implementations | custom props implements =>
    rw [hs] at hinl
    cases hinl

theorem reference_traced {setting : Setting} {room : Nat} {id : ObjectId} {node : ObjectNode}
    (hget : setting.graph.get? id = some node) (hdef : node.kind.isDefined = true) {schema : Schema}
    (h : run (reference setting (shape setting room) node) walk = (.ok schema, after)) :
    Walk.Traced (¬ Known setting walk.definitions node.identity) walk after := by
  by_cases hknown : Known setting walk.definitions node.identity
  · rw [run_reference, if_pos (show _ ∨ _ from hknown)] at h
    cases h
    exact .still (not_not_intro hknown)
  · have hafter := (reference_runs (shape_runs setting id room) hget .refl hdef h).2.2
    obtain ⟨hroot, hnew⟩ := not_or.1 hknown
    exact ⟨fun hn => absurd hknown hn,
      fun _ => Or.inr ⟨_, Bool.eq_false_iff.2 hnew, hafter.resolve_left hroot⟩⟩

theorem object_traced_of_inlined {setting : Setting} (hmode : setting.options.dictionaryKeys = .skip) {room : Nat}
    (hshape : ∀ {id node walk inner after}, setting.graph.get? id = some node → node.kind.isDefined = false →
      run (shape setting room node) walk = (.ok inner, after) →
        Walk.Traced (LeavesTrace setting walk.definitions id) walk after) :
    Traces setting.graph (LeavesTrace setting) (object setting (shape setting room)) := by
  intro id walk outcome after h
  refine ⟨(object_dropped_iff h).trans (and_iff_right hmode), ?_⟩
  obtain ⟨node, hget, ⟨hdef, schema, -, hr⟩ | ⟨hinl, inner, hr, -⟩⟩ := object_ok h
  · rw [leavesTrace_defined_iff hget hdef]
    exact reference_traced hget hdef hr
  · exact hshape hget hinl hr

/-- **Every node.** A node without a definition that compiles leaves the state as it was if it leaves no trace, and
else a diagnostic or a key more. -/
theorem shape_traced {setting : Setting} (hmode : setting.options.dictionaryKeys = .skip) (room : Nat)
    {id : ObjectId} {node : ObjectNode} {inner : Option Schema} (hget : setting.graph.get? id = some node)
    (hinl : node.kind.isDefined = false) (h : run (shape setting room node) walk = (.ok inner, after)) :
    Walk.Traced (LeavesTrace setting walk.definitions id) walk after := by
  induction room generalizing id node walk inner after with
  | zero =>
    rw [shape, Walk.run_throw] at h
    cases h
  | succ room ih =>
    have hobject := object_traced_of_inlined hmode ih
    rw [leavesTrace_inlined_iff hget hinl]
    rw [shape, Walk.run_deeper] at h
    obtain ⟨hlayer, rfl⟩ := Prod.mk.inj h
    exact (layer_traced hmode (object_keeps frames_grows setting room) hobject hinl (Prod.ext hlayer rfl)).level

theorem object_traced {setting : Setting} (hmode : setting.options.dictionaryKeys = .skip) (room : Nat) :
    Traces setting.graph (LeavesTrace setting) (object setting (shape setting room)) :=
  object_traced_of_inlined hmode (shape_traced hmode room)

end Shape

/-- **A drop without a trace.** Only the mode that drops maps drops anything, and only what cannot be kept there.
The table and the diagnostics are then what they were before the call exactly if compilation did not come to a
child, inside the node, that has a definition which the table lacked, or is noted among the diagnostics. -/
theorem drop_traceless_iff {id : ObjectId} (h : run (Shape.compileObject setting id) walk = (.ok none, after)) :
    setting.options.dictionaryKeys = .skip ∧ setting.graph.Droppable id ∧
      ((after.definitions = walk.definitions ∧ after.diagnostics = walk.diagnostics) ↔
        ¬ LeavesTrace setting walk.definitions id) := by
  obtain ⟨now, mid, hnow, h⟩ := run_bind_ok h
  cases hnow
  obtain ⟨hmode, hdroppable⟩ := (object_dropped_iff h).1 rfl
  have htraced := (Shape.object_traced hmode _ id walk none after h).2
  refine ⟨hmode, hdroppable, fun hsame htrace => (htraced.loud htrace).ne hsame, fun hquiet => ?_⟩
  rw [htraced.quiet hquiet]
  exact ⟨rfl, rfl⟩

/-- A tuple of an object type, a generic type and a map that has numbers for keys, an object type with the tuple for
a property, and a list of such maps. -/
def ghostTuple : TypeGraph := ⟨[
  { identity := "string", shape := .system .string },
  { identity := "int", shape := .system .int32 },
  { identity := "Dictionary<int, string>", shape := .map "Dictionary" ⟨1⟩ ⟨0⟩ },
  { identity := "Ghost", shape := .custom [.custom "name" ⟨0⟩] [] },
  { identity := "Lazy<string>", shape := .generic "Lazy`1" [⟨0⟩] },
  { identity := "(Ghost, Lazy<string>, Dictionary<int, string>)", shape := .tuple [⟨3⟩, ⟨4⟩, ⟨2⟩] },
  { identity := "List<Dictionary<int, string>>", shape := .array "List" ⟨2⟩ },
  { identity := "Owner", shape := .custom [.custom "pair" ⟨5⟩, .custom "name" ⟨0⟩] [] }]⟩

/-- the setting that drops such maps -/
def skippingGhost : Setting := { graph := ghostTuple, options := { dictionaryKeys := .skip } }

/-- The list of maps is dropped, and nothing is left of it. -/
theorem drop_traceless_iff_ghostTuple : ∃ walk after,
    run (Shape.compileObject skippingGhost ⟨6⟩) walk = (.ok none, after) ∧ ghostTuple.Droppable ⟨6⟩ ∧
      ¬ LeavesTrace skippingGhost walk.definitions ⟨6⟩ := by
  have h : run (Shape.compileObject skippingGhost ⟨6⟩) {} = (.ok none, {}) := rfl
  obtain ⟨-, hdroppable, htraceless⟩ := drop_traceless_iff h
  exact ⟨{}, {}, h, hdroppable, htraceless.1 ⟨rfl, rfl⟩⟩

/-- The tuple is dropped for its map, and a definition and a diagnostic are left of the elements before it. In the
document of the owner, which has no such property, nothing refers to that definition. -/
theorem drop_leaves_trace : ghostTuple.validate = .ok () ∧
    (∃ after, run (Shape.compileObject skippingGhost ⟨5⟩) {} = (.ok none, after) ∧
      after.definitions ≠ {} ∧ after.diagnostics ≠ []) ∧
    ∃ compiled, build ghostTuple { root := ⟨7⟩ } skippingGhost.options = .ok compiled ∧
      compiled.definitions = 1 ∧ compiled.document.named "$ref" = [] ∧ compiled.diagnostics.length = 1 := by
  refine ⟨rfl, ⟨_, rfl, fun h => ?_, List.cons_ne_nil _ _⟩, ?_⟩
  · have hghost := congrArg (·.contains "Ghost") h
    cases hghost
  · have hcounts : (build ghostTuple { root := ⟨7⟩ } skippingGhost.options).toOption.map (fun compiled =>
        (compiled.definitions, (compiled.document.named "$ref").length, compiled.diagnostics.length)) =
          some (1, 0, 1) := by
      decide +kernel
    cases hbuild : build ghostTuple { root := ⟨7⟩ } skippingGhost.options with
    | error e =>
      rw [hbuild] at hcounts
      cases hcounts
    | ok compiled =>
      rw [hbuild] at hcounts
      obtain ⟨hdefinitions, hreferences, hdiagnostics⟩ := by
        simpa only [Except.toOption, Option.map_some, Option.some.injEq, Prod.mk.injEq] using hcounts
      exact ⟨compiled, rfl, hdefinitions, List.eq_nil_of_length_eq_zero hreferences, hdiagnostics⟩

/-! ## Where a trace comes from -/

theorem TypeGraph.not_droppable_of_notes {graph : TypeGraph} {id : ObjectId} {node : ObjectNode}
    (hget : graph.get? id = some node) (h : node.Notes) : ¬ graph.Droppable id := by
  rw [droppable_iff hget]
  unfold ObjectNode.Notes at h
  cases hs : node.shape with
  | generic base arguments | override fragment => exact not_false
  | _ =>
    rw [hs] at h
    exact h.elim

theorem TypeGraph.Drops.only_child {graph : TypeGraph} {dropped : ObjectId → Prop} {node : ObjectNode}
    {front back : List ObjectId} {child : ObjectId} (h : graph.Drops dropped node.shape)
    (hinl : node.kind.isDefined = false) (hsplit : graph.followed .skip node = front ++ child :: back)
    (hone : ∀ elements, node.shape ≠ .tuple elements) : dropped child := by
  have hmem : child ∈ graph.followed .skip node := by simp [hsplit]
  unfold followed at hmem
  unfold ObjectNode.kind at hinl
  cases hs : node.shape with
  | nullable element | array base element =>
    simp only [hs, List.mem_singleton] at h hmem
    exact hmem ▸ h
  | map base key value =>
    simp only [hs] at h hmem
    split_ifs at hmem with hacc
    · rw [List.mem_singleton.1 hmem]
      exact h.resolve_left (by simp [hacc])
    · exact absurd hmem List.not_mem_nil
  | tuple elements => exact absurd hs (hone elements)
  | abstract implementations | custom properties implements =>
    rw [hs] at hinl
    cases hinl
  | _ =>
    rw [hs] at h
    exact h.elim

/-- **Only tuples.** A drop that leaves a trace comes from a tuple, which goes to its elements in turn until one is
dropped: a map looks at its keys first, and the others have one child. -/
theorem LeavesTrace.tuple_of_dropped {table : Definitions} {id : ObjectId} (h : LeavesTrace setting table id)
    (hdropped : setting.graph.Droppable id) :
    ∃ tuple node elements, Relation.ReflTransGen (setting.graph.Inlines .skip) id tuple ∧
      setting.graph.get? tuple = some node ∧ node.shape = .tuple elements := by
  induction h with
  | define hfound hdefined hunknown => exact absurd hdropped (TypeGraph.not_droppable_of_defined hfound hdefined)
  | note hfound hnotes => exact absurd hdropped (TypeGraph.not_droppable_of_notes hfound hnotes)
  | @through id child node front back hfound hinlined hsplit hkept hrest ih =>
    by_cases htuple : ∃ elements, node.shape = .tuple elements
    · obtain ⟨elements, hs⟩ := htuple
      exact ⟨id, node, elements, .refl, hfound, hs⟩
    · have hchild : setting.graph.Droppable child :=
        ((TypeGraph.droppable_iff hfound).1 hdropped).only_child hinlined hsplit (not_exists.1 htuple)
      obtain ⟨tuple, tupleNode, elements, hway, hget, hs⟩ := ih hchild
      have hedge : setting.graph.Inlines .skip id child :=
        ⟨⟨node, hfound, by simp [hsplit]⟩, hchild.inlined⟩
      exact ⟨tuple, tupleNode, elements, .head hedge hway, hget, hs⟩

end GraphSchema
