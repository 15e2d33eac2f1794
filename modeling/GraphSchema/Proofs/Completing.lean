import GraphSchema.Proofs.Bookkeeping
import GraphSchema.Proofs.Document

/-!
What a call of the compiler does to the state that it starts from.

A call may start from any state, with slots that other calls have reserved and not filled yet, and it may fail at any
depth. What it keeps in any case is known of every step (`Walk.Grows`). That it fills all the slots it has reserved itself
is so only if it succeeds, and follows from what successful layers do to the table.

- `Definitions.Completes` : no slot of a later table is new and open.
- `Shape.object_completes` : a call for a node that succeeds completes the table.
- `Walk.Balances` : what a call leaves, in terms of the depth, the diagnostics and the keys.
- `calls_balance` : every call balances, for a node, a property or a list of implementations.
-/

namespace GraphSchema

/-! ## Tables that are completed -/

/-- In the later table, a slot that the earlier one does not have is built. -/
def Definitions.Completes (before after : Definitions) : Prop :=
  ∀ key slot, after.slot? key = some slot → before.slot? key = some slot ∨ ∃ schema, slot = .built schema

theorem Definitions.Completes.refl (table : Definitions) : table.Completes table :=
  fun _ _ hslot => Or.inl hslot

theorem Definitions.Completes.trans {a b c : Definitions} (h : a.Completes b) (h' : b.Completes c) : a.Completes c := by
  intro key slot hslot
  rcases h' key slot hslot with hmid | hbuilt
  · exact h key slot hmid
  · exact Or.inr hbuilt

theorem Extends.completes {setting : Setting} {origin : ObjectId} {before after : Definitions}
    (h : Extends setting origin before after) : before.Completes after := by
  intro key slot hslot
  rcases h.added hslot with hold | ⟨schema, _, _, hbuilt, _⟩
  · exact Or.inl hold
  · exact Or.inr ⟨schema, hbuilt⟩

namespace Shape

open Walk (run)

/-- whether the table of the first state is completed in the second one -/
def Completed (before after : Walk) : Prop :=
  before.definitions.Completes after.definitions

/-- Nothing is asked of children but that they complete the table. -/
theorem tracks_completed : Tracks Completed fun _ _ => True where
  refl walk := .refl walk.definitions
  trans h h' := h.trans h'
  note walk _ := .refl walk.definitions
  stays _ _ := trivial

/-- **Nodes.** A call for a node that succeeds completes the table, wherever it starts. -/
theorem object_completes (setting : Setting) (room : Nat) (id : ObjectId) :
    Visits Completed (fun _ _ => True) (Translation.child setting (Translation.expand setting room))
      (object setting (shape setting room)) id := by
  intro walk outcome after h
  obtain ⟨hextends, hmeaning, -⟩ := object_visits (shape_runs setting id room) .refl walk outcome after h
  exact ⟨hextends.completes, hmeaning, trivial⟩

end Shape

/-! ## Calls -/

/-- What a call that starts from a state leaves, with its result. -/
structure Walk.Balances {α : Type} (walk : Walk) (result : Except GraphError α) (after : Walk) : Prop where
  depth : after.depth = walk.depth
  diagnostics : walk.diagnostics <+: after.diagnostics
  /-- a schema that was built stays -/
  built : ∀ key schema, walk.definitions.get? key = some schema → after.definitions.get? key = some schema
  /-- a key that was only reserved is only reserved still -/
  reserved : ∀ key, walk.definitions.contains key = true → walk.definitions.get? key = none →
    after.definitions.contains key = true ∧ after.definitions.get? key = none
  /-- if the call succeeds, no key that it has brought is left open -/
  completed : result.isOk = true → ∀ key, walk.definitions.contains key = false →
    after.definitions.contains key = true → ∃ schema, after.definitions.get? key = some schema

theorem Definitions.get?_eq_some_iff {table : Definitions} {key : String} {schema : Json} :
    table.get? key = some schema ↔ table.slot? key = some (.built schema) := by
  unfold get? slot?
  rw [Option.bind_eq_some_iff]
  constructor
  · rintro ⟨slot, hslot, hschema⟩
    cases slot with
    | reserved => cases hschema
    | built stored =>
      cases hschema
      exact hslot
  · exact fun hslot => ⟨_, hslot, rfl⟩

/-- A key is reserved and not built if it is there and there is no schema under it. -/
theorem Definitions.slot?_eq_reserved_iff {table : Definitions} {key : String} :
    table.slot? key = some .reserved ↔ table.contains key = true ∧ table.get? key = none := by
  rw [contains_iff, Option.eq_none_iff_forall_not_mem]
  constructor
  · intro hslot
    refine ⟨⟨_, hslot⟩, fun schema hschema => ?_⟩
    rw [Option.mem_def, get?_eq_some_iff, hslot] at hschema
    cases hschema
  · rintro ⟨⟨slot, hslot⟩, hnone⟩
    cases slot with
    | reserved => exact hslot
    | built schema => exact absurd (get?_eq_some_iff.2 hslot) (hnone schema)

/-- A step that takes nothing back, and completes the table if it succeeds, balances. -/
theorem Walk.Grows.balances {α : Type} {walk after : Walk} {result : Except GraphError α} (h : walk.Grows after)
    (hcompletes : ∀ a, result = .ok a → walk.definitions.Completes after.definitions) : walk.Balances result after where
  depth := h.depth
  diagnostics := h.diagnostics
  built key schema hschema := by
    rw [Definitions.get?_eq_some_iff] at hschema ⊢
    exact h.slots hschema
  reserved key hkey hnone := by
    rw [← Definitions.slot?_eq_reserved_iff]
    exact h.slots (Definitions.slot?_eq_reserved_iff.2 ⟨hkey, hnone⟩)
  completed hok key hnew hkey := by
    obtain ⟨a, rfl⟩ := exists_ok_of_isOk hok
    obtain ⟨slot, hslot⟩ := Definitions.contains_iff.1 hkey
    rcases hcompletes a rfl key slot hslot with hold | ⟨schema, rfl⟩
    · rw [Definitions.slot?_of_not_contains hnew] at hold
      cases hold
    · exact ⟨schema, Definitions.get?_eq_some_iff.2 hslot⟩

namespace Shape

open Walk (run Balances)

variable (setting : Setting) (walk : Walk)

theorem run_compileObject (id : ObjectId) :
    run (compileObject setting id) walk = run (object setting (shape setting (room setting walk)) id) walk := by
  rw [compileObject, Walk.run_bind, Walk.run_get]

theorem run_compileProperty (owner : String) (p : Property) :
    run (compileProperty setting owner p) walk =
      run (property (object setting (shape setting (room setting walk))) owner p) walk := by
  rw [compileProperty, Walk.run_bind, Walk.run_get]

theorem run_compileUnion (implementations : List ObjectId) :
    run (compileUnion setting implementations) walk =
      run (union (object setting (shape setting (room setting walk))) implementations) walk := by
  rw [compileUnion, Walk.run_bind, Walk.run_get]

theorem compileObject_balances (id : ObjectId) :
    walk.Balances (run (compileObject setting id) walk).1 (run (compileObject setting id) walk).2 := by
  have hgrows := object_keeps frames_grows setting (room setting walk) id walk
  rw [run_compileObject]
  apply hgrows.balances
  intro outcome hok
  exact (object_completes setting (room setting walk) id walk outcome _ (Prod.ext hok rfl)).1

theorem compileProperty_balances (owner : String) (p : Property) :
    walk.Balances (run (compileProperty setting owner p) walk).1 (run (compileProperty setting owner p) walk).2 := by
  have hgrows := property_keeps frames_grows (object_keeps frames_grows setting (room setting walk)) owner p walk
  rw [run_compileProperty]
  apply hgrows.balances
  intro outcome hok
  exact (property_ok tracks_completed (fun id _ => object_completes setting (room setting walk) id) (Prod.ext hok rfl)).1

theorem compileUnion_balances (implementations : List ObjectId) :
    walk.Balances (run (compileUnion setting implementations) walk).1
      (run (compileUnion setting implementations) walk).2 := by
  have hgrows := union_keeps frames_grows (object_keeps frames_grows setting (room setting walk)) implementations walk
  rw [run_compileUnion]
  apply hgrows.balances
  intro schema hok
  exact (union_ok tracks_completed (fun id _ => object_completes setting (room setting walk) id) (Prod.ext hok rfl)).1

end Shape

/-- **Every call balances.** Whatever the graph and the options, and from whatever state, a call for a node, for a property
or for a list of implementations leaves the depth as it was, and the old diagnostics in front of the new ones. A schema
that was built stays, and a key that was only reserved is only reserved still, also if the call fails. If it succeeds, all
keys that are new are built. -/
theorem calls_balance (setting : Setting) (walk : Walk) :
    (∀ id, walk.Balances (Walk.run (Shape.compileObject setting id) walk).1
      (Walk.run (Shape.compileObject setting id) walk).2) ∧
    (∀ owner p, walk.Balances (Walk.run (Shape.compileProperty setting owner p) walk).1
      (Walk.run (Shape.compileProperty setting owner p) walk).2) ∧
    ∀ implementations, walk.Balances (Walk.run (Shape.compileUnion setting implementations) walk).1
      (Walk.run (Shape.compileUnion setting implementations) walk).2 :=
  ⟨Shape.compileObject_balances setting walk, Shape.compileProperty_balances setting walk,
    Shape.compileUnion_balances setting walk⟩

/-- Inside of a tag, whose slot is reserved. A call for the node type builds its definition, or fails for a level that is
missing and leaves that slot reserved as well. In both cases the tag stays as it was. -/
theorem calls_balance_insideTag :
    let walk : Walk := { depth := 3, definitions := ⟨[("Tag", .reserved)]⟩, diagnostics := [⟨"Tag", "entered"⟩] }
    let called (maxDepth : Nat) : Except GraphError (Option Schema) × Walk :=
      Walk.run (Shape.compileObject { graph := taggedList, options := { maxDepth } } ⟨1⟩) walk
    (∀ maxDepth, (called maxDepth).2.depth = 3 ∧ walk.diagnostics <+: (called maxDepth).2.diagnostics ∧
      (called maxDepth).2.definitions.get? "Tag" = none) ∧
    (∃ schema, (called 5).2.definitions.get? "Node" = some schema) ∧
    (called 4).1.isOk = false ∧ (called 4).2.definitions.contains "Node" = true ∧
      (called 4).2.definitions.get? "Node" = none := by
  intro walk called
  have hbalances (maxDepth : Nat) : walk.Balances (called maxDepth).1 (called maxDepth).2 :=
    (calls_balance { graph := taggedList, options := { maxDepth } } walk).1 ⟨1⟩
  refine ⟨fun maxDepth => ?_, ?_, by decide +kernel, by decide +kernel, by decide +kernel⟩
  · obtain ⟨hdepth, hdiagnostics, -, hreserved, -⟩ := hbalances maxDepth
    exact ⟨hdepth, hdiagnostics, (hreserved "Tag" (by decide) (by decide)).2⟩
  · exact (hbalances 5).completed (by decide +kernel) "Node" (by decide) (by decide +kernel)

end GraphSchema
