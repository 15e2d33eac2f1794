import GraphSchema.Proofs.Markers

/-!
What a walk records, where nothing is dropped.

- `Stored` : a type whose definition a walk has put into its table.
- `Records` : a step has recorded its own notes and, for each type that it has stored, the notes of that type, each of
  them once.
- `shape_records` : a node that compiles has recorded the notes of its level. A type that stands in the table already
  is not compiled again, and its notes are not repeated.
-/

namespace GraphSchema

/-! ## The entries of a table -/

namespace Definitions

variable {table : Definitions} {key : String}

theorem built_reserve (hfree : table.contains key = false) :
    Definitions.built ⟨Members.insert table.slots key .reserved⟩ = table.built := by
  have hnew : key ∉ Members.keys table.slots := by
    rw [← Members.contains_iff]
    exact Bool.eq_false_iff.1 hfree
  rw [built, built, Members.insert_of_notMem hnew, List.filterMap_append]
  exact List.append_nil _

/-- Filling a slot that is reserved adds its schema to the entries. -/
theorem built_withSlot (hreserved : table.slot? key = some .reserved) (schema : Json) :
    (table.withSlot key (.built schema)).built.Perm (table.built ++ [(key, schema)]) := by
  obtain ⟨slots⟩ := table
  unfold slot? at hreserved
  unfold withSlot built
  dsimp only at hreserved ⊢
  induction slots with
  | nil => cases hreserved
  | cons entry rest ih =>
    obtain ⟨k, slot⟩ := entry
    rw [Members.get?_cons] at hreserved
    rw [Members.insert]
    by_cases hsame : k = key
    · rw [if_pos hsame.symm] at hreserved
      cases hreserved
      rw [if_pos hsame, hsame]
      exact (List.perm_append_singleton _ _).symm
    · rw [if_neg (Ne.symm hsame)] at hreserved
      rw [if_neg hsame, List.filterMap_cons, List.filterMap_cons]
      cases slot with
      | reserved => exact ih hreserved
      | built stored => exact (ih hreserved).cons _

end Definitions

/-! ## Recording -/

/-- a type whose definition a walk has stored, with its level -/
structure Stored (setting : Setting) where
  id : ObjectId
  node : ObjectNode
  level : Schema
  found : setting.graph.get? id = some node
  defined : node.kind.isDefined = true
  expands : Translation.expand setting setting.options.maxDepth node = some (some level)

namespace Stored

variable {setting : Setting}

/-- what stands in the table for the type -/
def entry (stored : Stored setting) : String × Json :=
  (stored.node.identity, (stored.level.annotate stored.node.metadata).toJson)

/-- the notes of the type's own level -/
def notes (stored : Stored setting) : List Diagnostic :=
  Translation.notes setting setting.options.maxDepth stored.node

end Stored

/-- Between two states a walk has recorded these notes and, for each type that it has stored, the notes of that. -/
def Records (setting : Setting) (notes : List Diagnostic) (walk after : Walk) : Prop :=
  ∃ fresh : List (Stored setting),
    after.diagnostics.Perm (walk.diagnostics ++ (notes ++ fresh.flatMap Stored.notes)) ∧
      after.definitions.built.Perm (walk.definitions.built ++ fresh.map Stored.entry)

namespace Records

variable {setting : Setting} {walk mid after : Walk} {first second : List Diagnostic}

theorem refl (walk : Walk) : Records setting [] walk walk :=
  ⟨[], by simp, by simp⟩

theorem note (walk : Walk) (d : Diagnostic) :
    Records setting [d] walk { walk with diagnostics := walk.diagnostics ++ [d] } :=
  ⟨[], by simp, by simp⟩

theorem trans (h : Records setting first walk mid) (hrest : Records setting second mid after) :
    Records setting (first ++ second) walk after := by
  obtain ⟨fresh, hdiagnostics, hbuilt⟩ := h
  obtain ⟨more, hdiagnosticsRest, hbuiltRest⟩ := hrest
  refine ⟨fresh ++ more, ?_, ?_⟩
  · refine (hdiagnosticsRest.trans (hdiagnostics.append_right _)).trans ?_
    -- the notes of what was stored first stand before the second notes
    have hswapped := List.perm_append_comm_assoc (fresh.flatMap Stored.notes) second (more.flatMap Stored.notes)
    rw [List.flatMap_append, List.append_assoc, List.append_assoc, List.append_assoc]
    exact (hswapped.append_left first).append_left walk.diagnostics
  · rw [List.map_append, ← List.append_assoc]
    exact hbuiltRest.trans (hbuilt.append_right _)

end Records

namespace Shape

open Walk (run run_bind_ok run_map_ok run_pure_ok)

/-- Whenever a child compiles, a schema comes out, and the notes on the child are recorded. -/
def Recorded (setting : Setting) (notes : ObjectId → List Diagnostic) (compile : Compiler ObjectId) (id : ObjectId) :
    Prop :=
  ∀ walk outcome after, run (compile id) walk = (.ok outcome, after) →
    (∃ schema, outcome = some schema) ∧ Records setting (notes id) walk after

section Layers

variable {setting : Setting} {notes : ObjectId → List Diagnostic} {compile : Compiler ObjectId} {walk after : Walk}

theorem elements_records {ids : List ObjectId} (hchildren : ∀ id ∈ ids, Recorded setting notes compile id)
    {outcome : Option (List Json)} (h : run (elements compile ids) walk = (.ok outcome, after)) :
    (∃ items, outcome = some items) ∧ Records setting (ids.flatMap notes) walk after := by
  induction ids generalizing walk after outcome with
  | nil =>
    obtain ⟨rfl, rfl⟩ := run_pure_ok h
    exact ⟨⟨[], rfl⟩, .refl _⟩
  | cons id rest ih =>
    obtain ⟨hhead, htail⟩ := List.forall_mem_cons.1 hchildren
    obtain ⟨first, mid, hcompiles, h⟩ := run_bind_ok h
    obtain ⟨⟨schema, rfl⟩, hrecords⟩ := hhead _ _ _ hcompiles
    obtain ⟨others, last, hcompilesRest, h⟩ := run_bind_ok h
    obtain ⟨⟨items, rfl⟩, hrecordsRest⟩ := ih htail hcompilesRest
    obtain ⟨rfl, rfl⟩ := run_pure_ok h
    exact ⟨⟨_, rfl⟩, hrecords.trans hrecordsRest⟩

theorem arms_records {ids : List ObjectId} (hchildren : ∀ id ∈ ids, Recorded setting notes compile id)
    {schemas : List Json} (h : run (arms compile ids) walk = (.ok schemas, after)) :
    Records setting (ids.flatMap notes) walk after := by
  induction ids generalizing walk schemas with
  | nil =>
    obtain ⟨rfl, rfl⟩ := run_pure_ok h
    exact .refl _
  | cons id rest ih =>
    obtain ⟨hhead, htail⟩ := List.forall_mem_cons.1 hchildren
    obtain ⟨first, mid, hcompiles, h⟩ := run_bind_ok h
    obtain ⟨others, last, hcompilesRest, h⟩ := run_bind_ok h
    obtain ⟨rfl, rfl⟩ := run_pure_ok h
    exact (hhead _ _ _ hcompiles).2.trans (ih htail hcompilesRest)

theorem property_records {owner : String} {p : Property}
    (hchildren : ∀ id ∈ p.member?, Recorded setting notes compile id) {outcome : Option Schema}
    (h : run (property compile owner p) walk = (.ok outcome, after)) :
    Records setting (Translation.propertyNotes notes owner p) walk after := by
  unfold Property.member? at hchildren
  unfold property at h
  unfold Translation.propertyNotes rawNote
  cases hshape : p.shape with
  | override fragment =>
    simp only [hshape] at h ⊢
    cases hreads : Schema.ofFragment fragment with
    | ok schema =>
      simp only [hreads] at h ⊢
      obtain ⟨rfl, rfl⟩ := run_pure_ok h
      exact .refl _
    | error error =>
      simp only [hreads] at h ⊢
      obtain ⟨schema, hnoted, rfl⟩ := run_map_ok h
      rw [Walk.run_unsupported] at hnoted
      cases hnoted
      exact .note _ _
  | custom member default =>
    simp only [hshape] at h hchildren ⊢
    obtain ⟨first, mid, hcompiles, h⟩ := run_bind_ok h
    obtain ⟨⟨schema, rfl⟩, hrecords⟩ := hchildren member rfl _ _ _ hcompiles
    obtain ⟨rfl, rfl⟩ := run_pure_ok h
    exact hrecords

theorem properties_records {owner : String} {props : List Property}
    (hchildren : ∀ id ∈ props.filterMap Property.member?, Recorded setting notes compile id)
    {compiled : List (Property × Schema)} (h : run (properties compile owner props) walk = (.ok compiled, after)) :
    Records setting (props.flatMap (Translation.propertyNotes notes owner)) walk after := by
  induction props generalizing walk compiled with
  | nil =>
    obtain ⟨rfl, rfl⟩ := run_pure_ok h
    exact .refl _
  | cons p rest ih =>
    obtain ⟨first, mid, hcompiles, h⟩ := run_bind_ok h
    obtain ⟨others, last, hcompilesRest, h⟩ := run_bind_ok h
    obtain ⟨rfl, rfl⟩ := run_pure_ok h
    have hhead := property_records
      (fun id hmem => hchildren id (List.mem_filterMap.2 ⟨p, List.mem_cons_self, hmem⟩)) hcompiles
    have htail : ∀ id ∈ rest.filterMap Property.member?, Recorded setting notes compile id := by
      intro id hmem
      obtain ⟨q, hproperty, hmember⟩ := List.mem_filterMap.1 hmem
      exact hchildren id (List.mem_filterMap.2 ⟨q, List.mem_cons_of_mem _ hproperty, hmember⟩)
    exact hhead.trans (ih htail hcompilesRest)

theorem wrapped_records {id : ObjectId} (hchild : Recorded setting notes compile id) {f : Option Schema → Option Schema}
    {outcome : Option Schema} (h : run (f <$> compile id) walk = (.ok outcome, after)) :
    Records setting (notes id) walk after := by
  obtain ⟨inner, hcompiles, rfl⟩ := run_map_ok h
  exact (hchild _ _ _ hcompiles).2

theorem map_records (hmode : setting.options.dictionaryKeys ≠ .skip) {node : ObjectNode} {key value : ObjectId}
    (hchild : setting.graph.acceptsKey setting.options.dictionaryKeys key = true →
      Recorded setting notes compile value) {outcome : Option Schema}
    (h : run (map setting compile node key value) walk = (.ok outcome, after)) :
    Records setting (if setting.graph.acceptsKey setting.options.dictionaryKeys key then notes value
      else ((setting.graph.get? key).map fun keyNode => ⟨node.identity, keyRefusal node keyNode⟩).toList)
      walk after := by
  obtain ⟨keyNode, mid, hgets, hrest⟩ := run_bind_ok h
  obtain ⟨hfound, rfl⟩ := Walk.run_node_ok hgets
  rw [TypeGraph.acceptsKey_eq hfound] at hchild ⊢
  cases hstringy : hasStringKeys keyNode with
  | true =>
    rw [hstringy] at hchild
    simp only [hstringy, if_true] at hrest
    exact wrapped_records (hchild rfl) hrest
  | false =>
    rw [hstringy] at hchild
    simp only [hstringy, Bool.false_eq_true, if_false] at hrest
    cases hkeys : setting.options.dictionaryKeys with
    | loose =>
      simp only [hkeys] at hrest hchild
      obtain ⟨inner, hcompiles, rfl⟩ := run_map_ok hrest
      exact wrapped_records (hchild rfl) hcompiles
    | strict =>
      simp only [hkeys] at hrest
      obtain ⟨schema, hnoted, rfl⟩ := run_map_ok hrest
      rw [Walk.run_unsupported] at hnoted
      cases hnoted
      rw [hfound]
      exact .note _ _
    | silent =>
      simp only [hkeys] at hrest hchild
      exact wrapped_records (hchild rfl) hrest
    | skip => exact absurd hkeys hmode

/-- **One level.** A layer that succeeds has recorded its notes. -/
theorem layer_records (hmode : setting.options.dictionaryKeys ≠ .skip) {node : ObjectNode}
    (hchildren : ∀ id ∈ setting.graph.followed setting.options.dictionaryKeys node, Recorded setting notes compile id)
    {outcome : Option Schema} (h : run (layer setting compile node) walk = (.ok outcome, after)) :
    Records setting (Translation.layerNotes setting notes node) walk after := by
  unfold layer at h
  unfold TypeGraph.followed at hchildren
  unfold Translation.layerNotes
  cases hshape : node.shape with
  | system p =>
    simp only [hshape] at h ⊢
    obtain ⟨rfl, rfl⟩ := run_pure_ok h
    exact .refl _
  | override fragment =>
    simp only [hshape] at h ⊢
    unfold rawNote
    cases hreads : Schema.ofFragment fragment with
    | ok schema =>
      simp only [hreads] at h ⊢
      obtain ⟨rfl, rfl⟩ := run_pure_ok h
      exact .refl _
    | error error =>
      simp only [hreads] at h ⊢
      obtain ⟨schema, hnoted, rfl⟩ := run_map_ok h
      rw [Walk.run_unsupported] at hnoted
      cases hnoted
      exact .note _ _
  | nullable element | array base element =>
    simp only [hshape] at h hchildren ⊢
    exact wrapped_records (hchildren element (List.mem_singleton_self _)) h
  | map base key value =>
    simp only [hshape] at h hchildren ⊢
    exact map_records hmode (fun haccepted => hchildren value (by simp [haccepted])) h
  | generic base arguments =>
    simp only [hshape] at h ⊢
    obtain ⟨_, mid, hnoted, h⟩ := run_bind_ok h
    obtain ⟨rfl, rfl⟩ := run_pure_ok h
    rw [Walk.run_note] at hnoted
    cases hnoted
    rw [ObjectNode.genericNote?, hshape]
    exact .note _ _
  | abstract ids =>
    simp only [hshape] at h hchildren ⊢
    obtain ⟨schema, hcompiles, rfl⟩ := run_map_ok h
    obtain ⟨schemas, mid, hcompiles, h⟩ := run_bind_ok hcompiles
    obtain ⟨rfl, rfl⟩ := run_pure_ok h
    exact arms_records hchildren hcompiles
  | custom props implements =>
    simp only [hshape] at h hchildren ⊢
    obtain ⟨compiled, mid, hcompiles, h⟩ := run_bind_ok h
    obtain ⟨rfl, rfl⟩ := run_pure_ok h
    exact properties_records hchildren hcompiles
  | tuple ids =>
    simp only [hshape] at h hchildren ⊢
    obtain ⟨items, hcompiles, rfl⟩ := run_map_ok h
    exact (elements_records hchildren hcompiles).2

end Layers

/-! ## Nodes -/

/-- what a node's compilation records, with so many levels left -/
def Notes (setting : Setting) (room : Nat) : Prop :=
  ∀ {id node walk outcome after}, setting.graph.get? id = some node →
    run (shape setting room node) walk = (.ok outcome, after) →
    Records setting (Translation.notes setting room node) walk after

variable {setting : Setting} {room : Nat}

/-- A reference records nothing of its own. If it is the first one to its type, the type is stored. -/
theorem reference_records (hmode : setting.options.dictionaryKeys ≠ .skip) (henough : room ≤ setting.options.maxDepth)
    (hbelow : Notes setting room) {id : ObjectId} {node : ObjectNode} (hfound : setting.graph.get? id = some node)
    (hdefined : node.kind.isDefined = true) {walk after : Walk} {schema : Schema}
    (h : run (reference setting (shape setting room) node) walk = (.ok schema, after)) :
    Records setting [] walk after := by
  rw [run_reference] at h
  split_ifs at h with hknown
  · cases h
    exact .refl _
  · have hfree := Bool.eq_false_iff.2 (not_or.1 hknown).2
    rcases hdefines : run (definition (shape setting room) node) (reserving node walk) with ⟨e | compiled, mid⟩
    · rw [hdefines] at h
      cases h
    · rw [hdefines] at h
      cases h
      obtain ⟨outcome, last, hcompiles, -, hlevel⟩ := definition_ok hdefines
      obtain ⟨hextended, hexpands, -⟩ := shape_runs setting id room hfound .refl hcompiles
      obtain ⟨level, rfl⟩ := Translates.exists_level ⟨room, hexpands⟩ hdefined
      obtain ⟨rfl, rfl⟩ := hlevel level rfl
      obtain ⟨fresh, hdiagnostics, hbuilt⟩ := hbelow hfound hcompiles
      let stored : Stored setting := ⟨id, node, level, hfound, hdefined, Translation.expand_mono henough hexpands⟩
      have hown : stored.notes = Translation.notes setting room node := Translation.notes_mono hmode henough hexpands
      have hreserved : mid.definitions.slot? node.identity = some .reserved :=
        hextended.kept ((Definitions.slot?_withSlot walk.definitions node.identity .reserved node.identity).trans
          (if_pos rfl))
      refine ⟨stored :: fresh, ?_, ?_⟩
      · rw [List.flatMap_cons, hown]
        exact hdiagnostics
      · rw [Definitions.fill_of_reserved hreserved]
        refine (Definitions.built_withSlot hreserved _).trans ?_
        rw [show (reserving node walk).definitions.built = walk.definitions.built from Definitions.built_reserve hfree]
          at hbuilt
        refine (hbuilt.append_right _).trans ?_
        rw [List.append_assoc]
        exact (List.perm_append_singleton stored.entry _).append_left _

theorem object_records (hmode : setting.options.dictionaryKeys ≠ .skip) (henough : room ≤ setting.options.maxDepth)
    (hbelow : Notes setting room) (id : ObjectId) :
    Recorded setting (Translation.childNotes setting (Translation.notes setting room))
      (object setting (shape setting room)) id := by
  intro walk outcome after h
  obtain ⟨-, hmeans, -⟩ := object_visits (shape_runs setting id room) .refl walk outcome after h
  constructor
  · cases outcome with
    | none => exact absurd hmeans (Translation.child_ne_none hmode room id)
    | some schema => exact ⟨schema, rfl⟩
  · obtain ⟨node, hfound, ⟨hdefined, schema, -, hrefers⟩ | ⟨hinlined, inner, hcompiles, -⟩⟩ := object_ok h
    · rw [Translation.childNotes_of_defined hfound hdefined]
      exact reference_records hmode henough hbelow hfound hdefined hrefers
    · rw [Translation.childNotes_of_inlined hfound hinlined]
      exact hbelow hfound hcompiles

/-- **What a node records.** When a node compiles, from any state and with at most the levels that the options allow,
the notes of its level are recorded, and those of the types that it stores. -/
theorem shape_records (hmode : setting.options.dictionaryKeys ≠ .skip) (henough : room ≤ setting.options.maxDepth) :
    Notes setting room := by
  induction room with
  | zero =>
    intro id node walk outcome after _ h
    rw [shape, Walk.run_throw] at h
    cases h
  | succ room ih =>
    intro id node walk outcome after hfound h
    obtain ⟨last, hcompiles, rfl⟩ := shape_succ h
    have hfewer := Nat.le_of_succ_le henough
    have hrecords := layer_records hmode (fun child _ => object_records hmode hfewer (ih hfewer) child) hcompiles
    exact hrecords

end Shape

end GraphSchema
