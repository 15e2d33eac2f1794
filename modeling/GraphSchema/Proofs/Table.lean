import GraphSchema.Proofs.Runs

/-!
What a walk does to its table of definitions.

- `Settled` says what a finished definition is: one level of a type of its name that the walk's origin reaches,
  with everything it refers to known.
- `Extends` relates the tables before and after a step: old slots stay as they are, and all that is new is
  settled. Slots that are reserved stay reserved, so the schema of a type on the way is only stored when the
  call that reserved its slot comes back.
- `shape_runs`: a node that compiles extends the table, and gives what the translation gives.
-/

namespace GraphSchema

namespace Definitions

/-- what stands under a key -/
def slot? (table : Definitions) (key : String) : Option Slot :=
  Members.get? table.slots key

/-- the table with a slot written under a key -/
def withSlot (table : Definitions) (key : String) (slot : Slot) : Definitions :=
  ⟨Members.insert table.slots key slot⟩

@[simp] theorem slot?_withSlot (table : Definitions) (key : String) (slot : Slot) (k : String) :
    (table.withSlot key slot).slot? k = if k = key then some slot else table.slot? k :=
  Members.get?_insert table.slots key slot k

theorem contains_iff {table : Definitions} {key : String} :
    table.contains key = true ↔ ∃ slot, table.slot? key = some slot :=
  Option.isSome_iff_exists

theorem slot?_of_not_contains {table : Definitions} {key : String} (h : table.contains key = false) :
    table.slot? key = none :=
  Option.isSome_eq_false_iff.1 h |> Option.isNone_iff_eq_none.1

theorem fill_of_reserved {table : Definitions} {key : String} (h : table.slot? key = some .reserved)
    (schema : Json) : table.fill key schema = table.withSlot key (.built schema) := by
  have hg : table.get? key = none := by
    unfold get?
    rw [show Members.get? table.slots key = some .reserved from h]
    rfl
  rw [fill, hg]
  rfl

variable {table : Definitions} {key k : String} {slot : Slot} {schema : Json}

theorem get?_of_not_contains (h : table.contains key = false) : table.get? key = none := by
  have hslot : Members.get? table.slots key = none := slot?_of_not_contains h
  rw [get?, hslot]
  rfl

theorem contains_of_get? (h : table.get? key = some schema) : table.contains key = true := by
  by_contra hnot
  rw [get?_of_not_contains (Bool.eq_false_iff.2 hnot)] at h
  cases h

theorem contains_withSlot : (table.withSlot key slot).contains k = true ↔ k = key ∨ table.contains k = true := by
  unfold contains
  rw [Members.contains_iff, Members.contains_iff]
  exact Members.mem_keys_insert

theorem contains_fill : (table.fill key schema).contains k = true ↔ k = key ∨ table.contains k = true := by
  unfold fill
  split_ifs with hbuilt
  · obtain ⟨stored, hstored⟩ := Option.isSome_iff_exists.1 hbuilt
    exact ⟨Or.inr, fun hk => hk.elim (fun hsame => hsame ▸ contains_of_get? hstored) id⟩
  · exact contains_withSlot

end Definitions

/-- whether an identity can be referred to: the document stands for it, or a slot of the table does -/
def Known (setting : Setting) (table : Definitions) (identity : String) : Prop :=
  setting.rootIdentity = some identity ∨ table.contains identity = true

/-- The schema under a key is the definition of a type of that name that the origin reaches, and all it refers
to is known. -/
structure Settled (setting : Setting) (origin : ObjectId) (table : Definitions) (key : String) (schema : Json)
    (id : ObjectId) (node : ObjectNode) : Prop where
  found : setting.graph.get? id = some node
  reached : setting.graph.Reaches setting.options.dictionaryKeys origin id
  defined : node.kind.isDefined = true
  named : node.identity = key
  notRoot : setting.rootIdentity ≠ some key
  translated : ∃ level, Translates setting node (some level) ∧ schema = (level.annotate node.metadata).toJson
  closed : ∀ target, Mentions setting id target → Known setting table target.identity

/-- the step from one table to a later one -/
structure Extends (setting : Setting) (origin : ObjectId) (before after : Definitions) : Prop where
  kept : ∀ {key slot}, before.slot? key = some slot → after.slot? key = some slot
  added : ∀ {key slot}, after.slot? key = some slot → before.slot? key = some slot ∨
    ∃ schema id node, slot = .built schema ∧ Settled setting origin after key schema id node
  distinct : (Members.keys before.slots).Nodup → (Members.keys after.slots).Nodup

variable {setting : Setting} {origin : ObjectId}

/-! ## Tables only grow -/

theorem Known.mono {small large : Definitions}
    (hle : ∀ key, small.contains key = true → large.contains key = true) {identity : String}
    (h : Known setting small identity) : Known setting large identity :=
  h.imp_right (hle identity)

theorem Settled.mono {small large : Definitions}
    (hle : ∀ key, small.contains key = true → large.contains key = true) {key : String} {schema : Json}
    {id : ObjectId} {node : ObjectNode} (h : Settled setting origin small key schema id node) :
    Settled setting origin large key schema id node :=
  { h with closed := fun target ht => (h.closed target ht).mono hle }

theorem Extends.contains {before after : Definitions} (h : Extends setting origin before after) (key : String)
    (hc : before.contains key = true) : after.contains key = true := by
  obtain ⟨slot, hs⟩ := Definitions.contains_iff.1 hc
  exact Definitions.contains_iff.2 ⟨slot, h.kept hs⟩

theorem Extends.refl (table : Definitions) : Extends setting origin table table :=
  ⟨id, Or.inl, id⟩

theorem Extends.trans {a b c : Definitions} (h1 : Extends setting origin a b)
    (h2 : Extends setting origin b c) : Extends setting origin a c where
  kept h := h2.kept (h1.kept h)
  added h := by
    rcases h2.added h with hb | hnew
    · rcases h1.added hb with ha | ⟨schema, id, node, rfl, hs⟩
      · exact Or.inl ha
      · exact Or.inr ⟨schema, id, node, rfl, hs.mono h2.contains⟩
    · exact Or.inr hnew
  distinct h := h2.distinct (h1.distinct h)

/-- **A definition.** A slot is reserved, what goes on below extends the table, and the slot is filled with a
settled schema: taken together the table is extended. -/
theorem Extends.define {before mid : Definitions} {key : String} {schema : Json} {id : ObjectId}
    {node : ObjectNode} (hnew : before.slot? key = none)
    (hmid : Extends setting origin (before.withSlot key .reserved) mid)
    (hs : Settled setting origin mid key schema id node) :
    Extends setting origin before (mid.fill key schema) := by
  have hres : mid.slot? key = some .reserved := hmid.kept (by simp)
  rw [Definitions.fill_of_reserved hres]
  have hle : ∀ k, mid.contains k = true → (mid.withSlot key (.built schema)).contains k = true := by
    intro k hk
    obtain ⟨slot, hslot⟩ := Definitions.contains_iff.1 hk
    rw [Definitions.contains_iff, Definitions.slot?_withSlot]
    split_ifs
    · exact ⟨_, rfl⟩
    · exact ⟨slot, hslot⟩
  refine ⟨fun {k slot} h => ?_, fun {k slot} h => ?_, fun h => ?_⟩
  · have hne : k ≠ key := by
      rintro rfl
      rw [hnew] at h
      cases h
    rw [Definitions.slot?_withSlot, if_neg hne]
    exact hmid.kept (by rw [Definitions.slot?_withSlot, if_neg hne]; exact h)
  · rw [Definitions.slot?_withSlot] at h
    split_ifs at h with hk
    · cases h
      exact Or.inr ⟨schema, id, node, rfl, hk ▸ hs.mono hle⟩
    · rcases hmid.added h with hb | ⟨schema', id', node', rfl, hs'⟩
      · rw [Definitions.slot?_withSlot, if_neg hk] at hb
        exact Or.inl hb
      · exact Or.inr ⟨schema', id', node', rfl, hs'.mono hle⟩
  · exact Members.nodup_keys_insert (hmid.distinct (Members.nodup_keys_insert h key .reserved)) key _

/-! ## Compilation extends the table -/

/-- What is left of a child that was visited: if it has a definition, it is known, and if it stands inside its
parent, all that it refers to is known. -/
def Referable (setting : Setting) (id : ObjectId) (walk : Walk) : Prop :=
  ∀ node, setting.graph.get? id = some node →
    (node.kind.isDefined = true → Known setting walk.definitions node.identity) ∧
    (node.kind.isDefined = false → ¬ Translates setting node none →
      ∀ target, Mentions setting id target → Known setting walk.definitions target.identity)

theorem tracks_extends : Shape.Tracks
    (fun before after => Extends setting origin before.definitions after.definitions) (Referable setting) where
  refl walk := Extends.refl walk.definitions
  trans := Extends.trans
  note walk _ := Extends.refl walk.definitions
  stays h hd node hn :=
    ⟨fun hdef => ((hd node hn).1 hdef).mono h.contains,
      fun hinl hkept target ht => ((hd node hn).2 hinl hkept target ht).mono h.contains⟩

/-- A node refers to what its children are, or refer to. -/
theorem Mentions.known {id : ObjectId} {node : ObjectNode} (hget : setting.graph.get? id = some node)
    {walk : Walk}
    (hd : ∀ child ∈ setting.graph.followed setting.options.dictionaryKeys node, Referable setting child walk)
    {target : ObjectNode} (h : Mentions setting id target) : Known setting walk.definitions target.identity := by
  have hedge : ∀ {b}, setting.graph.Follows setting.options.dictionaryKeys id b → Referable setting b walk := by
    rintro b ⟨node', hget', hb⟩
    cases hget.symm.trans hget'
    exact hd b hb
  cases h with
  | direct hfollows hfound hdefined => exact (hedge hfollows _ hfound).1 hdefined
  | through hfollows hfound hinlined hkept hrest => exact (hedge hfollows _ hfound).2 hinlined hkept target hrest

/-- what a node's compilation establishes, with so many levels left -/
def Compiles (setting : Setting) (origin : ObjectId) (room : Nat) : Prop :=
  ∀ {id node walk outcome after}, setting.graph.get? id = some node →
    setting.graph.Reaches setting.options.dictionaryKeys origin id →
    Walk.run (Shape.shape setting room node) walk = (.ok outcome, after) →
    Extends setting origin walk.definitions after.definitions ∧
      Translation.expand setting room node = some outcome ∧
      (outcome.isSome = true → ∀ target, Mentions setting id target →
        Known setting after.definitions target.identity)

theorem reference_runs {room : Nat} (hc : Compiles setting origin room) {id : ObjectId} {node : ObjectNode}
    (hget : setting.graph.get? id = some node)
    (hreach : setting.graph.Reaches setting.options.dictionaryKeys origin id)
    (hdef : node.kind.isDefined = true) {walk after : Walk} {schema : Schema}
    (h : Walk.run (Shape.reference setting (Shape.shape setting room) node) walk = (.ok schema, after)) :
    Extends setting origin walk.definitions after.definitions ∧
      schema = Translation.reference setting node.identity ∧
      Known setting after.definitions node.identity := by
  rw [Shape.run_reference] at h
  split_ifs at h with hknown
  · cases h
    exact ⟨Extends.refl _, rfl, hknown⟩
  · obtain ⟨hroot, hnew⟩ := not_or.1 hknown
    have hslot : walk.definitions.slot? node.identity = none :=
      Definitions.slot?_of_not_contains (Bool.eq_false_iff.2 hnew)
    rcases hrun : Walk.run (Shape.definition (Shape.shape setting room) node)
      (Shape.reserving node walk) with ⟨e | stored, mid⟩
    · rw [hrun] at h
      cases h
    · rw [hrun] at h
      cases h
      obtain ⟨outcome, last, hshape, hsame, hstored⟩ := Shape.definition_ok hrun
      obtain ⟨hext, hexp, hmen⟩ := hc hget hreach hshape
      -- a type that has a definition is never dropped
      obtain ⟨level, rfl⟩ := Translates.exists_level ⟨room, hexp⟩ hdef
      rw [(hstored level rfl).1, hsame]
      have hset : Settled setting origin last.definitions node.identity
          (level.annotate node.metadata).toJson id node :=
        ⟨hget, hreach, hdef, rfl, hroot, ⟨level, ⟨room, hexp⟩, rfl⟩, hmen rfl⟩
      have hall := Extends.define hslot hext hset
      refine ⟨hall, rfl, Or.inr ?_⟩
      have hres : last.definitions.slot? node.identity = some .reserved :=
        hext.kept (Definitions.slot?_withSlot walk.definitions node.identity .reserved node.identity |>.trans
          (if_pos rfl))
      rw [Definitions.fill_of_reserved hres, Definitions.contains_iff]
      exact ⟨_, (Definitions.slot?_withSlot ..).trans (if_pos rfl)⟩

theorem object_visits {room : Nat} (hc : Compiles setting origin room) {id : ObjectId}
    (hreach : setting.graph.Reaches setting.options.dictionaryKeys origin id) :
    Shape.Visits (fun before after => Extends setting origin before.definitions after.definitions)
      (Referable setting) (Translation.child setting (Translation.expand setting room))
      (Shape.object setting (Shape.shape setting room)) id := by
  intro walk outcome after h
  obtain ⟨node, hget, ⟨hdef, schema, rfl, hr⟩ | ⟨hinl, inner, hr, rfl⟩⟩ := Shape.object_ok h
  · obtain ⟨hext, rfl, hknown⟩ := reference_runs hc hget hreach hdef hr
    refine ⟨hext, Translation.child_eq_some_iff.2 ⟨node, hget, Or.inl ⟨hdef, rfl⟩⟩, fun node' hget' => ?_⟩
    cases hget.symm.trans hget'
    exact ⟨fun _ => hknown, fun hinl => absurd hdef (Bool.eq_false_iff.1 hinl)⟩
  · obtain ⟨hext, hexp, hmen⟩ := hc hget hreach hr
    refine ⟨hext, Translation.child_eq_some_iff.2 ⟨node, hget, Or.inr ⟨hinl, inner, hexp, rfl⟩⟩,
      fun node' hget' => ?_⟩
    cases hget.symm.trans hget'
    refine ⟨fun hdef => absurd hdef (Bool.eq_false_iff.1 hinl), fun _ hkept => hmen ?_⟩
    cases inner with
    | none => exact absurd ⟨room, hexp⟩ hkept
    | some level => rfl

/-- **Compiling a node.** When a node on a way from the origin compiles, from any state and with any number of
levels left, the table is extended, the outcome is the translation's, and unless the node is dropped, all that
it refers to is known. -/
theorem shape_runs (setting : Setting) (origin : ObjectId) (room : Nat) : Compiles setting origin room := by
  induction room with
  | zero =>
    intro id node walk outcome after _ _ h
    rw [Shape.shape, Walk.run_throw] at h
    cases h
  | succ room ih =>
    intro id node walk outcome after hget hreach h
    obtain ⟨last, hl, rfl⟩ := Shape.shape_succ h
    have hv : ∀ child ∈ setting.graph.followed setting.options.dictionaryKeys node, _ :=
      fun child hchild => object_visits ih (hreach.tail ⟨node, hget, hchild⟩)
    obtain ⟨hext, hexp, hdone⟩ := Shape.layer_ok tracks_extends hv hl
    exact ⟨hext, hexp, fun hs target ht => ht.known hget (hdone hs)⟩

end GraphSchema
