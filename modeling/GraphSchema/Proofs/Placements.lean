import Mathlib.Data.List.Nodup
import GraphSchema.Proofs.Emissions
import GraphSchema.Proofs.Markers

/-!
What stands at the places of the nodes inside a level.

- `Translation.placed_at_slot` : at the place of a child stands what the child means, dressed with what a property
  says about it.
- `Translation.nodup_places` : no two nodes stand at one place.
- `Translation.stands_at_place` : at the place of a node without a definition stands its own level, with what others say
  about it.
- `Translation.isOpaque_at_place` : at the place of a generic type stands an opaque object with its message.
- `Translation.notes_on_generics` : the notes on generic types are those on the nodes that stand somewhere, in order.
-/

namespace GraphSchema

open Json (Path Segment)

/-! ## Parts of values -/

namespace Json

/-- What is behind a path and then another one is behind the two together. -/
theorem at?_append (value : Json) (front back : Path) :
    value.at? (front ++ back) = (value.at? front).bind (·.at? back) := by
  induction front generalizing value with
  | nil => rfl
  | cons segment rest ih =>
    cases segment with
    | key name =>
      rw [List.cons_append, at?, at?, Option.bind_assoc]
      exact congrArg _ (funext fun part => ih part)
    | index i =>
      cases value with
      | arr items =>
        rw [List.cons_append, at?, at?, Option.bind_assoc]
        exact congrArg _ (funext fun part => ih part)
      | _ => rfl
    | unknown => rfl

theorem at?_key (members : Members Json) (name : String) (rest : Path) :
    (Json.obj members).at? (.key name :: rest) = (Members.get? members name).bind (·.at? rest) := rfl

end Json

/-! ## Dressing -/

namespace Schema

variable {schema : Schema}

/-- a schema with metadata and a default value, as a property writes them onto the schema of its member -/
def dressed (schema : Schema) (metadata : Option Metadata) (default : Option String) : Schema :=
  Translation.withDefault (schema.annotate metadata) default

theorem get?_dressed {keyword : String} (hother : keyword ∉ dressing) (metadata : Option Metadata)
    (default : Option String) :
    Members.get? (schema.dressed metadata default).members keyword = Members.get? schema.members keyword := by
  obtain ⟨hnotDefault, hnotAnnotation⟩ := not_or.1 (mt List.mem_cons.2 hother)
  cases default with
  | none => exact get?_annotate hnotAnnotation metadata
  | some literal => exact (get?_set_of_ne hnotDefault _).trans (get?_annotate hnotAnnotation metadata)

/-! ## Opaque objects -/

/-- An object that says nothing of its members. Its comment starts with a message, and apart from its type it has
dressing only, and the envelope of a document if it is the root of one. -/
structure Opaque (message : String) (schema : Schema) : Prop where
  typed : Members.get? schema.members "type" = some (.str "object")
  noted : ∃ rest, Members.get? schema.members "$comment" = some (.str (message ++ rest))
  bare : schema.keywords ⊆ "type" :: (dressing ++ envelope)

variable {message : String}

theorem isOpaque_generic (message : String) : ((ofType "object").comment message).Opaque message where
  typed := rfl
  noted := ⟨"", by rw [String.append_empty]; rfl⟩
  bare := by
    show ["type", "$comment"] ⊆ _
    decide

/-- What metadata add to a comment comes after it. -/
theorem commentOf_annotate (hstarts : ∃ rest, Members.get? schema.members "$comment" = some (.str (message ++ rest)))
    (metadata : Option Metadata) :
    ∃ rest, Members.get? (schema.annotate metadata).members "$comment" = some (.str (message ++ rest)) := by
  cases metadata with
  | none => exact hstarts
  | some m =>
    have haside {members : Members Json} {key : String} (hother : "$comment" ≠ key) (value : Option Json) :
        Members.get? (Metadata.insertSome members key value) "$comment" = Members.get? members "$comment" := by
      cases value with
      | none => rfl
      | some value => exact (Members.get?_insert members key value "$comment").trans (if_neg hother)
    rw [annotate_some]
    split_ifs
    · exact hstarts
    · obtain ⟨rest, hstarts⟩ := hstarts
      simp only [Metadata.applyTo]
      rw [haside (by decide), haside (by decide)]
      cases m.comment with
      | none =>
        rw [Option.map_none, Metadata.insertSome, haside (by decide), haside (by decide)]
        exact ⟨rest, hstarts⟩
      | some text =>
        rw [Option.map_some, Metadata.insertSome, Members.get?_insert, if_pos rfl, Metadata.commentOf,
          haside (by decide), haside (by decide), hstarts]
        unfold Metadata.joinComment
        simp only [Option.bind_some, Json.text?]
        split_ifs
        · exact ⟨rest, rfl⟩
        · exact ⟨rest ++ "\n" ++ text, by rw [String.append_assoc, String.append_assoc, String.append_assoc]⟩

theorem Opaque.annotate (h : schema.Opaque message) (metadata : Option Metadata) :
    (schema.annotate metadata).Opaque message where
  typed := (get?_annotate (by decide) metadata).trans h.typed
  noted := commentOf_annotate h.noted metadata
  bare keyword hmem := by
    rcases mem_keywords_annotate hmem with hannotates | hmem
    · exact List.mem_cons_of_mem _ (List.mem_append_left _ (List.mem_cons_of_mem _ hannotates))
    · exact h.bare hmem

theorem Opaque.dressed (h : schema.Opaque message) (metadata : Option Metadata) (default : Option String) :
    (schema.dressed metadata default).Opaque message := by
  have hannotated := h.annotate metadata
  cases default with
  | none => exact hannotated
  | some literal =>
    refine ⟨(get?_set_of_ne (by decide) _).trans hannotated.typed, ?_, fun keyword hmem => ?_⟩
    · obtain ⟨rest, hstarts⟩ := hannotated.noted
      exact ⟨rest, (get?_set_of_ne (by decide) _).trans hstarts⟩
    · rcases mem_keywords_set.1 hmem with rfl | hmem
      · decide
      · exact hannotated.bare hmem

/-- the keywords below which the children of a node stand -/
def branching : List String := ["oneOf", "items", "additionalProperties", "properties", "prefixItems"]

/-- whether one schema shows what another one has inside, and is an opaque object if the other one is -/
structure Covers (outer schema : Schema) : Prop where
  branches : ∀ {keyword}, keyword ∈ branching →
    Members.get? outer.members keyword = Members.get? schema.members keyword
  veiled : ∀ {message}, schema.Opaque message → outer.Opaque message

theorem Covers.refl (schema : Schema) : schema.Covers schema := ⟨fun _ => rfl, id⟩

theorem branching_not_dressing {keyword : String} (hbranches : keyword ∈ branching) : keyword ∉ dressing := by
  have hdisjoint : ∀ keyword ∈ branching, keyword ∉ dressing := by decide
  exact hdisjoint keyword hbranches

theorem Covers.dressed {outer : Schema} (h : outer.Covers schema) (metadata : Option Metadata)
    (default : Option String) : (outer.dressed metadata default).Covers schema where
  branches hbranch := (get?_dressed (branching_not_dressing hbranch) metadata default).trans (h.branches hbranch)
  veiled hopaque := (h.veiled hopaque).dressed metadata default

theorem Covers.annotate {outer : Schema} (h : outer.Covers schema) (metadata : Option Metadata) :
    (outer.annotate metadata).Covers schema :=
  h.dressed metadata none

/-- whether a path leads through a keyword below which children stand -/
def Descends (path : Path) : Prop := ∃ keyword ∈ branching, ∃ rest, path = .key keyword :: rest

/-- a relation of schemas to levels that dressing keeps, and that shows what the level has inside -/
structure Veils (Over : Schema → Schema → Prop) : Prop where
  refl (level : Schema) : Over level level
  dressed {outer level : Schema} (h : Over outer level) (metadata : Option Metadata) (default : Option String) :
    Over (outer.dressed metadata default) level
  branches {outer level : Schema} (h : Over outer level) {keyword : String} (hbranch : keyword ∈ branching) :
    Members.get? outer.members keyword = Members.get? level.members keyword

theorem veils_covers : Veils Covers := ⟨Covers.refl, Covers.dressed, Covers.branches⟩

theorem Veils.at? {Over : Schema → Schema → Prop} (hveils : Veils Over) {outer : Schema} (h : Over outer schema)
    {path : Path} (hdescends : Descends path) : outer.toJson.at? path = schema.toJson.at? path := by
  obtain ⟨keyword, hbranch, rest, rfl⟩ := hdescends
  rw [toJson, Json.at?_key, hveils.branches h hbranch]
  rfl

end Schema

/-! ## Generic types -/

theorem ObjectNode.genericNote?_eq_some {node : ObjectNode} {note : Diagnostic} (h : node.genericNote? = some note) :
    ∃ base arguments, node.shape = .generic base arguments ∧
      note = ⟨node.identity, Shape.genericMessage node.identity base arguments.length⟩ := by
  unfold genericNote? at h
  split at h
  · rename_i base arguments hshape
    cases h
    exact ⟨base, arguments, hshape, rfl⟩
  · cases h

theorem ObjectNode.genericNote?_of_defined {node : ObjectNode} (hdefined : node.kind.isDefined = true) :
    node.genericNote? = none := by
  cases h : node.genericNote? with
  | none => rfl
  | some note =>
    obtain ⟨base, arguments, hshape, -⟩ := genericNote?_eq_some h
    rw [kind, hshape] at hdefined
    cases hdefined

namespace Translation

open Schema (Descends branching)

/-! ## Slots -/

section Slots

variable {meaning : ObjectId → Option (Option Schema)} {setting : Setting} {node : ObjectNode} {schema : Schema}

theorem mem_indexed {start : Nat} {ids : List ObjectId} {slot : Path × ObjectId} (h : slot ∈ indexed start ids) :
    ∃ i, slot.1 = [.index (start + i)] ∧ ids[i]? = some slot.2 := by
  induction ids generalizing start with
  | nil => cases h
  | cons id rest ih =>
    rcases List.mem_cons.1 h with rfl | hmem
    · exact ⟨0, rfl, rfl⟩
    · obtain ⟨i, hplace, hfound⟩ := ih hmem
      exact ⟨i + 1, by rw [hplace, Nat.add_right_comm, Nat.add_assoc], hfound⟩

theorem elements_at {ids : List ObjectId} {items : List Json} (h : elements meaning ids = some (some items)) {i : Nat}
    {id : ObjectId} (hfound : ids[i]? = some id) :
    ∃ inner, meaning id = some (some inner) ∧ items[i]? = some inner.toJson := by
  induction ids generalizing items i with
  | nil => cases hfound
  | cons head rest ih =>
    obtain ⟨first, hmeans, h⟩ := Option.bind_eq_some_iff.1 h
    cases first with
    | none => cases h
    | some inner =>
      obtain ⟨others, hmeansRest, ho⟩ := Option.map_eq_some_iff.1 h
      obtain ⟨tail, rfl, rfl⟩ := Option.map_eq_some_iff.1 ho
      cases i with
      | zero =>
        cases hfound
        exact ⟨inner, hmeans, rfl⟩
      | succ i => exact ih hmeansRest hfound

/-- The arms are the implementations that are kept, in order. -/
theorem arms_at {ids : List ObjectId} {schemas : List Json} (h : arms meaning ids = some schemas) {i : Nat}
    {id : ObjectId} (hfound : (ids.filter (kept meaning))[i]? = some id) :
    ∃ inner, meaning id = some (some inner) ∧ schemas[i]? = some inner.toJson := by
  induction ids generalizing schemas i with
  | nil => cases hfound
  | cons head rest ih =>
    obtain ⟨first, hmeans, h⟩ := Option.bind_eq_some_iff.1 h
    obtain ⟨others, hmeansRest, rfl⟩ := Option.map_eq_some_iff.1 h
    cases first with
    | none =>
      rw [List.filter_cons_of_neg (by simp [kept, hmeans])] at hfound
      exact ih hmeansRest hfound
    | some inner =>
      rw [List.filter_cons_of_pos (by simp [kept, hmeans])] at hfound
      cases i with
      | zero =>
        cases hfound
        exact ⟨inner, hmeans, rfl⟩
      | succ i => exact ih hmeansRest hfound

theorem mem_memberSlots {props : List Property} {slot : Path × ObjectId} :
    slot ∈ memberSlots meaning props ↔
      ∃ p ∈ props, p.member? = some slot.2 ∧ kept meaning slot.2 = true ∧ slot.1 = [.key p.name] := by
  unfold memberSlots
  rw [List.mem_filterMap]
  refine exists_congr fun p => and_congr_right fun _ => ?_
  rw [Option.map_eq_some_iff]
  constructor
  · rintro ⟨id, hfiltered, rfl⟩
    obtain ⟨hmember, hkeeps⟩ := Option.filter_eq_some_iff.1 hfiltered
    exact ⟨hmember, hkeeps, rfl⟩
  · rintro ⟨hmember, hkeeps, hplace⟩
    exact ⟨slot.2, Option.filter_eq_some_iff.2 ⟨hmember, hkeeps⟩, Prod.ext hplace.symm rfl⟩

theorem property_at {p : Property} {id : ObjectId} (hmember : p.member? = some id) (hkeeps : kept meaning id = true)
    {outcome : Option Schema} (h : property meaning p = some outcome) :
    ∃ inner default, meaning id = some (some inner) ∧ outcome = some (inner.dressed p.metadata default) := by
  unfold Property.member? at hmember
  unfold property at h
  cases hshape : p.shape with
  | override fragment =>
    rw [hshape] at hmember
    cases hmember
  | custom member default =>
    rw [hshape] at hmember h
    cases hmember
    obtain ⟨found, hmeans, rfl⟩ := Option.map_eq_some_iff.1 h
    cases found with
    | none => simp [kept, hmeans] at hkeeps
    | some inner => exact ⟨inner, default, hmeans, rfl⟩

theorem properties_at {props : List Property} {compiled : List (Property × Schema)}
    (h : properties meaning props = some compiled) {p : Property} (hmem : p ∈ props) {id : ObjectId}
    (hmember : p.member? = some id) (hkeeps : kept meaning id = true) :
    ∃ inner default, meaning id = some (some inner) ∧ (p, inner.dressed p.metadata default) ∈ compiled := by
  induction props generalizing compiled with
  | nil => cases hmem
  | cons head rest ih =>
    obtain ⟨first, hmeans, h⟩ := Option.bind_eq_some_iff.1 h
    obtain ⟨others, hmeansRest, rfl⟩ := Option.map_eq_some_iff.1 h
    rcases List.mem_cons.1 hmem with rfl | hmem
    · obtain ⟨inner, default, hmeansMember, rfl⟩ := property_at hmember hkeeps hmeans
      exact ⟨inner, default, hmeansMember, List.mem_append_left _ (List.mem_singleton_self _)⟩
    · obtain ⟨inner, default, hmeansMember, hfound⟩ := ih hmeansRest hmem
      exact ⟨inner, default, hmeansMember, List.mem_append_right _ hfound⟩

theorem properties_sublist {props : List Property} {compiled : List (Property × Schema)}
    (h : properties meaning props = some compiled) : (compiled.map (·.1)).Sublist props := by
  induction props generalizing compiled with
  | nil =>
    cases h
    exact List.Sublist.slnil
  | cons head rest ih =>
    obtain ⟨first, hmeans, h⟩ := Option.bind_eq_some_iff.1 h
    obtain ⟨others, hmeansRest, rfl⟩ := Option.map_eq_some_iff.1 h
    cases first with
    | none => exact (ih hmeansRest).cons head
    | some schema => exact (ih hmeansRest).cons_cons head

/-- the members under `properties` -/
def propertyTable (compiled : List (Property × Schema)) : Members Json :=
  Members.ofList (compiled.map fun entry => (entry.1.name, entry.2.toJson))

theorem get?_properties (compiled : List (Property × Schema)) :
    Members.get? (Shape.objectSchema compiled).members "properties" = some (.obj (propertyTable compiled)) := by
  unfold Shape.objectSchema
  dsimp only
  split_ifs
  · rfl
  · exact (Schema.get?_set_of_ne (by decide) _).trans rfl

theorem get?_propertyTable {compiled : List (Property × Schema)}
    (hnames : ((compiled.map (·.1)).map (·.name)).Nodup) {p : Property} (hmem : (p, schema) ∈ compiled) :
    Members.get? (propertyTable compiled) p.name = some schema.toJson := by
  have hdistinct : (Members.keys (compiled.map fun entry => (entry.1.name, entry.2.toJson))).Nodup := by
    rw [List.map_map] at hnames
    rwa [Members.keys, List.map_map]
  have hwritten : propertyTable compiled = compiled.map fun entry => (entry.1.name, entry.2.toJson) :=
    Members.insertAll_of_nodup (by rwa [List.nil_append])
  rw [hwritten, Members.get?_eq_some_iff hdistinct]
  exact List.mem_map.2 ⟨_, hmem, rfl⟩

/-- **Children at their slots.** At the place of a child in the level of a node stands what the child means, with what
a property says about it. -/
theorem placed_at_slot
    (hnames : ∀ {props implements}, node.shape = .custom props implements → (props.map (·.name)).Nodup)
    (h : Level meaning setting node schema) {slot : Path × ObjectId} (hmem : slot ∈ slots meaning setting node) :
    ∃ inner metadata default, meaning slot.2 = some (some inner) ∧
      schema.toJson.at? slot.1 = some (inner.dressed metadata default).toJson := by
  unfold slots at hmem
  cases h with
  | primitive hshape | raw hshape | generic hshape text =>
    rw [hshape] at hmem
    cases hmem
  | nullable hshape hmeans =>
    rw [hshape] at hmem
    cases List.mem_singleton.1 hmem
    exact ⟨_, none, none, hmeans, rfl⟩
  | array hshape hmeans =>
    rw [hshape] at hmem
    cases List.mem_singleton.1 hmem
    exact ⟨_, none, none, hmeans, rfl⟩
  | map hshape haccepted hmeans =>
    rw [hshape] at hmem
    simp only [haccepted, if_true] at hmem
    cases List.mem_singleton.1 hmem
    exact ⟨_, none, none, hmeans, rfl⟩
  | commented hshape haccepted hmeans text =>
    rw [hshape] at hmem
    simp only [haccepted, if_true] at hmem
    cases List.mem_singleton.1 hmem
    exact ⟨_, none, none, hmeans, rfl⟩
  | refused hshape hdenied keyNode =>
    rw [hshape] at hmem
    simp only [hdenied] at hmem
    cases hmem
  | @union ids schemas hshape hmeans =>
    rw [hshape] at hmem
    obtain ⟨⟨_, id⟩, hinside, rfl⟩ := List.mem_map.1 hmem
    obtain ⟨i, rfl, hfound⟩ := mem_indexed hinside
    obtain ⟨inner, hmeansChild, hitem⟩ := arms_at hmeans hfound
    refine ⟨inner, none, none, hmeansChild, ?_⟩
    have hsome : ¬ schemas.isEmpty = true := by
      intro hempty
      rw [List.isEmpty_iff.1 hempty] at hitem
      cases hitem
    rw [unionSchema, if_neg hsome, Nat.zero_add]
    show schemas[i]?.bind (·.at? []) = _
    rw [hitem]
    rfl
  | object hshape hmeans =>
    rw [hshape] at hmem
    obtain ⟨⟨_, id⟩, hinside, rfl⟩ := List.mem_map.1 hmem
    obtain ⟨p, hproperty, hmember, hkeeps, rfl⟩ := mem_memberSlots.1 hinside
    obtain ⟨inner, default, hmeansMember, hfound⟩ := properties_at hmeans hproperty hmember hkeeps
    refine ⟨inner, p.metadata, default, hmeansMember, ?_⟩
    rw [Schema.toJson, Json.at?_key, get?_properties, Option.bind_some, Json.at?_key,
      get?_propertyTable ((properties_sublist hmeans).map _ |>.nodup (hnames hshape)) hfound]
    rfl
  | @tuple ids items hshape hmeans =>
    rw [hshape] at hmem
    obtain ⟨⟨_, id⟩, hinside, rfl⟩ := List.mem_map.1 hmem
    obtain ⟨i, rfl, hfound⟩ := mem_indexed hinside
    obtain ⟨inner, hmeansChild, hitem⟩ := elements_at hmeans hfound
    refine ⟨inner, none, none, hmeansChild, ?_⟩
    rw [Nat.zero_add]
    show items[i]?.bind (·.at? []) = _
    rw [hitem]
    rfl

theorem descends_slot {slot : Path × ObjectId} (hmem : slot ∈ slots meaning setting node) : Descends slot.1 := by
  have hbelow {keyword : String} (hbranches : keyword ∈ branching) {inside : List (Path × ObjectId)}
      (hmem : slot ∈ under keyword inside) : Descends slot.1 := by
    obtain ⟨⟨rest, id⟩, -, rfl⟩ := List.mem_map.1 hmem
    exact ⟨keyword, hbranches, rest, rfl⟩
  unfold slots at hmem
  split at hmem
  · cases hmem
  · cases hmem
  · cases hmem
  · exact hbelow (by decide) hmem
  · exact hbelow (by decide) hmem
  · split_ifs at hmem
    · exact hbelow (by decide) hmem
    · cases hmem
  · exact hbelow (by decide) hmem
  · exact hbelow (by decide) hmem
  · exact hbelow (by decide) hmem

/-- Compilation goes to the children at the slots. -/
theorem followed_of_slot {slot : Path × ObjectId} (hmem : slot ∈ slots meaning setting node) :
    slot.2 ∈ setting.graph.followed setting.options.dictionaryKeys node := by
  unfold slots at hmem
  unfold TypeGraph.followed
  cases hshape : node.shape with
  | system p | override fragment | generic base arguments =>
    rw [hshape] at hmem
    cases hmem
  | nullable element | array base element =>
    rw [hshape] at hmem
    rw [List.mem_singleton.1 hmem]
    exact List.mem_singleton_self _
  | map base key value =>
    rw [hshape] at hmem
    dsimp only at hmem ⊢
    split_ifs at hmem ⊢
    · rw [List.mem_singleton.1 hmem]
      exact List.mem_singleton_self _
    · cases hmem
  | abstract ids =>
    rw [hshape] at hmem
    obtain ⟨inner, hinside, rfl⟩ := List.mem_map.1 hmem
    obtain ⟨i, -, hfound⟩ := mem_indexed hinside
    exact List.mem_of_mem_filter (List.mem_of_getElem? hfound)
  | custom props implements =>
    rw [hshape] at hmem
    obtain ⟨inner, hinside, rfl⟩ := List.mem_map.1 hmem
    obtain ⟨p, hproperty, hmember, -, -⟩ := mem_memberSlots.1 hinside
    exact List.mem_filterMap.2 ⟨p, hproperty, hmember⟩
  | tuple ids =>
    rw [hshape] at hmem
    obtain ⟨inner, hinside, rfl⟩ := List.mem_map.1 hmem
    obtain ⟨i, -, hfound⟩ := mem_indexed hinside
    exact List.mem_of_getElem? hfound

theorem exists_indexed {id : ObjectId} {ids : List ObjectId} (hmem : id ∈ ids) (start : Nat) :
    ∃ path, (path, id) ∈ indexed start ids := by
  induction ids generalizing start with
  | nil => cases hmem
  | cons head rest ih =>
    rcases List.mem_cons.1 hmem with rfl | hmem
    · exact ⟨_, List.mem_cons_self⟩
    · obtain ⟨path, hlater⟩ := ih hmem (start + 1)
      exact ⟨path, List.mem_cons_of_mem _ hlater⟩

/-- Every child that compilation goes to and that is not dropped has a slot. -/
theorem exists_slot {id : ObjectId} (hmem : id ∈ setting.graph.followed setting.options.dictionaryKeys node)
    (hkeeps : kept meaning id = true) : ∃ path, (path, id) ∈ slots meaning setting node := by
  have hbelow {keyword : String} {inside : List (Path × ObjectId)} (h : ∃ path, (path, id) ∈ inside) :
      ∃ path, (path, id) ∈ under keyword inside := by
    obtain ⟨path, hmem⟩ := h
    exact ⟨_, List.mem_map_of_mem hmem⟩
  unfold TypeGraph.followed at hmem
  unfold slots
  cases hshape : node.shape with
  | system p | override fragment | generic base arguments =>
    rw [hshape] at hmem
    cases hmem
  | nullable element =>
    rw [hshape] at hmem
    exact hbelow (exists_indexed hmem 0)
  | array base element =>
    rw [hshape] at hmem
    exact hbelow ⟨[], by rw [List.mem_singleton.1 hmem]; exact List.mem_singleton_self _⟩
  | map base key value =>
    rw [hshape] at hmem
    dsimp only at hmem ⊢
    split_ifs at hmem ⊢
    · exact hbelow ⟨[], by rw [List.mem_singleton.1 hmem]; exact List.mem_singleton_self _⟩
    · cases hmem
  | abstract ids =>
    rw [hshape] at hmem
    exact hbelow (exists_indexed (List.mem_filter.2 ⟨hmem, hkeeps⟩) 0)
  | custom props implements =>
    rw [hshape] at hmem
    obtain ⟨p, hproperty, hmember⟩ := List.mem_filterMap.1 hmem
    exact hbelow ⟨_, mem_memberSlots.2 ⟨p, hproperty, hmember, hkeeps, rfl⟩⟩
  | tuple ids =>
    rw [hshape] at hmem
    exact hbelow (exists_indexed hmem 0)

/-- Different places of one length, none of which is therefore inside another one. -/
def Apart (slots : List (Path × ObjectId)) : Prop :=
  (slots.map (·.1)).Nodup ∧ ∃ n, ∀ slot ∈ slots, slot.1.length = n

theorem apart_nil : Apart [] := ⟨List.nodup_nil, 0, fun _ hmem => by cases hmem⟩

theorem apart_single (path : Path) (id : ObjectId) : Apart [(path, id)] :=
  ⟨List.nodup_singleton path, path.length, fun slot hmem => by rw [List.mem_singleton.1 hmem]⟩

theorem Apart.under {slots : List (Path × ObjectId)} (h : Apart slots) (keyword : String) :
    Apart (Translation.under keyword slots) := by
  obtain ⟨hdistinct, n, hlength⟩ := h
  refine ⟨?_, n + 1, fun slot hmem => ?_⟩
  · have hmapped : (Translation.under keyword slots).map (·.1) = (slots.map (·.1)).map (.key keyword :: ·) := by
      rw [Translation.under, List.map_map, List.map_map]
      rfl
    rw [hmapped]
    exact hdistinct.map (List.cons_injective)
  · obtain ⟨inner, hinner, rfl⟩ := List.mem_map.1 hmem
    exact congrArg (· + 1) (hlength inner hinner)

theorem apart_indexed (start : Nat) (ids : List ObjectId) : Apart (indexed start ids) := by
  refine ⟨?_, 1, fun slot hmem => ?_⟩
  · induction ids generalizing start with
    | nil => exact List.nodup_nil
    | cons id rest ih =>
      refine List.nodup_cons.2 ⟨fun hmem => ?_, ih (start + 1)⟩
      obtain ⟨slot, hlater, hsame⟩ := List.mem_map.1 hmem
      obtain ⟨i, hplace, -⟩ := mem_indexed hlater
      rw [hplace] at hsame
      simp only [List.cons.injEq, Segment.index.injEq, and_true] at hsame
      omega
  · obtain ⟨i, hplace, -⟩ := mem_indexed hmem
    rw [hplace]
    rfl

theorem apart_memberSlots {props : List Property} (hnames : (props.map (·.name)).Nodup) :
    Apart (memberSlots meaning props) := by
  refine ⟨?_, 1, fun slot hmem => ?_⟩
  · induction props with
    | nil => exact List.nodup_nil
    | cons p rest ih =>
      obtain ⟨hfresh, hnames⟩ := List.nodup_cons.1 hnames
      unfold memberSlots at ih ⊢
      rw [List.filterMap_cons]
      split
      · exact ih hnames
      · rename_i slot hslot
        obtain ⟨id, -, rfl⟩ := Option.map_eq_some_iff.1 hslot
        refine List.nodup_cons.2 ⟨fun hmem => ?_, ih hnames⟩
        obtain ⟨other, hlater, hsame⟩ := List.mem_map.1 hmem
        obtain ⟨q, hproperty, -, -, hplace⟩ := mem_memberSlots.1 hlater
        rw [hplace] at hsame
        have hname : q.name = p.name := Segment.key.inj (List.cons.inj hsame).1
        exact hfresh (List.mem_map.2 ⟨q, hproperty, hname⟩)
  · obtain ⟨p, -, -, -, hplace⟩ := mem_memberSlots.1 hmem
    rw [hplace]
    rfl

theorem apart_slots
    (hnames : ∀ {props implements}, node.shape = .custom props implements → (props.map (·.name)).Nodup) :
    Apart (slots meaning setting node) := by
  unfold slots
  cases hshape : node.shape with
  | system p | override fragment | generic base arguments => exact apart_nil
  | nullable element => exact (apart_indexed 0 [element]).under _
  | array base element => exact (apart_single [] element).under _
  | map base key value =>
    simp only
    split_ifs
    · exact (apart_single [] value).under _
    · exact apart_nil
  | abstract ids => exact (apart_indexed 0 _).under _
  | custom props implements => exact (apart_memberSlots (hnames hshape)).under _
  | tuple ids => exact (apart_indexed 0 ids).under _

end Slots

/-! ## Places -/

section Places

variable {setting : Setting} {node : ObjectNode}

/-- the node itself and those inside its level, with their places -/
def places (setting : Setting) (fuel : Nat) (node : ObjectNode) : List (Path × ObjectNode) :=
  ([], node) :: emissions setting fuel node

theorem mem_emissions {fuel : Nat} {place : Path × ObjectNode} (hmem : place ∈ emissions setting (fuel + 1) node) :
    ∃ slot ∈ slots (child setting (expand setting fuel)) setting node,
      ∃ inner ∈ standing setting (emissions setting fuel) slot.2, place = (slot.1 ++ inner.1, inner.2) := by
  obtain ⟨slot, hslot, hmem⟩ := List.mem_flatMap.1 hmem
  obtain ⟨inner, hstands, rfl⟩ := List.mem_map.1 hmem
  exact ⟨slot, hslot, inner, hstands, rfl⟩

theorem paths_emissions (fuel : Nat) : (emissions setting (fuel + 1) node).map (·.1) =
    (slots (child setting (expand setting fuel)) setting node).flatMap fun slot =>
      ((standing setting (emissions setting fuel) slot.2).map (·.1)).map (slot.1 ++ ·) := by
  rw [emissions, List.map_flatMap]
  refine List.flatMap_congr fun slot _ => ?_
  rw [List.map_map, List.map_map]
  rfl

theorem descends_emission {fuel : Nat} {place : Path × ObjectNode} (hmem : place ∈ emissions setting fuel node) :
    Descends place.1 := by
  cases fuel with
  | zero => cases hmem
  | succ fuel =>
    obtain ⟨slot, hslot, inner, -, rfl⟩ := mem_emissions hmem
    obtain ⟨keyword, hbranches, rest, hplace⟩ := descends_slot hslot
    exact ⟨keyword, hbranches, rest ++ inner.1, by rw [hplace]; rfl⟩

theorem standing_of_defined {inside : ObjectNode → List (Path × ObjectNode)} {id : ObjectId}
    (hfound : setting.graph.get? id = some node) (hdefined : node.kind.isDefined = true) :
    standing setting inside id = [([], node)] := by
  simp only [standing, hfound, hdefined, if_true]

theorem standing_of_inlined {fuel : Nat} {id : ObjectId} (hfound : setting.graph.get? id = some node)
    (hinlined : node.kind.isDefined = false) :
    standing setting (emissions setting fuel) id = places setting fuel node := by
  simp only [standing, hfound, hinlined]
  rfl

/-- What stands inside a child stands inside the node, behind the slot of the child. -/
theorem mem_places_of_slot {fuel : Nat} {slot : Path × ObjectId} {target : ObjectNode}
    (hslot : slot ∈ slots (child setting (expand setting fuel)) setting node)
    (htarget : setting.graph.get? slot.2 = some target) (hinlined : target.kind.isDefined = false)
    {place : Path × ObjectNode} (hmem : place ∈ places setting fuel target) :
    (slot.1 ++ place.1, place.2) ∈ places setting (fuel + 1) node := by
  refine List.mem_cons_of_mem _ (List.mem_flatMap.2 ⟨slot, hslot, List.mem_map.2 ⟨place, ?_, rfl⟩⟩)
  rwa [standing_of_inlined htarget hinlined]

/-- **One node at a place.** -/
theorem nodup_places (hvalid : setting.graph.validate = .ok ()) (fuel : Nat) {id : ObjectId}
    (hfound : setting.graph.get? id = some node) : ((places setting fuel node).map (·.1)).Nodup := by
  induction fuel generalizing id node with
  | zero => exact List.nodup_singleton _
  | succ fuel ih =>
    have hnowhere : [] ∉ (emissions setting (fuel + 1) node).map (·.1) := by
      intro hmem
      obtain ⟨place, hmem, hempty⟩ := List.mem_map.1 hmem
      obtain ⟨keyword, -, rest, hfront⟩ := descends_emission hmem
      rw [hfront] at hempty
      cases hempty
    refine List.nodup_cons.2 ⟨hnowhere, ?_⟩
    have hapart : Apart (slots (child setting (expand setting fuel)) setting node) :=
      apart_slots (TypeGraph.nodup_names hvalid hfound)
    obtain ⟨hdistinct, n, hlength⟩ := hapart
    have hinner (target : ObjectId) : ((standing setting (emissions setting fuel) target).map (·.1)).Nodup := by
      cases htarget : setting.graph.get? target with
      | none => simp [standing, htarget]
      | some other =>
        cases hdefined : other.kind.isDefined with
        | true => rw [standing_of_defined htarget hdefined]; exact List.nodup_singleton _
        | false => rw [standing_of_inlined htarget hdefined]; exact ih htarget
    rw [paths_emissions, List.nodup_flatMap]
    refine ⟨fun slot _ => (hinner slot.2).map (List.append_right_injective slot.1), ?_⟩
    rw [List.Nodup, List.pairwise_map] at hdistinct
    refine hdistinct.imp_of_mem fun {a b} hmemA hmemB hne => ?_
    -- a path below both slots would begin with both, and they are equally long
    intro path hbelow hother
    obtain ⟨x, -, rfl⟩ := List.mem_map.1 hbelow
    obtain ⟨y, -, hsame⟩ := List.mem_map.1 hother
    exact hne (List.append_inj hsame ((hlength b hmemB).trans (hlength a hmemA).symm)).1.symm

/-- **What stands at a place.** At the place of a node without a definition in the level of another one, or in a schema
over that level, stands a schema over the level of the node. All that the one node refers to, the other one does. -/
theorem stands_at_place {Over : Schema → Schema → Prop} (hveils : Schema.Veils Over)
    (hvalid : setting.graph.validate = .ok ()) {fuel : Nat} {id : ObjectId} (hfound : setting.graph.get? id = some node)
    {level : Schema} (hexpands : expand setting fuel node = some (some level)) {outer : Schema}
    (hcovers : Over outer level)
    {place : Path × ObjectNode} (hmem : place ∈ places setting fuel node) (hinlined : place.2.kind.isDefined = false) :
    ∃ (target : ObjectId) (less : Nat) (inner schema : Schema), setting.graph.get? target = some place.2 ∧
      expand setting less place.2 = some (some inner) ∧ outer.toJson.at? place.1 = some schema.toJson ∧
        Over schema inner ∧ ∀ other, Mentions setting target other → Mentions setting id other := by
  induction fuel generalizing id node level outer place with
  | zero => cases hexpands
  | succ fuel ih =>
    rcases List.mem_cons.1 hmem with rfl | hmem
    · exact ⟨id, fuel + 1, level, outer, hfound, hexpands, rfl, hcovers, fun _ hmentioned => hmentioned⟩
    · have hdescends := descends_emission hmem
      obtain ⟨slot, hslot, inner, hstands, rfl⟩ := mem_emissions hmem
      obtain ⟨schema, metadata, default, hmeans, hhere⟩ :=
        placed_at_slot (TypeGraph.nodup_names hvalid hfound) (level_of_layer hexpands) hslot
      rw [hveils.at? hcovers hdescends, Json.at?_append, hhere, Option.bind_some]
      obtain ⟨target, htarget, ⟨hdefined, -⟩ | ⟨hinlinedTarget, outcome, hexpandsTarget, hwrapped⟩⟩ :=
        child_eq_some_iff.1 hmeans
      · rw [standing_of_defined htarget hdefined] at hstands
        cases List.mem_singleton.1 hstands
        cases hdefined.symm.trans hinlined
      · rw [standing_of_inlined htarget hinlinedTarget] at hstands
        obtain ⟨below, rfl, rfl⟩ := Option.map_eq_some_iff.1 hwrapped.symm
        have hedge : setting.graph.Follows setting.options.dictionaryKeys id slot.2 :=
          ⟨node, hfound, followed_of_slot hslot⟩
        have hstays : ¬ Translates setting target none := fun hdrops => by cases hdrops.unique ⟨fuel, hexpandsTarget⟩
        obtain ⟨last, less, final, shown, hlast, hexpandsLast, hthere, hcoversLast, hmentions⟩ :=
          ih htarget hexpandsTarget (hveils.dressed (hveils.dressed (hveils.refl below) _ none) _ _) hstands hinlined
        exact ⟨last, less, final, shown, hlast, hexpandsLast, hthere, hcoversLast,
          fun other hmentioned => .through hedge htarget hinlinedTarget hstays (hmentions other hmentioned)⟩

/-- **Opaque objects.** At the place of a generic type in the level of a node, or in a schema that covers the level,
stands an opaque object with the message of its note. -/
theorem isOpaque_at_place (hvalid : setting.graph.validate = .ok ()) {fuel : Nat} {id : ObjectId}
    (hfound : setting.graph.get? id = some node) {level : Schema}
    (hexpands : expand setting fuel node = some (some level))
    {outer : Schema} (hcovers : outer.Covers level) {place : Path × ObjectNode}
    (hmem : place ∈ places setting fuel node)
    {note : Diagnostic} (hnotes : place.2.genericNote? = some note) :
    ∃ schema : Schema, outer.toJson.at? place.1 = some schema.toJson ∧ schema.Opaque note.message := by
  have hinlined : place.2.kind.isDefined = false := by
    by_contra hdefined
    rw [ObjectNode.genericNote?_of_defined (by simpa using hdefined)] at hnotes
    cases hnotes
  obtain ⟨_, less, inner, schema, -, hexpands, hhere, hcovers, -⟩ :=
    stands_at_place Schema.veils_covers hvalid hfound hexpands hcovers hmem hinlined
  obtain ⟨base, arguments, hshape, rfl⟩ := ObjectNode.genericNote?_eq_some hnotes
  cases less with
  | zero => cases hexpands
  | succ less =>
    rw [expand, layer, hshape] at hexpands
    cases hexpands
    exact ⟨schema, hhere, hcovers.veiled (Schema.isOpaque_generic _)⟩

/-- the notes on generic types among notes -/
def onGenerics (graph : TypeGraph) (notes : List Diagnostic) : List Diagnostic :=
  notes.filter (· ∈ graph.genericNotes)

theorem onGenerics_flatMap {α : Type} (graph : TypeGraph) (notes : α → List Diagnostic) (items : List α) :
    onGenerics graph (items.flatMap notes) = items.flatMap fun item => onGenerics graph (notes item) := by
  unfold onGenerics
  rw [List.filter_flatMap]

theorem onGenerics_of_notMem {graph : TypeGraph} {d : Diagnostic} (hother : d ∉ graph.genericNotes) :
    onGenerics graph [d] = [] := by
  rw [onGenerics, List.filter_cons_of_neg (by simpa using hother)]
  rfl

theorem onGenerics_rawNote (graph : TypeGraph) (fragment : String) {note : FragmentError → Diagnostic}
    (hother : ∀ error, note error ∉ graph.genericNotes) : onGenerics graph (rawNote fragment note) = [] := by
  unfold rawNote
  split
  · rfl
  · exact onGenerics_of_notMem (hother _)

theorem onGenerics_genericNote? {graph : TypeGraph} (hmem : node ∈ graph.objects) :
    onGenerics graph node.genericNote?.toList = node.genericNote?.toList := by
  refine List.filter_eq_self.2 fun d hnote => ?_
  simpa using TypeGraph.mem_genericNotes hmem (Option.mem_toList.1 hnote)

theorem flatMap_under {α : Type} (keyword : String) (slots : List (Path × ObjectId)) (f : ObjectId → List α) :
    (under keyword slots).flatMap (fun slot => f slot.2) = slots.flatMap fun slot => f slot.2 := by
  rw [under, List.flatMap_map]

theorem flatMap_indexed {α : Type} (start : Nat) (ids : List ObjectId) (f : ObjectId → List α) :
    (indexed start ids).flatMap (fun slot => f slot.2) = ids.flatMap f := by
  induction ids generalizing start with
  | nil => rfl
  | cons id rest ih => rw [indexed, List.flatMap_cons, ih, List.flatMap_cons]

section

variable {meaning : ObjectId → Option (Option Schema)} (hkeeps : ∀ id, kept meaning id = true)
include hkeeps

theorem propertyNotes_on_generics (notes : ObjectId → List Diagnostic) (owner : String) (props : List Property) :
    onGenerics setting.graph (props.flatMap (propertyNotes notes owner)) =
      (memberSlots meaning props).flatMap fun slot => onGenerics setting.graph (notes slot.2) := by
  induction props with
  | nil => rfl
  | cons p rest ih =>
    rw [onGenerics_flatMap] at ih ⊢
    unfold memberSlots at ih ⊢
    rw [List.flatMap_cons, List.filterMap_cons, ih]
    unfold propertyNotes Property.member?
    cases hshape : p.shape with
    | override fragment =>
      dsimp only
      rw [onGenerics_rawNote _ _ fun error => TypeGraph.property_notMem_genericNotes (owner ++ "." ++ p.name) p error]
      rfl
    | custom member default =>
      dsimp only
      rw [Option.filter_some, if_pos (hkeeps member)]
      rfl

/-- In the notes of a level, those on generic types are on the node itself and in the notes of the children at its
slots. -/
theorem layerNotes_on_generics (hmem : node ∈ setting.graph.objects) (notes : ObjectId → List Diagnostic) :
    onGenerics setting.graph (layerNotes setting notes node) = node.genericNote?.toList ++
      (slots meaning setting node).flatMap fun slot => onGenerics setting.graph (notes slot.2) := by
  have hown := onGenerics_genericNote? hmem
  unfold ObjectNode.genericNote? at hown ⊢
  unfold layerNotes slots
  cases hshape : node.shape with
  | system p => rfl
  | override fragment => exact onGenerics_rawNote _ _ (TypeGraph.override_notMem_genericNotes node.identity)
  | generic base arguments =>
    simp only [hshape] at hown ⊢
    rw [List.flatMap_nil, List.append_nil, ObjectNode.genericNote?, hshape]
    exact hown
  | nullable element | array base element =>
    simp only [under, indexed, List.map_cons, List.map_nil, List.flatMap_cons, List.flatMap_nil, List.append_nil]
    rfl
  | map base key value =>
    simp only
    split_ifs with haccepted
    · simp only [under, List.map_cons, List.map_nil, List.flatMap_cons, List.flatMap_nil, List.append_nil]
      rfl
    · cases setting.graph.get? key with
      | none => rfl
      | some keyNode => exact onGenerics_of_notMem (TypeGraph.keyRefusal_notMem_genericNotes node keyNode)
  | abstract ids =>
    simp only [flatMap_under _ _ fun id => onGenerics setting.graph (notes id),
      flatMap_indexed _ _ fun id => onGenerics setting.graph (notes id), onGenerics_flatMap,
      List.filter_eq_self.2 fun id _ => hkeeps id]
    rfl
  | custom props implements =>
    simp only [flatMap_under _ _ fun id => onGenerics setting.graph (notes id)]
    exact propertyNotes_on_generics hkeeps notes node.identity props
  | tuple ids =>
    simp only [flatMap_under _ _ fun id => onGenerics setting.graph (notes id),
      flatMap_indexed _ _ fun id => onGenerics setting.graph (notes id), onGenerics_flatMap]
    rfl

end

theorem kept_of_mode (hmode : setting.options.dictionaryKeys ≠ .skip) (fuel : Nat) (id : ObjectId) :
    kept (child setting (expand setting fuel)) id = true := by
  unfold kept
  split
  · rename_i hdropped
    exact absurd hdropped (child_ne_none hmode fuel id)
  · rfl

/-- **Notes on generic types.** Where nothing is dropped, these are the notes on the generic types that stand in the
level of a node, in the order of their places. -/
theorem notes_on_generics (hmode : setting.options.dictionaryKeys ≠ .skip) (hvalid : setting.graph.validate = .ok ())
    {fuel : Nat} {id : ObjectId} (hfound : setting.graph.get? id = some node) {level : Schema}
    (hexpands : expand setting fuel node = some (some level)) :
    onGenerics setting.graph (notes setting fuel node) = (places setting fuel node).filterMap (·.2.genericNote?) := by
  induction fuel generalizing id node level with
  | zero => cases hexpands
  | succ fuel ih =>
    have hinner : ∀ slot ∈ slots (child setting (expand setting fuel)) setting node,
        onGenerics setting.graph (childNotes setting (notes setting fuel) slot.2) =
          (standing setting (emissions setting fuel) slot.2).filterMap (·.2.genericNote?) := by
      intro slot hslot
      obtain ⟨schema, -, -, hmeans, -⟩ :=
        placed_at_slot (TypeGraph.nodup_names hvalid hfound) (level_of_layer hexpands) hslot
      obtain ⟨target, htarget, ⟨hdefined, -⟩ | ⟨hinlined, outcome, hexpands, hwrapped⟩⟩ := child_eq_some_iff.1 hmeans
      · rw [childNotes_of_defined htarget hdefined, standing_of_defined htarget hdefined, List.filterMap_cons,
          ObjectNode.genericNote?_of_defined hdefined]
        rfl
      · obtain ⟨level, rfl, -⟩ := Option.map_eq_some_iff.1 hwrapped.symm
        rw [childNotes_of_inlined htarget hinlined, standing_of_inlined htarget hinlined]
        exact ih htarget hexpands
    have hbelow : (emissions setting (fuel + 1) node).filterMap (·.2.genericNote?) =
        (slots (child setting (expand setting fuel)) setting node).flatMap fun slot =>
          onGenerics setting.graph (childNotes setting (notes setting fuel) slot.2) := by
      rw [emissions, List.filterMap_flatMap]
      refine List.flatMap_congr fun slot hslot => ?_
      rw [hinner slot hslot, List.filterMap_map]
      rfl
    rw [notes, layerNotes_on_generics (kept_of_mode hmode fuel) (TypeGraph.mem_objects hfound), ← hbelow, places,
      List.filterMap_cons]
    cases node.genericNote? <;> rfl

end Places

end Translation

end GraphSchema
