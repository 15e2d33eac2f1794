import GraphSchema.Proofs.Restoring
import GraphSchema.Proofs.Yielding

/-!
What is accepted of a text fits into it when it is written again.

- `Sound` : the written value fits into some room, and the examples in it repeat no keys; for each part of a
  document the reader only accepts what is sound.
- `GraphDocument.sound_of_ofText` : the value of an accepted document fits into a text.
-/

namespace GraphSchema

open Reading (Source Result bind_eq_ok map_eq_ok)
open Reading.Source
open Metadata (member)

/-- What is written fits into the room, and its examples repeat no keys. -/
structure Sound {α : Type} (write : α → Json) (examples : α → List Json) (room : Nat) (a : α) : Prop where
  fits : (write a).Fits room
  collapsed : ∀ ex ∈ examples a, ex.Collapsed

/-! ## Members -/

section Members

variable {room : Nat}

theorem fits_member {name : String} {value : Option Json} (h : Filled (Json.Fits room) value) :
    ∀ entry ∈ member name value, entry.2.Fits room := by
  intro entry hmem
  obtain ⟨found, hsame, rfl⟩ := Option.map_eq_some_iff.1 (Option.mem_toList.1 hmem)
  exact h found hsame

theorem fits_text (value : Option String) : Filled (Json.Fits room) (value.map .str) := by
  intro found hsame
  obtain ⟨s, -, rfl⟩ := Option.map_eq_some_iff.1 hsame
  exact .str

theorem of_required {α : Type} {name : String} {slot : Option α} {a : α} (h : required name slot = .ok a) :
    slot = some a := by
  cases slot with
  | none => cases h
  | some found => exact congrArg some (Except.ok.inj h)

theorem fits_nil (hleft : 0 < room) : (Json.arr []).Fits room := by
  obtain ⟨inner, rfl⟩ := Nat.exists_eq_succ_of_ne_zero (Nat.ne_of_gt hleft)
  exact .arr (List.forall_mem_nil _)

theorem yields_id : Yields ObjectId.read fun room id => id.toJson.Fits room :=
  yields_map yields_count fun _ _ hfits => hfits

theorem yields_ids : Yields (list ObjectId.read) fun room ids => (idsJson ids).Fits room := by
  intro room source ids hwithin haccepted
  obtain ⟨inner, rfl, heach⟩ := yields_list yields_id room source ids hwithin haccepted
  exact .arr (List.forall_mem_map.2 heach)

theorem collapsed_examplesOf {metadata : Option Metadata}
    (h : Filled (Sound Metadata.toJson Metadata.examples room) metadata) :
    ∀ ex ∈ Metadata.examplesOf metadata, ex.Collapsed := by
  cases metadata with
  | none => exact List.forall_mem_nil _
  | some m => exact (h m rfl).collapsed

theorem fits_metadata {metadata : Option Metadata}
    (h : Filled (Sound Metadata.toJson Metadata.examples room) metadata) :
    ∀ entry ∈ member "metadata" (metadata.map Metadata.toJson), entry.2.Fits room :=
  fits_member (h.map fun _ hsound => hsound.fits)

end Members

/-! ## Metadata -/

namespace Metadata

/-- The examples that were taken in are sound. -/
def Draft.Sound (room : Nat) (draft : Draft) : Prop :=
  Filled (GraphSchema.Sound Json.arr id room) draft.examples

theorem yields_examples : Yields (list any) (GraphSchema.Sound Json.arr id) := by
  intro room source examples hwithin haccepted
  obtain ⟨inner, rfl, heach⟩ := yields_list yields_any room source examples hwithin haccepted
  exact ⟨.arr fun ex hmem => (heach ex hmem).1, fun ex hmem => (heach ex hmem).2⟩

theorem sound_finish {room : Nat} {draft : Draft} (h : draft.Sound room) :
    GraphSchema.Sound toJson examples (room + 1) draft.finish := by
  have hlisted : Filled (Json.Fits room)
      (if draft.finish.examples.isEmpty then none else some (.arr draft.finish.examples)) := by
    unfold Draft.finish
    cases hgiven : draft.examples with
    | none => exact filled_none
    | some examples =>
      cases examples with
      | nil => exact filled_none
      | cons first others => exact filled_some (h _ hgiven).fits
  have hdeprecated : Filled (Json.Fits room) (if draft.finish.deprecated then some (.bool true) else none) := by
    cases draft.finish.deprecated with
    | false => exact filled_none
    | true => exact filled_some .bool
  constructor
  · refine .obj ?_
    simp only [List.forall_mem_append]
    exact ⟨⟨⟨⟨fits_member (fits_text _), fits_member (fits_text _)⟩, fits_member hlisted⟩, fits_member (fits_text _)⟩,
      fits_member hdeprecated⟩
  · intro ex hmem
    cases hgiven : draft.examples with
    | none =>
      have hnone : ex ∈ draft.examples.getD [] := hmem
      rw [hgiven] at hnone
      cases hnone
    | some examples =>
      have hmem : ex ∈ draft.examples.getD [] := hmem
      rw [hgiven] at hmem
      exact (h _ hgiven).collapsed ex hmem

theorem keeps_takeTitle : Keeps Draft.takeTitle Draft.Sound :=
  keeps_once Draft.title (fun draft title => { draft with title }) (yields_trivial _) (fun _ _ => rfl)
    fun _ _ _ hsound _ => hsound

theorem keeps_takeDescription : Keeps Draft.takeDescription Draft.Sound :=
  keeps_once Draft.description (fun draft description => { draft with description }) (yields_trivial _) (fun _ _ => rfl)
    fun _ _ _ hsound _ => hsound

theorem keeps_takeExamples : Keeps Draft.takeExamples Draft.Sound :=
  keeps_once Draft.examples (fun draft examples => { draft with examples }) yields_examples (fun _ _ => rfl)
    fun _ _ _ _ hlisted => filled_some hlisted

theorem keeps_takeComment : Keeps Draft.takeComment Draft.Sound :=
  keeps_once Draft.comment (fun draft comment => { draft with comment }) (yields_trivial _) (fun _ _ => rfl)
    fun _ _ _ hsound _ => hsound

theorem keeps_takeDeprecated : Keeps Draft.takeDeprecated Draft.Sound :=
  keeps_once Draft.deprecated (fun draft deprecated => { draft with deprecated }) (yields_trivial _) (fun _ _ => rfl)
    fun _ _ _ hsound _ => hsound

theorem keeps_take (name : String) : Keeps (Draft.take · name ·) Draft.Sound :=
  keeps_ite keeps_takeTitle <| keeps_ite keeps_takeDescription <| keeps_ite keeps_takeExamples <|
    keeps_ite keeps_takeComment <| keeps_ite keeps_takeDeprecated keeps_ignore

theorem yields_sound : Yields read (GraphSchema.Sound toJson examples) := by
  have hfinish (room : Nat) (draft : Draft) (m : Metadata) (hsound : draft.Sound room)
      (hfinished : Except.ok draft.finish = (Except.ok m : Result Metadata)) :
      GraphSchema.Sound toJson examples (room + 1) m := by
    cases hfinished
    exact sound_finish hsound
  refine yields_recordOrRow (fun _ => filled_none) keeps_take hfinish ?_ hfinish
  intro take hmem
  simp only [columns, List.mem_cons, List.not_mem_nil, or_false] at hmem
  rcases hmem with rfl | rfl | rfl | rfl | rfl
  · exact keeps_takeTitle
  · exact keeps_takeDescription
  · exact keeps_takeExamples
  · exact keeps_takeComment
  · exact keeps_takeDeprecated

end Metadata

/-! ## Properties -/

namespace PropertyShape

/-- The type that was taken in fits. -/
def Draft.Sound (room : Nat) (draft : Draft) : Prop :=
  Filled (fun id => id.toJson.Fits room) draft.member

theorem keeps_override (name : String) : Keeps (overrideForm.take · name ·) Draft.Sound := by
  have hschema : Keeps (fun draft source => overrideForm.take draft "schema" source) Draft.Sound :=
    keeps_once Draft.schema (fun draft schema => { draft with schema }) (yields_trivial text) (fun _ _ => rfl)
      fun _ _ _ hsound _ => hsound
  exact keeps_ite hschema keeps_draft

theorem keeps_custom (name : String) : Keeps (customForm.take · name ·) Draft.Sound := by
  have hid : Keeps (fun draft source => customForm.take draft "member" source) Draft.Sound :=
    keeps_once Draft.member (fun draft member => { draft with member }) yields_id (fun _ _ => rfl)
      fun _ _ _ _ hfits => filled_some hfits
  have hdefault : Keeps (fun draft source => customForm.take draft "default" source) Draft.Sound :=
    keeps_once Draft.default (fun draft default => { draft with default }) (yields_trivial (optional text))
      (fun _ _ => rfl) fun _ _ _ hsound _ => hsound
  exact keeps_ite hid (keeps_ite hdefault keeps_draft)

theorem fits_of_tagged {room : Nat} {members : List (String × Json)} {shape : PropertyShape}
    (hfits : ∀ entry ∈ members, entry.2.Fits room) (haccepted : tagged kinds readKind members = .ok shape) :
    ∀ entry ∈ shape.members, entry.2.Fits room := by
  obtain ⟨kind, others, hsubset, hread⟩ := exists_of_tagged haccepted
  have hfits : ∀ entry ∈ others, entry.2.Fits room := fun entry hmem => hfits entry (hsubset entry hmem)
  cases kind with
  | override =>
    obtain ⟨draft, -, hfinished⟩ := exists_of_heldRecord (fun _ => filled_none) keeps_override hfits hread
    obtain ⟨schema, -, hsame⟩ := bind_eq_ok.1 hfinished
    cases hsame
    exact List.forall_mem_cons.2 ⟨.str, List.forall_mem_singleton.2 .str⟩
  | custom =>
    obtain ⟨draft, hsound, hfinished⟩ := exists_of_heldRecord (fun _ => filled_none) keeps_custom hfits hread
    obtain ⟨id, hgiven, hsame⟩ := bind_eq_ok.1 hfinished
    cases hsame
    have hgiven : draft.member = some id := of_required hgiven
    simp only [PropertyShape.members, List.forall_mem_append, List.forall_mem_cons]
    exact ⟨⟨.str, hsound id hgiven, List.forall_mem_nil _⟩, fits_member (fits_text _)⟩

end PropertyShape

namespace Property

/-- What was taken in is sound, and what was put aside fits. -/
structure Draft.Sound (room : Nat) (draft : Draft) : Prop where
  metadata : Filled (Filled (GraphSchema.Sound Metadata.toJson Metadata.examples room)) draft.metadata
  aside : ∀ entry ∈ draft.aside, entry.2.Fits room

theorem keeps_take (name : String) : Keeps (form.take · name ·) Draft.Sound := by
  have hnamed : Keeps (fun draft source => form.take draft "name" source) Draft.Sound :=
    keeps_once Draft.name (fun draft name => { draft with name }) (yields_trivial text) (fun _ _ => rfl)
      fun _ _ _ hsound _ => ⟨hsound.metadata, hsound.aside⟩
  have hmetadata : Keeps (fun draft source => form.take draft "metadata" source) Draft.Sound :=
    keeps_once Draft.metadata (fun draft metadata => { draft with metadata }) (yields_optional Metadata.yields_sound)
      (fun _ _ => rfl) fun _ _ _ hsound hgiven => ⟨filled_some hgiven, hsound.aside⟩
  have hnullability : Keeps (fun draft source => form.take draft "nullability" source) Draft.Sound :=
    keeps_once Draft.nullability (fun draft nullability => { draft with nullability })
      (yields_trivial Nullability.read) (fun _ _ => rfl) fun _ _ _ hsound _ => ⟨hsound.metadata, hsound.aside⟩
  exact keeps_ite hnamed <| keeps_ite hmetadata <| keeps_ite hnullability <|
    keeps_aside (fun (draft : Draft) entry => ({ draft with aside := draft.aside ++ [entry] } : Draft))
      fun _ _ _ hsound hfits =>
        ⟨hsound.metadata, List.forall_mem_append.2 ⟨hsound.aside, List.forall_mem_singleton.2 hfits⟩⟩

theorem yields_sound : Yields read (GraphSchema.Sound toJson examples) := by
  refine yields_record (fun _ => (⟨filled_none, List.forall_mem_nil _⟩ : Draft.Sound _ _)) keeps_take
    fun room draft p hsound hfinished => ?_
  obtain ⟨name, -, hfinished⟩ := bind_eq_ok.1 hfinished
  obtain ⟨shape, hshape, hsame⟩ := bind_eq_ok.1 hfinished
  cases hsame
  constructor
  · refine .obj ?_
    simp only [List.forall_mem_append, List.forall_mem_singleton]
    exact ⟨⟨⟨.str, fits_metadata hsound.metadata.join⟩, .str⟩, PropertyShape.fits_of_tagged hsound.aside hshape⟩
  · exact collapsed_examplesOf hsound.metadata.join

end Property

/-! ## Nodes -/

namespace ObjectShape

/-- What was taken in fits, and the examples in it repeat no keys. -/
structure Draft.Sound (room : Nat) (draft : Draft) : Prop where
  element : Filled (fun id => id.toJson.Fits room) draft.element
  key : Filled (fun id => id.toJson.Fits room) draft.key
  value : Filled (fun id => id.toJson.Fits room) draft.value
  arguments : Filled (fun ids => (idsJson ids).Fits room) draft.arguments
  implementations : Filled (fun ids => (idsJson ids).Fits room) draft.implementations
  implements : Filled (fun ids => (idsJson ids).Fits room) draft.implements
  elements : Filled (fun ids => (idsJson ids).Fits room) draft.elements
  properties : Filled (GraphSchema.Sound (fun list => .arr (list.map Property.toJson)) (List.flatMap Property.examples) room)
    draft.properties

theorem yields_properties : Yields (list Property.read)
    (GraphSchema.Sound (fun list => .arr (list.map Property.toJson)) (List.flatMap Property.examples)) := by
  intro room source properties hwithin haccepted
  obtain ⟨inner, rfl, heach⟩ := yields_list Property.yields_sound room source properties hwithin haccepted
  refine ⟨.arr (List.forall_mem_map.2 fun p hmem => (heach p hmem).fits), fun ex hmem => ?_⟩
  obtain ⟨p, hmem, hshown⟩ := List.mem_flatMap.1 hmem
  exact (heach p hmem).collapsed ex hshown

theorem keeps_takePrimitive : Keeps Draft.takePrimitive Draft.Sound :=
  keeps_once Draft.primitive (fun draft primitive => { draft with primitive }) (yields_trivial _) (fun _ _ => rfl)
    fun _ _ _ hsound _ => { hsound with }

theorem keeps_takeSchema : Keeps Draft.takeSchema Draft.Sound :=
  keeps_once Draft.schema (fun draft schema => { draft with schema }) (yields_trivial _) (fun _ _ => rfl)
    fun _ _ _ hsound _ => { hsound with }

theorem keeps_takeBase : Keeps Draft.takeBase Draft.Sound :=
  keeps_once Draft.base (fun draft base => { draft with base }) (yields_trivial _) (fun _ _ => rfl)
    fun _ _ _ hsound _ => { hsound with }

theorem keeps_takeElement : Keeps Draft.takeElement Draft.Sound :=
  keeps_once Draft.element (fun draft element => { draft with element }) yields_id (fun _ _ => rfl)
    fun _ _ _ hsound hfits => { hsound with element := filled_some hfits }

theorem keeps_takeKey : Keeps Draft.takeKey Draft.Sound :=
  keeps_once Draft.key (fun draft key => { draft with key }) yields_id (fun _ _ => rfl)
    fun _ _ _ hsound hfits => { hsound with key := filled_some hfits }

theorem keeps_takeValue : Keeps Draft.takeValue Draft.Sound :=
  keeps_once Draft.value (fun draft value => { draft with value }) yields_id (fun _ _ => rfl)
    fun _ _ _ hsound hfits => { hsound with value := filled_some hfits }

theorem keeps_takeArguments : Keeps Draft.takeArguments Draft.Sound :=
  keeps_once Draft.arguments (fun draft arguments => { draft with arguments }) yields_ids (fun _ _ => rfl)
    fun _ _ _ hsound hfits => { hsound with arguments := filled_some hfits }

theorem keeps_takeImplementations : Keeps Draft.takeImplementations Draft.Sound :=
  keeps_once Draft.implementations (fun draft implementations => { draft with implementations }) yields_ids (fun _ _ => rfl)
    fun _ _ _ hsound hfits => { hsound with implementations := filled_some hfits }

theorem keeps_takeImplements : Keeps Draft.takeImplements Draft.Sound :=
  keeps_once Draft.implements (fun draft implements => { draft with implements }) yields_ids (fun _ _ => rfl)
    fun _ _ _ hsound hfits => { hsound with implements := filled_some hfits }

theorem keeps_takeElements : Keeps Draft.takeElements Draft.Sound :=
  keeps_once Draft.elements (fun draft elements => { draft with elements }) yields_ids (fun _ _ => rfl)
    fun _ _ _ hsound hfits => { hsound with elements := filled_some hfits }

theorem keeps_takeProperties : Keeps Draft.takeProperties Draft.Sound :=
  keeps_once Draft.properties (fun draft properties => { draft with properties }) yields_properties (fun _ _ => rfl)
    fun _ _ _ hsound hlisted => { hsound with properties := filled_some hlisted }

theorem keeps_taken (kind : ObjectKind) : ∀ entry ∈ taken kind, Keeps entry.2 Draft.Sound := by
  cases kind with
  | system => exact List.forall_mem_singleton.2 keeps_takePrimitive
  | override => exact List.forall_mem_singleton.2 keeps_takeSchema
  | nullable => exact List.forall_mem_singleton.2 keeps_takeElement
  | abstract => exact List.forall_mem_singleton.2 keeps_takeImplementations
  | tuple => exact List.forall_mem_singleton.2 keeps_takeElements
  | generic => exact List.forall_mem_cons.2 ⟨keeps_takeBase, List.forall_mem_singleton.2 keeps_takeArguments⟩
  | array => exact List.forall_mem_cons.2 ⟨keeps_takeBase, List.forall_mem_singleton.2 keeps_takeElement⟩
  | custom => exact List.forall_mem_cons.2 ⟨keeps_takeProperties, List.forall_mem_singleton.2 keeps_takeImplements⟩
  | map =>
    exact List.forall_mem_cons.2 ⟨keeps_takeBase, List.forall_mem_cons.2
      ⟨keeps_takeKey, List.forall_mem_singleton.2 keeps_takeValue⟩⟩

theorem keeps_form (kind : ObjectKind) (name : String) : Keeps ((form kind).take · name ·) Draft.Sound := by
  show Keeps (Draft.takeAmong (taken kind) · name ·) Draft.Sound
  unfold Draft.takeAmong
  split
  · rename_i take hfound
    exact keeps_taken kind (name, take) (Members.mem_of_get? hfound)
  · exact keeps_draft

theorem sound_start (room : Nat) (kind : ObjectKind) : Draft.Sound room (form kind).start :=
  ⟨filled_none, filled_none, filled_none, filled_none, filled_none, filled_none, filled_none, filled_none⟩

/-- The shape that is finished. A list that did not come is written as an empty one, which needs some room. -/
theorem sound_of_finish {room : Nat} (hleft : 0 < room) {draft : Draft} {kind : ObjectKind} {shape : ObjectShape}
    (hsound : draft.Sound room) (hfinished : finish draft kind = .ok shape) :
    (∀ entry ∈ shape.content, entry.2.Fits room) ∧ ∀ ex ∈ shape.examples, ex.Collapsed := by
  cases kind with
  | system =>
    obtain ⟨primitive, -, hsame⟩ := bind_eq_ok.1 hfinished
    cases hsame
    exact ⟨List.forall_mem_singleton.2 .str, List.forall_mem_nil _⟩
  | override =>
    obtain ⟨schema, -, hsame⟩ := bind_eq_ok.1 hfinished
    cases hsame
    exact ⟨List.forall_mem_singleton.2 .str, List.forall_mem_nil _⟩
  | nullable =>
    obtain ⟨element, hgiven, hsame⟩ := bind_eq_ok.1 hfinished
    cases hsame
    exact ⟨List.forall_mem_singleton.2 (hsound.element element (of_required hgiven)), List.forall_mem_nil _⟩
  | generic =>
    obtain ⟨base, -, hfinished⟩ := bind_eq_ok.1 hfinished
    obtain ⟨arguments, hgiven, hsame⟩ := bind_eq_ok.1 hfinished
    cases hsame
    refine ⟨List.forall_mem_cons.2 ⟨.str, List.forall_mem_singleton.2 ?_⟩, List.forall_mem_nil _⟩
    exact hsound.arguments arguments (of_required hgiven)
  | map =>
    obtain ⟨base, -, hfinished⟩ := bind_eq_ok.1 hfinished
    obtain ⟨key, hkey, hfinished⟩ := bind_eq_ok.1 hfinished
    obtain ⟨value, hvalue, hsame⟩ := bind_eq_ok.1 hfinished
    cases hsame
    refine ⟨List.forall_mem_cons.2 ⟨.str, List.forall_mem_cons.2 ⟨?_, List.forall_mem_singleton.2 ?_⟩⟩,
      List.forall_mem_nil _⟩
    · exact hsound.key key (of_required hkey)
    · exact hsound.value value (of_required hvalue)
  | array =>
    obtain ⟨base, -, hfinished⟩ := bind_eq_ok.1 hfinished
    obtain ⟨element, hgiven, hsame⟩ := bind_eq_ok.1 hfinished
    cases hsame
    refine ⟨List.forall_mem_cons.2 ⟨.str, List.forall_mem_singleton.2 ?_⟩, List.forall_mem_nil _⟩
    exact hsound.element element (of_required hgiven)
  | abstract =>
    cases hfinished
    refine ⟨List.forall_mem_singleton.2 ?_, List.forall_mem_nil _⟩
    cases hgiven : draft.implementations with
    | none => exact fits_nil hleft
    | some implementations => exact hsound.implementations implementations hgiven
  | custom =>
    cases hfinished
    have hproperties : GraphSchema.Sound (fun list => .arr (list.map Property.toJson))
        (List.flatMap Property.examples) room
        (draft.properties.getD []) := by
      cases hgiven : draft.properties with
      | none => exact ⟨fits_nil hleft, List.forall_mem_nil _⟩
      | some properties => exact hsound.properties properties hgiven
    refine ⟨List.forall_mem_cons.2 ⟨hproperties.fits, fits_member ?_⟩, hproperties.collapsed⟩
    cases hgiven : draft.implements with
    | none => exact filled_none
    | some implements =>
      show Filled _ (if implements.isEmpty then none else some (idsJson implements))
      split
      · exact filled_none
      · exact filled_some (hsound.implements implements hgiven)
  | tuple =>
    obtain ⟨elements, hgiven, hsame⟩ := bind_eq_ok.1 hfinished
    cases hsame
    exact ⟨List.forall_mem_singleton.2 (hsound.elements elements (of_required hgiven)), List.forall_mem_nil _⟩

theorem sound_of_tagged {room : Nat} (hleft : 0 < room) {members : List (String × Json)} {shape : ObjectShape}
    (hfits : ∀ entry ∈ members, entry.2.Fits room) (haccepted : tagged kinds readKind members = .ok shape) :
    (∀ entry ∈ shape.members, entry.2.Fits room) ∧ ∀ ex ∈ shape.examples, ex.Collapsed := by
  obtain ⟨kind, others, hsubset, hread⟩ := exists_of_tagged haccepted
  obtain ⟨draft, hsound, hfinished⟩ := exists_of_heldRecord (fun room => sound_start room kind) (keeps_form kind)
    (fun entry hmem => hfits entry (hsubset entry hmem)) hread
  obtain ⟨hcontent, hexamples⟩ := sound_of_finish hleft hsound hfinished
  exact ⟨List.forall_mem_cons.2 ⟨.str, hcontent⟩, hexamples⟩

end ObjectShape

namespace ObjectNode

/-- What was taken in is sound, and what was put aside fits. -/
structure Draft.Sound (room : Nat) (draft : Draft) : Prop where
  metadata : Filled (Filled (GraphSchema.Sound Metadata.toJson Metadata.examples room)) draft.metadata
  aside : ∀ entry ∈ draft.aside, entry.2.Fits room

theorem keeps_take (name : String) : Keeps (form.take · name ·) Draft.Sound := by
  have hidentity : Keeps (fun draft source => form.take draft "identity" source) Draft.Sound :=
    keeps_once Draft.identity (fun draft identity => { draft with identity }) (yields_trivial text) (fun _ _ => rfl)
      fun _ _ _ hsound _ => ⟨hsound.metadata, hsound.aside⟩
  have hmetadata : Keeps (fun draft source => form.take draft "metadata" source) Draft.Sound :=
    keeps_once Draft.metadata (fun draft metadata => { draft with metadata }) (yields_optional Metadata.yields_sound)
      (fun _ _ => rfl) fun _ _ _ hsound hgiven => ⟨filled_some hgiven, hsound.aside⟩
  exact keeps_ite hidentity <| keeps_ite hmetadata <|
    keeps_aside (fun (draft : Draft) entry => ({ draft with aside := draft.aside ++ [entry] } : Draft))
      fun _ _ _ hsound hfits =>
        ⟨hsound.metadata, List.forall_mem_append.2 ⟨hsound.aside, List.forall_mem_singleton.2 hfits⟩⟩

/-- A node may lack its lists, which are written as empty ones; so two brackets are needed for what is written. -/
theorem yields_sound : Yields read fun room node => 1 < room → GraphSchema.Sound toJson examples room node := by
  refine yields_record (fun _ => (⟨filled_none, List.forall_mem_nil _⟩ : Draft.Sound _ _)) keeps_take
    fun room draft node hsound hfinished hleft => ?_
  obtain ⟨identity, -, hfinished⟩ := bind_eq_ok.1 hfinished
  obtain ⟨shape, hshape, hsame⟩ := bind_eq_ok.1 hfinished
  cases hsame
  obtain ⟨hmembers, hshown⟩ := ObjectShape.sound_of_tagged (by omega) hsound.aside hshape
  constructor
  · refine .obj ?_
    simp only [List.forall_mem_append, List.forall_mem_singleton]
    exact ⟨⟨.str, fits_metadata hsound.metadata.join⟩, hmembers⟩
  · exact List.forall_mem_append.2 ⟨collapsed_examplesOf hsound.metadata.join, hshown⟩

end ObjectNode

theorem TypeGraph.yields_sound :
    Yields TypeGraph.read fun room graph => 2 < room → Sound TypeGraph.toJson TypeGraph.examples room graph := by
  intro room source graph hwithin haccepted hleft
  obtain ⟨objects, hread, rfl⟩ := map_eq_ok.1 haccepted
  obtain ⟨inner, rfl, heach⟩ := yields_list ObjectNode.yields_sound room source objects hwithin hread
  have hsound : ∀ node ∈ objects, Sound ObjectNode.toJson ObjectNode.examples inner node :=
    fun node hmem => heach node hmem (by omega)
  refine ⟨.arr (List.forall_mem_map.2 fun node hmem => (hsound node hmem).fits), fun ex hmem => ?_⟩
  obtain ⟨node, hmem, hshown⟩ := List.mem_flatMap.1 hmem
  exact (hsound node hmem).collapsed ex hshown

/-! ## Documents -/

namespace CompileOptions

/-- The depth that was taken in fits. -/
def Draft.Sound (room : Nat) (draft : Draft) : Prop :=
  Filled (fun n => (Json.nat n).Fits room) draft.maxDepth

theorem keeps_takeDialect : Keeps Draft.takeDialect Draft.Sound :=
  keeps_once Draft.dialect (fun draft dialect => { draft with dialect }) (yields_trivial _) (fun _ _ => rfl)
    fun _ _ _ hsound _ => hsound

theorem keeps_takeDictionaryKeys : Keeps Draft.takeDictionaryKeys Draft.Sound :=
  keeps_once Draft.dictionaryKeys (fun draft dictionaryKeys => { draft with dictionaryKeys }) (yields_trivial _)
    (fun _ _ => rfl) fun _ _ _ hsound _ => hsound

theorem keeps_takeMaxDepth : Keeps Draft.takeMaxDepth Draft.Sound :=
  keeps_once Draft.maxDepth (fun draft maxDepth => { draft with maxDepth }) yields_count (fun _ _ => rfl)
    fun _ _ _ _ hfits => filled_some hfits

theorem keeps_take (name : String) : Keeps (Draft.take · name ·) Draft.Sound :=
  keeps_ite keeps_takeDialect <| keeps_ite keeps_takeDictionaryKeys <| keeps_ite keeps_takeMaxDepth keeps_ignore

theorem yields_fits : Yields read fun room options => options.toJson.Fits room := by
  have hfinish (room : Nat) (draft : Draft) (options : CompileOptions) (hsound : draft.Sound room)
      (hfinished : Except.ok draft.finish = (Except.ok options : Result CompileOptions)) :
      options.toJson.Fits (room + 1) := by
    cases hfinished
    have hdepth : (Json.nat draft.finish.maxDepth).Fits room := by
      unfold Draft.finish
      cases hgiven : draft.maxDepth with
      | none =>
        show (Json.nat ({} : CompileOptions).maxDepth).Fits room
        exact .num ⟨by decide, by decide⟩
      | some n => exact hsound n hgiven
    exact .obj (List.forall_mem_cons.2 ⟨.str, List.forall_mem_cons.2 ⟨.str, List.forall_mem_singleton.2 hdepth⟩⟩)
  refine yields_recordOrRow (fun _ => filled_none) keeps_take hfinish ?_ hfinish
  exact List.forall_mem_cons.2 ⟨keeps_takeDialect, List.forall_mem_cons.2
    ⟨keeps_takeDictionaryKeys, List.forall_mem_singleton.2 keeps_takeMaxDepth⟩⟩

end CompileOptions

namespace RootRequest

/-- The root that was taken in fits, and the metadata is sound. -/
structure Draft.Sound (room : Nat) (draft : Draft) : Prop where
  root : Filled (fun id => id.toJson.Fits room) draft.root
  metadata : Filled (Filled (GraphSchema.Sound Metadata.toJson Metadata.examples room)) draft.metadata

theorem keeps_take (name : String) : Keeps (Draft.take · name ·) Draft.Sound := by
  have hroot : Keeps Draft.takeRoot Draft.Sound :=
    keeps_once Draft.root (fun draft root => { draft with root }) yields_id (fun _ _ => rfl)
      fun _ _ _ hsound hfits => ⟨filled_some hfits, hsound.metadata⟩
  have hid : Keeps Draft.takeId Draft.Sound :=
    keeps_once Draft.id (fun draft id => { draft with id }) (yields_trivial _) (fun _ _ => rfl)
      fun _ _ _ hsound _ => ⟨hsound.root, hsound.metadata⟩
  have hfileName : Keeps Draft.takeFileName Draft.Sound :=
    keeps_once Draft.fileName (fun draft fileName => { draft with fileName }) (yields_trivial _) (fun _ _ => rfl)
      fun _ _ _ hsound _ => ⟨hsound.root, hsound.metadata⟩
  have hmetadata : Keeps Draft.takeMetadata Draft.Sound :=
    keeps_once Draft.metadata (fun draft metadata => { draft with metadata }) (yields_optional Metadata.yields_sound)
      (fun _ _ => rfl) fun _ _ _ hsound hgiven => ⟨hsound.root, filled_some hgiven⟩
  exact keeps_ite hroot <| keeps_ite hid <| keeps_ite hfileName <| keeps_ite hmetadata keeps_ignore

/-- A request that was put aside. -/
theorem sound_of_heldRecord {room : Nat} {members : List (String × Json)} {request : RootRequest}
    (hfits : ∀ entry ∈ members, entry.2.Fits room) (haccepted : heldRecord form members = .ok request) :
    (∀ entry ∈ request.members, entry.2.Fits room) ∧ ∀ ex ∈ Metadata.examplesOf request.metadata, ex.Collapsed := by
  obtain ⟨draft, hsound, hfinished⟩ :=
    exists_of_heldRecord (fun _ => (⟨filled_none, filled_none⟩ : Draft.Sound _ _)) keeps_take hfits haccepted
  obtain ⟨root, hgiven, hsame⟩ := bind_eq_ok.1 hfinished
  cases hsame
  refine ⟨?_, collapsed_examplesOf hsound.metadata.join⟩
  simp only [RootRequest.members, List.forall_mem_append, List.forall_mem_singleton]
  exact ⟨⟨⟨hsound.root root (of_required hgiven), fits_member (fits_text _)⟩, fits_member (fits_text _)⟩,
    fits_metadata hsound.metadata.join⟩

end RootRequest

namespace GraphDocument

/-- What was taken in is sound, and what was put aside fits. -/
structure Draft.Sound (room : Nat) (draft : Draft) : Prop where
  options : Filled (Filled fun options => options.toJson.Fits room) draft.options
  objects : Filled (fun graph => 2 < room → GraphSchema.Sound TypeGraph.toJson TypeGraph.examples room graph) draft.objects
  aside : ∀ entry ∈ draft.aside, entry.2.Fits room

theorem keeps_take (name : String) : Keeps (form.take · name ·) Draft.Sound := by
  have hoptions : Keeps (fun draft source => form.take draft "options" source) Draft.Sound :=
    keeps_once Draft.options (fun draft options => { draft with options }) (yields_optional CompileOptions.yields_fits)
      (fun _ _ => rfl) fun _ _ _ hsound hgiven => ⟨filled_some hgiven, hsound.objects, hsound.aside⟩
  have hobjects : Keeps (fun draft source => form.take draft "objects" source) Draft.Sound :=
    keeps_once Draft.objects (fun draft objects => { draft with objects }) TypeGraph.yields_sound
      (fun _ _ => rfl) fun _ _ _ hsound hgiven => ⟨hsound.options, filled_some hgiven, hsound.aside⟩
  exact keeps_ite hoptions <| keeps_ite hobjects <|
    keeps_aside (fun (draft : Draft) entry => ({ draft with aside := draft.aside ++ [entry] } : Draft))
      fun _ _ _ hsound hfits => ⟨hsound.options, hsound.objects,
        List.forall_mem_append.2 ⟨hsound.aside, List.forall_mem_singleton.2 hfits⟩⟩

theorem yields_sound : Yields read fun room document => 3 < room → GraphSchema.Sound toJson examples room document := by
  refine yields_record (fun _ => (⟨filled_none, filled_none, List.forall_mem_nil _⟩ : Draft.Sound _ _)) keeps_take
    fun room draft document hsound hfinished hleft => ?_
  obtain ⟨objects, hgiven, hfinished⟩ := bind_eq_ok.1 hfinished
  obtain ⟨request, hrequest, hsame⟩ := bind_eq_ok.1 hfinished
  cases hsame
  have hgraph := hsound.objects objects (of_required hgiven) (by omega)
  obtain ⟨hmembers, hshown⟩ := RootRequest.sound_of_heldRecord hsound.aside hrequest
  constructor
  · refine .obj ?_
    simp only [List.forall_mem_append, List.forall_mem_singleton]
    exact ⟨⟨hmembers, fits_member (hsound.options.join.map fun _ hfits => hfits)⟩, hgraph.fits⟩
  · exact List.forall_mem_append.2 ⟨hshown, hgraph.collapsed⟩

/-- **Acceptance.** The value of a document that is accepted fits into a text, and its examples repeat no keys. -/
theorem sound_of_ofText {text : String} {document : GraphDocument} (haccepted : ofText text = .ok document) :
    GraphSchema.Sound toJson examples Json.maxNesting document :=
  yields_sound _ _ document (within_part [] (Json.inRange_ofText text)) haccepted (by decide)

end GraphDocument

end GraphSchema
