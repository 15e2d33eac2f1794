import GraphSchema.Proofs.Fitting
import GraphSchema.Proofs.Rereading

/-!
Documents that are written and read again.

- `GraphDocument.reals_toJson` : the numbers in a written document that are no integers are those of its examples.
- `GraphDocument.ofText_toJson` : what is accepted of a text, with integers only in its examples, is written as a
  text that is accepted as the same document.
-/

namespace GraphSchema

open Metadata (member)

/-! ## Numbers that are no integers -/

section Reals

theorem reals_obj (members : List (String × Json)) : (Json.obj members).reals = members.flatMap (·.2.reals) :=
  Json.realsMembers_eq members

theorem reals_arr (items : List Json) : (Json.arr items).reals = items.flatMap Json.reals :=
  Json.realsItems_eq items

theorem reals_member (name : String) (value : Option Json) :
    (member name value).flatMap (·.2.reals) = value.elim [] Json.reals := by
  cases value with
  | none => rfl
  | some found => exact List.append_nil _

theorem reals_text (value : Option String) : (value.map Json.str).elim [] Json.reals = [] := by
  cases value <;> rfl

theorem reals_idsJson (ids : List ObjectId) : (idsJson ids).reals = [] := by
  rw [idsJson, reals_arr, List.flatMap_map]
  exact List.flatMap_eq_nil_iff.2 fun _ _ => rfl

theorem Metadata.reals_toJson (m : Metadata) : m.toJson.reals = m.examples.flatMap Json.reals := by
  have hexamples : (if m.examples.isEmpty then none else some (Json.arr m.examples)).elim [] Json.reals =
      m.examples.flatMap Json.reals := by
    cases hsame : m.examples with
    | nil => rfl
    | cons first others => exact reals_arr (first :: others)
  have hdeprecated : (if m.deprecated then some (Json.bool true) else none).elim [] Json.reals = [] := by
    cases m.deprecated <;> rfl
  simp only [toJson, reals_obj, List.flatMap_append, reals_member, reals_text, hexamples, hdeprecated, List.nil_append,
    List.append_nil]

theorem reals_metadata (metadata : Option Metadata) :
    (metadata.map Metadata.toJson).elim [] Json.reals = (Metadata.examplesOf metadata).flatMap Json.reals := by
  cases metadata with
  | none => rfl
  | some m => exact m.reals_toJson

theorem PropertyShape.reals_members (shape : PropertyShape) : shape.members.flatMap (·.2.reals) = [] := by
  cases shape with
  | override schema => rfl
  | custom id default =>
    simp only [members, List.flatMap_append, reals_member, reals_text]
    rfl

theorem Property.reals_toJson (p : Property) : p.toJson.reals = p.examples.flatMap Json.reals := by
  simp only [toJson, reals_obj, List.flatMap_append, reals_member, reals_metadata, PropertyShape.reals_members,
    List.append_nil]
  exact List.append_nil _

/-- A list of values with examples has the numbers of all their examples. -/
theorem reals_list {α : Type} {write : α → Json} {examples : α → List Json} (values : List α)
    (heach : ∀ a ∈ values, (write a).reals = (examples a).flatMap Json.reals) :
    (Json.arr (values.map write)).reals = (values.flatMap examples).flatMap Json.reals := by
  rw [reals_arr, List.flatMap_map, List.flatMap_assoc]
  exact List.flatMap_congr heach

theorem ObjectShape.reals_members (shape : ObjectShape) :
    shape.members.flatMap (·.2.reals) = shape.examples.flatMap Json.reals := by
  cases shape with
  | custom properties implements =>
    have hlisted := reals_list properties fun p _ => p.reals_toJson
    have himplemented : (if implements.isEmpty then none else some (idsJson implements)).elim [] Json.reals = [] := by
      cases implements.isEmpty with
      | true => rfl
      | false => exact reals_idsJson implements
    simp only [members, content, List.flatMap_cons, reals_member, hlisted, himplemented, List.append_nil]
    rfl
  | generic base arguments =>
    simp only [members, content, List.flatMap_cons, List.flatMap_nil, reals_idsJson]
    rfl
  | abstract ids | tuple ids =>
    simp only [members, content, List.flatMap_cons, List.flatMap_nil, reals_idsJson]
    rfl
  | system | override | nullable | map | array => rfl

theorem ObjectNode.reals_toJson (node : ObjectNode) : node.toJson.reals = node.examples.flatMap Json.reals := by
  simp only [toJson, reals_obj, List.flatMap_append, reals_member, reals_metadata, ObjectShape.reals_members, examples]
  rfl

theorem CompileOptions.reals_toJson (options : CompileOptions) : options.toJson.reals = [] := rfl

theorem RootRequest.reals_members (request : RootRequest) :
    request.members.flatMap (·.2.reals) = (Metadata.examplesOf request.metadata).flatMap Json.reals := by
  simp only [members, List.flatMap_append, reals_member, reals_metadata, reals_text, List.append_nil]
  rfl

/-- **Numbers.** The numbers in a written document that are no integers are those of its examples. -/
theorem GraphDocument.reals_toJson (document : GraphDocument) :
    document.toJson.reals = document.examples.flatMap Json.reals := by
  have hobjects : document.objects.toJson.reals = document.objects.examples.flatMap Json.reals :=
    reals_list document.objects.objects fun node _ => node.reals_toJson
  have hoptions : (document.options.map CompileOptions.toJson).elim [] Json.reals = [] := by
    cases document.options with
    | none => rfl
    | some options => exact options.reals_toJson
  simp only [toJson, reals_obj, List.flatMap_append, List.flatMap_cons, List.flatMap_nil, RootRequest.reals_members,
    reals_member, hoptions, hobjects, examples, List.append_nil]

end Reals

/-! ## Round trips -/

/-- Every number in an example is an integer, or a negative zero (`-0` is one too). -/
def GraphDocument.Integral (document : GraphDocument) : Prop :=
  ∀ ex ∈ document.examples, ex.Integral

/-- **Writing a document and reading it again.** A document that fits into a text, with examples that repeat no
keys, is written as a text that is accepted as the document. -/
theorem GraphDocument.ofText_compact {document : GraphDocument} (hintegral : document.Integral)
    (hsound : Sound toJson examples Json.maxNesting document) : ofText document.toJson.compact = .ok document := by
  -- ids and depths are integers, so whatever else is written stands in an example
  have hnumbers : document.toJson.Integral := by
    intro x hreal
    rw [document.reals_toJson] at hreal
    obtain ⟨ex, hmem, hreal⟩ := List.mem_flatMap.1 hreal
    exact hintegral ex hmem x hreal
  have hread := (Json.read_ofText_compact hsound.fits hnumbers []).1
  exact document.reads_toJson hsound.collapsed _ hread

/-- **Round trip.** A document that is accepted of any text, and whose examples hold integers only, is written as
a text that is accepted as an equal document, which is written as the identical text. -/
theorem GraphDocument.ofText_toJson (text : String) (document : GraphDocument) (haccepted : ofText text = .ok document)
    (hintegral : document.Integral) :
    ∃ again, ofText document.toJson.compact = .ok again ∧ again = document ∧
      again.toJson.compact = document.toJson.compact :=
  ⟨document, ofText_compact hintegral (sound_of_ofText haccepted), rfl, rfl⟩

/-- a document with an example, a member that is `null`, and an object type with one property -/
def bookmark : String :=
  "\x7b\"root\":0,\"id\":null,\"metadata\":\x7b\"examples\":[7]\x7d,\"objects\":[" ++
  "\x7b\"identity\":\"a\",\"kind\":\"custom\",\"properties\":[" ++
  "\x7b\"name\":\"b\",\"kind\":\"custom\",\"member\":0\x7d]\x7d]\x7d"

/-- The document is accepted, with its node and its example, and comes back as it is. -/
theorem GraphDocument.ofText_toJson_bookmark : ∃ document, ofText bookmark = .ok document ∧
    document.objects.size = 1 ∧ document.examples.length = 1 ∧ document.Integral ∧
    ∃ again, ofText document.toJson.compact = .ok again ∧ again = document ∧
      again.toJson.compact = document.toJson.compact := by
  have hcounts : (ofText bookmark).toOption.map (fun document =>
      (document.objects.size, document.examples.length, (document.examples.flatMap Json.reals).isEmpty)) =
      some (1, 1, true) := by decide +kernel
  cases haccepted : ofText bookmark with
  | error failure =>
    rw [haccepted] at hcounts
    cases hcounts
  | ok document =>
    rw [haccepted] at hcounts
    obtain ⟨hsize, hcounts⟩ := Prod.mk.inj (Option.some.inj hcounts)
    obtain ⟨hlength, hnone⟩ := Prod.mk.inj hcounts
    have hintegral : document.Integral := by
      intro ex hmem x hreal
      have hfound := List.mem_flatMap.2 ⟨ex, hmem, hreal⟩
      rw [List.isEmpty_iff.1 hnone] at hfound
      cases hfound
    exact ⟨document, rfl, hsize, hlength, hintegral, ofText_toJson bookmark document haccepted hintegral⟩

end GraphSchema
