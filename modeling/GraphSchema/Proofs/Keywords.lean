import GraphSchema.Proofs.Translation

/-!
The keywords of schemas: which there are, and that none is repeated.

- `Translation.distinct_level`: no level of a node repeats a keyword, raw schemas included.
- `Translation.written_level`: a level of a node that is no raw schema has only the keywords of `emitted`, so it
  carries neither an envelope nor definitions of its own.
-/

namespace GraphSchema

namespace Schema

/-- the keywords of a schema, in order -/
def keywords (schema : Schema) : List String := Members.keys schema.members

/-- whether no keyword is repeated -/
def Distinct (schema : Schema) : Prop := schema.keywords.Nodup

theorem mem_keywords_set {schema : Schema} {keyword k : String} {value : Json} :
    k ∈ (schema.set keyword value).keywords ↔ k = keyword ∨ k ∈ schema.keywords :=
  Members.mem_keys_insert

theorem distinct_empty : Schema.empty.Distinct := List.nodup_nil

theorem Distinct.set {schema : Schema} (h : schema.Distinct) (keyword : String) (value : Json) :
    (schema.set keyword value).Distinct :=
  Members.nodup_keys_insert h keyword value

theorem get?_set_of_ne {schema : Schema} {keyword other : String} (hne : other ≠ keyword) (value : Json) :
    Members.get? (schema.set keyword value).members other = Members.get? schema.members other := by
  rw [set, Members.get?_insert, if_neg hne]

/-! ## Metadata -/

/-- the keywords that metadata writes -/
def annotationKeywords : List String := ["title", "description", "$comment", "examples", "deprecated"]

/-- the values that a record of metadata writes: texts, its examples and a mark -/
def Writes (m : Metadata) (value : Json) : Prop :=
  (∃ text, value = .str text) ∨ value = .arr m.examples ∨ value = .bool true

theorem annotate_some (schema : Schema) (m : Metadata) :
    schema.annotate (some m) = if m.isEmpty then schema else ⟨m.applyTo schema.members⟩ := rfl

/-- what a record of metadata writes, and under which keywords -/
inductive WritesAt (m : Metadata) : String → Json → Prop
  | text {keyword : String} (htext : keyword ∈ ["title", "description", "$comment"]) (text : String) :
      WritesAt m keyword (.str text)
  | examples : WritesAt m "examples" (.arr m.examples)
  | deprecated : WritesAt m "deprecated" (.bool true)

theorem WritesAt.annotates {m : Metadata} {keyword : String} {value : Json} (h : WritesAt m keyword value) :
    keyword ∈ annotationKeywords ∧ Writes m value := by
  cases h with
  | text htext text =>
    have hall : ∀ keyword ∈ ["title", "description", "$comment"], keyword ∈ annotationKeywords := by decide
    exact ⟨hall keyword htext, Or.inl ⟨text, rfl⟩⟩
  | examples => exact ⟨by decide, Or.inr (Or.inl rfl)⟩
  | deprecated => exact ⟨by decide, Or.inr (Or.inr rfl)⟩

/-- What holds of a schema and is kept by the writing of an annotation under its keyword holds of the annotated schema. -/
theorem annotate_writes {P : Members Json → Prop} {schema : Schema} {metadata : Option Metadata}
    (h : P schema.members) (hinsert : ∀ m ∈ metadata, ∀ members key value, P members → WritesAt m key value →
      P (Members.insert members key value)) : P (schema.annotate metadata).members := by
  cases metadata with
  | none => exact h
  | some m =>
    have hsome : ∀ {members key} (value : Option Json), P members → (∀ v ∈ value, WritesAt m key v) →
        P (Metadata.insertSome members key value) := by
      intro members key value hmembers hvalue
      cases value with
      | none => exact hmembers
      | some v => exact hinsert m rfl members key v hmembers (hvalue v rfl)
    have htext : ∀ {key : String} {text : Option String} {f : String → String},
        key ∈ ["title", "description", "$comment"] → ∀ v ∈ text.map (Json.str ∘ f), WritesAt m key v := by
      intro key text f hkey v hv
      obtain ⟨t, -, rfl⟩ := Option.map_eq_some_iff.1 hv
      exact .text hkey (f t)
    rw [annotate_some]
    split_ifs
    · exact h
    · refine hsome _ (hsome _ (hsome _ (hsome _ (hsome _ h ?_) ?_) ?_) ?_) ?_
      · exact htext (f := id) (by decide)
      · exact htext (f := id) (by decide)
      · exact htext (by decide)
      · intro v hv
        split_ifs at hv
        · cases hv
        · cases hv
          exact .examples
      · intro v hv
        split_ifs at hv
        · cases hv
          exact .deprecated
        · cases hv

/-- What holds of a schema and is kept by the writing of an annotation holds of the annotated schema. -/
theorem annotate_induction {P : Members Json → Prop} {schema : Schema} {metadata : Option Metadata}
    (h : P schema.members) (hinsert : ∀ m ∈ metadata, ∀ members key value, P members →
      key ∈ annotationKeywords → Writes m value → P (Members.insert members key value)) :
    P (schema.annotate metadata).members :=
  annotate_writes h fun m hm members key value hmembers hwrites =>
    hinsert m hm members key value hmembers hwrites.annotates.1 hwrites.annotates.2

theorem Distinct.annotate {schema : Schema} (h : schema.Distinct) (metadata : Option Metadata) :
    (schema.annotate metadata).Distinct := by
  refine annotate_induction (P := fun members => (Members.keys members).Nodup) h ?_
  intro m hm members key value hmembers hkey hvalue
  exact Members.nodup_keys_insert hmembers key value

theorem mem_keywords_annotate {schema : Schema} {metadata : Option Metadata} {k : String}
    (h : k ∈ (schema.annotate metadata).keywords) : k ∈ annotationKeywords ∨ k ∈ schema.keywords := by
  suffices hall : ∀ k ∈ Members.keys (schema.annotate metadata).members,
      k ∈ annotationKeywords ∨ k ∈ schema.keywords from hall k h
  refine annotate_induction (P := fun members => ∀ k ∈ Members.keys members,
    k ∈ annotationKeywords ∨ k ∈ schema.keywords) (fun k hk => Or.inr hk) ?_
  intro m hm members key value hmembers hkey hvalue k hk
  rcases Members.mem_keys_insert.1 hk with rfl | hk
  · exact Or.inl hkey
  · exact hmembers k hk

/-- Metadata leave all other keywords alone. -/
theorem get?_annotate {schema : Schema} {keyword : String} (hother : keyword ∉ annotationKeywords)
    (metadata : Option Metadata) :
    Members.get? (schema.annotate metadata).members keyword = Members.get? schema.members keyword := by
  refine annotate_induction (P := fun members => Members.get? members keyword = Members.get? schema.members keyword)
    rfl ?_
  intro m _ members key value hsame hannotates _
  have hne : keyword ≠ key := by
    rintro rfl
    exact hother hannotates
  rw [Members.get?_insert, if_neg hne, hsame]

/-! ## Raw schemas -/

/-- What is read from a text has been rid of repeated keys. -/
theorem exists_collapse_of_read {text : String} {value : Json} (h : Json.read text = .ok value) :
    ∃ written : Json, value = written.collapse := by
  unfold Json.read at h
  cases hr : ((Json.Outline.ofText text).1.read Json.maxNesting []).mapError (·.fault) with
  | error fault => simp [hr, bind, Except.bind] at h
  | ok written =>
    simp only [hr, bind, Except.bind] at h
    split_ifs at h
    exact ⟨written, (Except.ok.inj h).symm⟩

theorem nodup_keys_of_read {text : String} {members : Members Json} (h : Json.read text = .ok (.obj members)) :
    (Members.keys members).Nodup := by
  obtain ⟨written, hw⟩ := exists_collapse_of_read h
  cases written with
  | obj entries =>
    rw [Json.collapse] at hw
    cases hw
    exact Members.nodup_keys_ofList _
  | _ => simp [Json.collapse] at hw

theorem distinct_of_ofFragment {fragment : String} {schema : Schema}
    (h : Schema.ofFragment fragment = .ok schema) : schema.Distinct := by
  unfold ofFragment at h
  cases hr : Json.read fragment with
  | error fault => rw [hr] at h; cases h
  | ok value =>
    rw [hr] at h
    cases value with
    | obj members =>
      cases h
      exact nodup_keys_of_read hr
    | bool b =>
      cases b with
      | true =>
        cases h
        exact distinct_empty
      | false =>
        cases h
        exact distinct_empty.set "not" _
    | _ => cases h

end Schema

namespace Translation

/-- the keywords that compilation writes into the level of a node -/
def emitted : List String :=
  ["type", "minimum", "maximum", "minLength", "maxLength", "format", "oneOf", "items", "additionalProperties",
    "properties", "required", "prefixItems", "minItems", "maxItems", "$comment", Schema.unsupportedKeyword]

/-- a schema that compilation writes itself: no keyword is repeated, and all are keywords of its own -/
structure Written (schema : Schema) : Prop where
  distinct : schema.Distinct
  within : schema.keywords ⊆ emitted

theorem written_empty : Written Schema.empty :=
  ⟨Schema.distinct_empty, List.nil_subset _⟩

theorem Written.set {schema : Schema} (h : Written schema) {keyword : String} (hk : keyword ∈ emitted)
    (value : Json) : Written (schema.set keyword value) := by
  refine ⟨h.distinct.set keyword value, ?_⟩
  intro k hm
  rcases Schema.mem_keywords_set.1 hm with rfl | hm
  · exact hk
  · exact h.within hm

theorem written_ofType (type : String) : Written (Schema.ofType type) :=
  written_empty.set (by decide) _

theorem written_unsupported (message : String) : Written (Schema.unsupported message) :=
  written_empty.set (by decide) _

theorem Written.comment {schema : Schema} (h : Written schema) (text : String) : Written (schema.comment text) := by
  unfold Schema.comment
  cases Metadata.commentOf schema.members <;> exact h.set (by decide) _

theorem written_primitive (p : Primitive) : Written p.schema := by
  cases p with
  | boolean | string => exact written_ofType _
  | dateTime | dateTimeOffset | dateOnly | timeOnly | timeSpan | guid | uri =>
    exact (written_ofType _).set (by decide) _
  | char => exact ((written_ofType _).set (by decide) _).set (by decide) _
  | byte | sByte | int16 | uInt16 | int32 | uInt32 | int64 | uInt64 =>
    exact ((written_ofType _).set (by decide) _).set (by decide) _
  | single | double | decimal => exact ((written_ofType _).set (by decide) _).set (by decide) _

theorem written_object (compiled : List (Property × Schema)) : Written (Shape.objectSchema compiled) := by
  unfold Shape.objectSchema
  simp only
  split_ifs
  · exact (written_ofType _).set (by decide) _
  · exact ((written_ofType _).set (by decide) _).set (by decide) _

theorem written_union (arms : List Json) : Written (unionSchema arms) := by
  unfold unionSchema
  split_ifs
  · exact written_ofType _
  · exact (written_ofType _).set (by decide) _

variable {meaning : ObjectId → Option (Option Schema)} {setting : Setting} {node : ObjectNode} {schema : Schema}

/-- Apart from raw schemas, compilation writes all levels itself. -/
theorem written_level (h : Level meaning setting node schema) (hraw : node.kind ≠ .override) : Written schema := by
  cases h with
  | raw hshape => exact absurd (by rw [ObjectNode.kind, hshape]; rfl) hraw
  | primitive _ => exact written_primitive _
  | nullable _ _ => exact written_empty.set (by decide) _
  | array _ _ => exact (written_ofType _).set (by decide) _
  | map _ _ _ => exact (written_ofType _).set (by decide) _
  | commented _ _ _ _ => exact ((written_ofType _).set (by decide) _).comment _
  | refused _ _ _ => exact written_unsupported _
  | generic _ _ => exact (written_ofType _).comment _
  | union _ _ => exact written_union _
  | object _ _ => exact written_object _
  | tuple _ _ => exact (((written_ofType _).set (by decide) _).set (by decide) _).set (by decide) _

theorem distinct_rawSchema (fragment : String) (message : FragmentError → String) :
    (rawSchema fragment message).Distinct := by
  unfold rawSchema
  cases hf : Schema.ofFragment fragment with
  | ok schema => exact Schema.distinct_of_ofFragment hf
  | error e => exact (written_unsupported _).distinct

/-- No level repeats a keyword. -/
theorem distinct_level (h : Level meaning setting node schema) : schema.Distinct := by
  by_cases hraw : node.kind = .override
  · cases h with
    | raw _ => exact distinct_rawSchema _ _
    | _ => simp_all [ObjectNode.kind, ObjectShape.kind]
  · exact (written_level h hraw).distinct

end Translation

end GraphSchema
