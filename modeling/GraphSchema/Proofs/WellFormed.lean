import GraphSchema.Proofs.Standing

/-!
Well-formed schemas.

- `Json.Allowed` : what may stand under each keyword that compilation writes.
- `Json.WellFormed` : a schema, at every depth, with its limits in order.
- `Translation.wellFormed_level`, `Translation.wellFormed_expand` : a level of a node is such a schema, if those of its
  children are.
- `schemas_well_formed` : a document is such a schema, apart from empty tuples that stand in it.
- `empty_tuple_ill_formed` : an empty tuple has an empty list of items, which is none.
-/

namespace GraphSchema

open Json (Path)

/-- One number is at most another one of its kind. -/
def Number.AtMost : Number → Number → Prop
  | .int a, .int b => a ≤ b
  | .real a, .real b => a ≤ b
  | _, _ => False

namespace Json

/-- the keywords under which a text stands -/
def textKeywords : List String :=
  ["$schema", "$id", "$ref", "type", "format", "title", "description", "$comment", Schema.unsupportedKeyword]

/-- the keywords for limits, in pairs -/
def limitKeywords : List (String × String) :=
  [("minimum", "maximum"), ("minLength", "maxLength"), ("minItems", "maxItems")]

/-- What may stand under a keyword. Lists of schemas are not empty, unless empty lists of items are let through. No other
keywords may stand at all. -/
inductive Allowed (hollow : Prop) (IsSchema : Json → Prop) : String → Json → Prop
  | schema {keyword : String} (h : keyword ∈ ["items", "additionalProperties"]) {value : Json}
      (hschema : IsSchema value) : Allowed hollow IsSchema keyword value
  | table {keyword : String} (h : keyword ∈ ["properties", Reference.definitionsKeyword]) {entries : Members Json}
      (hall : ∀ entry ∈ entries, IsSchema entry.2) : Allowed hollow IsSchema keyword (.obj entries)
  | arms {schemas : List Json} (hall : ∀ schema ∈ schemas, IsSchema schema) (hsome : schemas ≠ []) :
      Allowed hollow IsSchema "oneOf" (.arr schemas)
  | items {schemas : List Json} (hall : ∀ schema ∈ schemas, IsSchema schema) (hsome : schemas = [] → hollow) :
      Allowed hollow IsSchema "prefixItems" (.arr schemas)
  | required {names : List String} (hdistinct : names.Nodup) :
      Allowed hollow IsSchema "required" (.arr (names.map .str))
  | text {keyword : String} (h : keyword ∈ textKeywords) (text : String) : Allowed hollow IsSchema keyword (.str text)
  | examples (values : List Json) : Allowed hollow IsSchema "examples" (.arr values)
  | deprecated (mark : Bool) : Allowed hollow IsSchema "deprecated" (.bool mark)
  | default (value : Json) : Allowed hollow IsSchema "default" value
  | count {keyword : String} (h : keyword ∈ ["minLength", "maxLength", "minItems", "maxItems"]) (n : Nat) :
      Allowed hollow IsSchema keyword (.nat n)
  | bound {keyword : String} (h : keyword ∈ ["minimum", "maximum"]) (n : Number) :
      Allowed hollow IsSchema keyword (.num n)

end Json

/-- No lower limit of a schema is above the upper one. -/
def Schema.Ordered (schema : Schema) : Prop :=
  ∀ pair ∈ Json.limitKeywords, ∀ low high, Members.get? schema.members pair.1 = some (.num low) →
    Members.get? schema.members pair.2 = some (.num high) → low.AtMost high

/-- a schema that is in order, with all schemas inside it -/
inductive Json.WellFormed (hollow : Prop) : Json → Prop
  | bool (answer : Bool) : WellFormed hollow (.bool answer)
  | obj {members : Members Json} (hallowed : ∀ keyword value, Members.get? members keyword = some value →
      Allowed hollow (WellFormed hollow) keyword value) (hordered : Schema.Ordered ⟨members⟩) :
      WellFormed hollow (.obj members)

namespace Schema

/-- Under every keyword of a schema stands what may stand there, with well-formed schemas inside. -/
def Lawful (hollow : Prop) (schema : Schema) : Prop :=
  ∀ keyword value, Members.get? schema.members keyword = some value →
    Json.Allowed hollow (Json.WellFormed hollow) keyword value

/-- a schema under construction that is well formed -/
structure WellFormed (hollow : Prop) (schema : Schema) : Prop where
  lawful : schema.Lawful hollow
  ordered : schema.Ordered

variable {hollow : Prop} {schema : Schema}

theorem WellFormed.toJson (h : schema.WellFormed hollow) : schema.toJson.WellFormed hollow :=
  .obj h.lawful h.ordered

/-! ## Writing keywords -/

theorem get?_set (schema : Schema) (keyword : String) (value : Json) (other : String) :
    Members.get? (schema.set keyword value).members other =
      if other = keyword then some value else Members.get? schema.members other :=
  Members.get?_insert schema.members keyword value other

theorem Lawful.set (h : schema.Lawful hollow) {keyword : String} {value : Json}
    (hallowed : Json.Allowed hollow (Json.WellFormed hollow) keyword value) :
    (schema.set keyword value).Lawful hollow := by
  intro other found hholds
  rw [get?_set] at hholds
  split_ifs at hholds with hsame
  · cases hholds
    exact hsame ▸ hallowed
  · exact h other found hholds

/-- the keywords for limits -/
def limiting : List String := Json.limitKeywords.flatMap fun pair => [pair.1, pair.2]

/-- What is no limit may be written. -/
theorem WellFormed.set (h : schema.WellFormed hollow) {keyword : String} (haside : keyword ∉ limiting) {value : Json}
    (hallowed : Json.Allowed hollow (Json.WellFormed hollow) keyword value) :
    (schema.set keyword value).WellFormed hollow := by
  refine ⟨h.lawful.set hallowed, fun pair hmem low high hlow hhigh => ?_⟩
  have hlimits : ∀ pair ∈ Json.limitKeywords, pair.1 ∈ limiting ∧ pair.2 ∈ limiting := by decide
  have hapart {other : String} (hlimit : other ∈ limiting) : other ≠ keyword := by
    rintro rfl
    exact haside hlimit
  rw [get?_set_of_ne (hapart (hlimits pair hmem).1)] at hlow
  rw [get?_set_of_ne (hapart (hlimits pair hmem).2)] at hhigh
  exact h.ordered pair hmem low high hlow hhigh

/-- Two limits may be written together, if they are in order. -/
theorem WellFormed.setLimits (h : schema.WellFormed hollow) (pair : String × String) (hmem : pair ∈ Json.limitKeywords)
    {low high : Number} (hallowedLow : Json.Allowed hollow (Json.WellFormed hollow) pair.1 (.num low))
    (hallowedHigh : Json.Allowed hollow (Json.WellFormed hollow) pair.2 (.num high)) (hle : low.AtMost high) :
    ((schema.set pair.1 (.num low)).set pair.2 (.num high)).WellFormed hollow := by
  have hapart : ∀ p ∈ Json.limitKeywords, ∀ q ∈ Json.limitKeywords,
      p.1 ≠ q.2 ∧ (p ≠ q → p.1 ≠ q.1 ∧ p.2 ≠ q.2) := by decide
  refine ⟨(h.lawful.set hallowedLow).set hallowedHigh, fun other hpair l u hlow hhigh => ?_⟩
  by_cases hsame : other = pair
  · subst hsame
    rw [get?_set_of_ne (hapart other hmem other hmem).1, get?_set, if_pos rfl] at hlow
    rw [get?_set, if_pos rfl] at hhigh
    cases hlow
    cases hhigh
    exact hle
  · obtain ⟨hlows, hhighs⟩ := (hapart other hpair pair hmem).2 hsame
    rw [get?_set_of_ne (hapart other hpair pair hmem).1, get?_set_of_ne hlows] at hlow
    rw [get?_set_of_ne hhighs, get?_set_of_ne (hapart pair hmem other hpair).1.symm] at hhigh
    exact h.ordered other hpair l u hlow hhigh

theorem wellFormed_empty : Schema.empty.WellFormed hollow :=
  ⟨nofun, nofun⟩

theorem wellFormed_text {keyword : String} (htext : keyword ∈ Json.textKeywords) (text : String) :
    (Schema.empty.set keyword (.str text)).WellFormed hollow := by
  have haside : ∀ keyword ∈ Json.textKeywords, keyword ∉ limiting := by decide
  exact wellFormed_empty.set (haside keyword htext) (.text htext text)

theorem wellFormed_ofType (type : String) : (ofType type).WellFormed hollow :=
  wellFormed_text (by decide) type

theorem WellFormed.comment (h : schema.WellFormed hollow) (text : String) : (schema.comment text).WellFormed hollow := by
  unfold Schema.comment
  cases Metadata.commentOf schema.members <;> exact h.set (by decide) (.text (by decide) _)

/-- Metadata write what may stand under their keywords. -/
theorem WellFormed.annotate (h : schema.WellFormed hollow) (metadata : Option Metadata) :
    (schema.annotate metadata).WellFormed hollow := by
  refine annotate_writes (P := fun members => WellFormed hollow ⟨members⟩) h ?_
  intro m _ members keyword value hwellFormed hwrites
  have haside : ∀ keyword ∈ annotationKeywords, keyword ∉ limiting := by decide
  refine hwellFormed.set (haside keyword hwrites.annotates.1) ?_
  cases hwrites with
  | text htext text =>
    have htexts : ∀ keyword ∈ ["title", "description", "$comment"], keyword ∈ Json.textKeywords := by decide
    exact .text (htexts keyword htext) text
  | examples => exact .examples m.examples
  | deprecated => exact .deprecated true

theorem WellFormed.dressed (h : schema.WellFormed hollow) (metadata : Option Metadata) (default : Option String) :
    (schema.dressed metadata default).WellFormed hollow := by
  cases default with
  | none => exact h.annotate metadata
  | some literal => exact (h.annotate metadata).set (by decide) (.default _)

end Schema

/-! ## Levels -/

/-- whether a node is neither a raw schema nor an object type with a property that is one -/
def ObjectNode.isPlain (node : ObjectNode) : Bool :=
  match node.shape with
  | .override _ => false
  | .custom props _ => props.all (·.member?.isSome)
  | _ => true

theorem ObjectNode.kind_of_isPlain {node : ObjectNode} (hplain : node.isPlain = true) : node.kind ≠ .override := by
  unfold isPlain at hplain
  unfold kind
  cases hshape : node.shape with
  | override fragment =>
    rw [hshape] at hplain
    cases hplain
  | _ => nofun

theorem ObjectNode.member_of_isPlain {node : ObjectNode} (hplain : node.isPlain = true) {props : List Property}
    {implements : List ObjectId} (hshape : node.shape = .custom props implements) {p : Property} (hmem : p ∈ props) :
    ∃ member default, p.shape = .custom member default := by
  rw [isPlain, hshape] at hplain
  have hmember := List.all_eq_true.1 hplain p hmem
  unfold Property.member? at hmember
  cases hpShape : p.shape with
  | override fragment =>
    rw [hpShape] at hmember
    cases hmember
  | custom member default => exact ⟨member, default, rfl⟩

namespace Translation

variable {hollow : Prop} {meaning : ObjectId → Option (Option Schema)} {setting : Setting} {node : ObjectNode}
  {schema : Schema}

theorem wellFormed_primitive (p : Primitive) : p.schema.WellFormed hollow := by
  have hinteger {low high : Int} (hle : low ≤ high) : (Primitive.integerSchema low high).WellFormed hollow :=
    (Schema.wellFormed_ofType _).setLimits ("minimum", "maximum") (by decide) (.bound (by decide) _)
      (.bound (by decide) _) hle
  have hnumber {bound : Float} (hle : -bound ≤ bound) : (Primitive.numberSchema bound).WellFormed hollow :=
    (Schema.wellFormed_ofType _).setLimits ("minimum", "maximum") (by decide) (.bound (by decide) _)
      (.bound (by decide) _) hle
  have hformat (text : String) : (Primitive.formatSchema text).WellFormed hollow :=
    (Schema.wellFormed_ofType _).set (by decide) (.text (by decide) text)
  cases p with
  | boolean | string => exact Schema.wellFormed_ofType _
  | byte | sByte | int16 | uInt16 | int32 | uInt32 | int64 | uInt64 => exact hinteger (by decide)
  | single | double | decimal => exact hnumber (by decide +kernel)
  | char =>
    exact (Schema.wellFormed_ofType _).setLimits ("minLength", "maxLength") (by decide)
      (.count (by decide) 1) (.count (by decide) 1) (Int.le_refl 1)
  | dateTime | dateTimeOffset | dateOnly | timeOnly | timeSpan | guid | uri => exact hformat _

theorem wellFormed_nullable {inner : Schema} (h : inner.WellFormed hollow) :
    (Shape.nullableSchema inner).WellFormed hollow := by
  refine Schema.wellFormed_empty.set (by decide) (.arms (fun schema hmem => ?_) (List.cons_ne_nil _ _))
  rcases List.mem_cons.1 hmem with rfl | hmem
  · exact h.toJson
  · rw [List.mem_singleton.1 hmem]
    exact (Schema.wellFormed_ofType "null").toJson

theorem wellFormed_map {inner : Schema} (h : inner.WellFormed hollow) : (Shape.mapSchema inner).WellFormed hollow :=
  (Schema.wellFormed_ofType _).set (by decide) (.schema (by decide) h.toJson)

theorem wellFormed_union {schemas : List Json} (hall : ∀ schema ∈ schemas, schema.WellFormed hollow) :
    (unionSchema schemas).WellFormed hollow := by
  unfold unionSchema
  split_ifs with hempty
  · exact Schema.wellFormed_ofType _
  · exact (Schema.wellFormed_ofType _).set (by decide) (.arms hall fun hnone => hempty (List.isEmpty_iff.2 hnone))

theorem wellFormed_object {compiled : List (Property × Schema)} (hall : ∀ entry ∈ compiled, entry.2.WellFormed hollow)
    (hnames : ((compiled.map (·.1)).map (·.name)).Nodup) : (Shape.objectSchema compiled).WellFormed hollow := by
  have htable : Json.Allowed hollow (Json.WellFormed hollow) "properties" (.obj (propertyTable compiled)) := by
    refine .table (by decide) fun entry hmem => ?_
    rcases Members.mem_insertAll hmem with hmem | hmem
    · cases hmem
    · obtain ⟨source, hsource, rfl⟩ := List.mem_map.1 hmem
      exact (hall source hsource).toJson
  have hrequired : ((compiled.filter (·.1.nullability.isRequired)).map (·.1.name)).Nodup := by
    rw [List.map_map] at hnames
    exact hnames.sublist (List.filter_sublist.map _)
  have hbase : ((Schema.ofType "object").set "properties" (.obj (propertyTable compiled))).WellFormed hollow :=
    (Schema.wellFormed_ofType "object").set (by decide) htable
  unfold Shape.objectSchema
  dsimp only
  split_ifs
  · exact hbase
  · exact hbase.set (by decide) (.required hrequired)

theorem wellFormed_tuple {items : List Json} (hall : ∀ schema ∈ items, schema.WellFormed hollow)
    (hsome : items = [] → hollow) : (Shape.tupleSchema items).WellFormed hollow :=
  ((Schema.wellFormed_ofType "array").set (by decide) (.items hall hsome)).setLimits ("minItems", "maxItems")
    (by decide) (.count (by decide) items.length) (.count (by decide) items.length) (Int.le_refl _)

/-- Only an empty tuple has no items. -/
theorem eq_nil_of_elements {ids : List ObjectId} (h : elements meaning ids = some (some [])) : ids = [] := by
  cases ids with
  | nil => rfl
  | cons id rest =>
    obtain ⟨first, -, h⟩ := Option.bind_eq_some_iff.1 h
    cases first with
    | none => cases h
    | some inner =>
      obtain ⟨others, -, ho⟩ := Option.map_eq_some_iff.1 h
      obtain ⟨tail, -, hsame⟩ := Option.map_eq_some_iff.1 ho
      cases hsame

/-- **One level.** A level is well formed if those of the children are, where an empty tuple is let through. -/
theorem wellFormed_level (h : Level meaning setting node schema) (hplain : node.isPlain = true)
    (hnames : ∀ {props implements}, node.shape = .custom props implements → (props.map (·.name)).Nodup)
    (hhollowed : node.shape = .tuple [] → hollow)
    (hchild : ∀ id ∈ setting.graph.followed setting.options.dictionaryKeys node, ∀ inner,
      meaning id = some (some inner) → inner.WellFormed hollow) : schema.WellFormed hollow := by
  unfold TypeGraph.followed at hchild
  cases h with
  | raw hshape => exact absurd (by rw [ObjectNode.kind, hshape]; rfl) (ObjectNode.kind_of_isPlain hplain)
  | primitive _ => exact wellFormed_primitive _
  | refused _ _ _ => exact Schema.wellFormed_text (by decide) _
  | generic _ text => exact (Schema.wellFormed_ofType _).comment text
  | nullable hshape hmeans =>
    simp only [hshape] at hchild
    exact wellFormed_nullable (hchild _ (List.mem_singleton_self _) _ hmeans)
  | array hshape hmeans =>
    simp only [hshape] at hchild
    exact (Schema.wellFormed_ofType _).set (by decide)
      (.schema (by decide) (hchild _ (List.mem_singleton_self _) _ hmeans).toJson)
  | map hshape haccepted hmeans =>
    simp only [hshape, haccepted, if_true] at hchild
    exact wellFormed_map (hchild _ (List.mem_singleton_self _) _ hmeans)
  | commented hshape haccepted hmeans text =>
    simp only [hshape, haccepted, if_true] at hchild
    exact (wellFormed_map (hchild _ (List.mem_singleton_self _) _ hmeans)).comment text
  | union hshape hmeans =>
    simp only [hshape] at hchild
    refine wellFormed_union fun schema hmem => ?_
    obtain ⟨id, hid, inner, hmeansChild, rfl⟩ := mem_arms hmeans hmem
    exact (hchild id hid inner hmeansChild).toJson
  | object hshape hmeans =>
    simp only [hshape] at hchild
    refine wellFormed_object (fun entry hmem => ?_) (((properties_sublist hmeans).map _).nodup (hnames hshape))
    obtain ⟨hproperty, hmeansProperty⟩ := mem_properties hmeans hmem
    obtain ⟨target, default, hmember⟩ := ObjectNode.member_of_isPlain hplain hshape hproperty
    have htarget : entry.1.member? = some target := by rw [Property.member?, hmember]
    rw [property, hmember] at hmeansProperty
    obtain ⟨inner, hmeansTarget, hsame⟩ := map_child_eq_some hmeansProperty
    rw [hsame]
    exact (hchild target (List.mem_filterMap.2 ⟨entry.1, hproperty, htarget⟩) inner hmeansTarget).dressed _ _
  | tuple hshape hmeans =>
    simp only [hshape] at hchild
    refine wellFormed_tuple (fun schema hmem => ?_) fun hnone => hhollowed ?_
    · obtain ⟨id, hid, inner, hmeansChild, rfl⟩ := mem_elements hmeans hmem
      exact (hchild id hid inner hmeansChild).toJson
    · subst hnone
      rw [hshape, eq_nil_of_elements hmeans]

/-- **Levels.** In a graph that is in order and has no raw schemas, the level of a node is well formed, where the empty
tuples inside it are let through. -/
theorem wellFormed_expand (hvalid : setting.graph.validate = .ok ())
    (hplain : ∀ node ∈ setting.graph.objects, node.isPlain = true) {fuel : Nat} {id : ObjectId}
    (hfound : setting.graph.get? id = some node) (hexpands : expand setting fuel node = some (some schema))
    (hhollowed : ∀ place ∈ places setting fuel node, place.2.shape = .tuple [] → hollow) :
    schema.WellFormed hollow := by
  induction fuel generalizing id node schema with
  | zero => cases hexpands
  | succ fuel ih =>
    refine wellFormed_level (level_of_layer hexpands) (hplain node (TypeGraph.mem_objects hfound))
      (TypeGraph.nodup_names hvalid hfound) (hhollowed ([], node) List.mem_cons_self)
      fun child hchild inner hmeans => ?_
    have hkeeps : kept (Translation.child setting (expand setting fuel)) child = true := by rw [kept, hmeans]
    obtain ⟨path, hslot⟩ := exists_slot hchild hkeeps
    obtain ⟨target, htarget, ⟨-, hsame⟩ | ⟨hinlined, outcome, hexpandsTarget, hwrapped⟩⟩ := child_eq_some_iff.1 hmeans
    · cases hsame
      exact Schema.wellFormed_text (by decide) _
    · obtain ⟨below, rfl, rfl⟩ := Option.map_eq_some_iff.1 hwrapped.symm
      refine (ih htarget hexpandsTarget fun place hmem => ?_).annotate target.metadata
      exact hhollowed (path ++ place.1, place.2) (mem_places_of_slot hslot htarget hinlined hmem)

end Translation

/-! ## Documents -/

namespace Compilation

variable {graph : TypeGraph} {request : RootRequest} {options : CompileOptions} {compiled : CompiledSchema}
  {root : ObjectNode} {outcome : Option Schema} {table : Definitions} {hollow : Prop}

section

variable (hc : Compilation graph request options compiled root outcome table)
  (hplain : ∀ node ∈ graph.objects, node.isPlain = true)
  (hhollowed : ∀ path node, compiled.Shows (rootSetting graph options root) root path node →
    node.shape = .tuple [] → hollow)
include hc hplain hhollowed

theorem wellFormed_root : (rootSchema root request outcome).WellFormed hollow := by
  refine Schema.WellFormed.annotate ?_ _
  cases outcome with
  | none => exact Schema.wellFormed_text (by decide) _
  | some level =>
    obtain ⟨fuel, hexpands⟩ := hc.translated
    exact Translation.wellFormed_expand hc.valid hplain hc.found_root hexpands
      fun place hmem => hhollowed _ _ (.body hexpands hmem)

theorem wellFormed_definition {entry : String × Json} (hmem : entry ∈ compiled.defs) : entry.2.WellFormed hollow := by
  have hnotRaw := ObjectNode.kind_of_isPlain (hplain root (TypeGraph.mem_objects hc.found))
  obtain ⟨id, node, hsettled⟩ := hc.settled_of_mem hnotRaw hmem
  obtain ⟨level, ⟨fuel, hexpands⟩, hsame⟩ := hsettled.translated
  have hholds := hc.ascending_defs.get?_of_mem hmem
  rw [← hsettled.named, hsame] at hholds
  have hlevel : level.WellFormed hollow :=
    Translation.wellFormed_expand hc.valid hplain hsettled.found hexpands fun place hplace =>
      hhollowed _ _ (.definition hsettled.found hholds
        (fun target hmentioned => hc.leads_of_known (hsettled.closed target hmentioned)) hexpands hplace)
  rw [hsame]
  exact (hlevel.annotate node.metadata).toJson

/-- The envelope of a document, its root and its definitions are in order. -/
theorem wellFormed_document : compiled.schema.WellFormed hollow := by
  have hroot := hc.wellFormed_root hplain hhollowed
  refine ⟨fun keyword value hholds => ?_, fun pair hmem low high hlow hhigh => ?_⟩
  · have hmem := Members.mem_of_get? hholds
    rw [hc.schema_eq] at hmem
    rcases List.mem_append.1 hmem with hmem | hmem
    · rcases List.mem_append.1 hmem with hmem | hmem
      · obtain ⟨hopens, text, hsame⟩ := mem_opening hmem
        cases hsame
        exact .text (by rcases hopens with rfl | rfl <;> decide) text
      · exact hroot.lawful keyword value ((hc.get?_schema (Schema.mem_body.1 hmem).2).symm.trans hholds)
    · obtain ⟨rfl, rfl⟩ := Prod.mk.inj (mem_definitionMember hmem)
      rw [← hc.defs_eq]
      exact .table (by decide) fun entry => hc.wellFormed_definition hplain hhollowed
  · have houtside : ∀ pair ∈ Json.limitKeywords, pair.1 ∉ envelope ∧ pair.2 ∉ envelope := by decide
    rw [hc.get?_schema (houtside pair hmem).1] at hlow
    rw [hc.get?_schema (houtside pair hmem).2] at hhigh
    exact hroot.ordered pair hmem low high hlow hhigh

end

/-- The list of items of an empty tuple is empty. -/
theorem hollow_at_place (hc : Compilation graph request options compiled root outcome table) {path : Path}
    {node : ObjectNode} (hshown : compiled.Shows (rootSetting graph options root) root path node)
    (hshape : node.shape = .tuple []) : ∃ schema : Schema, compiled.document.at? path = some schema.toJson ∧
      Members.get? schema.members "prefixItems" = some (.arr []) := by
  obtain ⟨id, fuel, level, schema, -, hexpands, hhere, hagrees, -⟩ :=
    hc.stands_in_document hshown (by rw [ObjectNode.kind, hshape]; rfl)
  cases fuel with
  | zero => cases hexpands
  | succ fuel =>
    rw [Translation.expand, Translation.layer, hshape] at hexpands
    cases hexpands
    exact ⟨schema, hhere, hagrees "prefixItems" (by decide)⟩

end Compilation

/-- **Well-formed documents.** Let a build of a graph without raw schemas succeed. Then the document is a well-formed
schema, with all schemas inside it and in its definitions: under each keyword stands what may stand there, no other
keyword stands anywhere, and lower limits are not above upper ones. Only where an empty tuple stands in the document is
the list of its items empty, which it is then. -/
theorem schemas_well_formed {graph : TypeGraph} {request : RootRequest} {options : CompileOptions}
    {compiled : CompiledSchema} (h : build graph request options = .ok compiled)
    (hplain : ∀ node ∈ graph.objects, node.isPlain = true) :
    ∃ root, graph.get? request.root = some root ∧
      compiled.document.WellFormed (∃ path node, node ∈ graph.objects ∧
        compiled.Shows (rootSetting graph options root) root path node ∧ node.shape = .tuple []) ∧
      ∀ path node, compiled.Shows (rootSetting graph options root) root path node → node.shape = .tuple [] →
        ∃ schema : Schema, compiled.document.at? path = some schema.toJson ∧
          Members.get? schema.members "prefixItems" = some (.arr []) := by
  obtain ⟨root, outcome, table, hc⟩ := compilation_of_build h
  refine ⟨root, hc.found, ?_, fun path node hshown hshape => hc.hollow_at_place hshown hshape⟩
  rw [hc.document_eq]
  refine (hc.wellFormed_document hplain fun path node hshown hshape => ?_).toJson
  obtain ⟨id, -, -, -, hfound, -⟩ := hc.stands_in_document hshown (by rw [ObjectNode.kind, hshape]; rfl)
  exact ⟨path, node, TypeGraph.mem_objects hfound, hshown, hshape⟩

/-- The document of the list of tagged nodes is well formed throughout. -/
theorem schemas_well_formed_taggedList : ∃ compiled, build taggedList { root := ⟨1⟩ } {} = .ok compiled ∧
    compiled.document.WellFormed False := by
  obtain ⟨compiled, hbuilt⟩ := taggedList_builds
  obtain ⟨root, -, hwellFormed, -⟩ := schemas_well_formed hbuilt (by decide)
  have hnoTuple : ∀ node ∈ taggedList.objects, node.kind ≠ .tuple := by decide
  have hfull : ¬ ∃ path node, node ∈ taggedList.objects ∧
      compiled.Shows (rootSetting taggedList {} root) root path node ∧ node.shape = .tuple [] := by
    rintro ⟨_, node, hmem, -, hshape⟩
    exact hnoTuple node hmem (by rw [ObjectNode.kind, hshape]; rfl)
  exact ⟨compiled, hbuilt, eq_false hfull ▸ hwellFormed⟩

/-- a type of one value -/
def unitType : TypeGraph := ⟨[{ identity := "()", shape := .tuple [] }]⟩

/-- In a well-formed schema, a list of items is empty only if that is let through. -/
theorem Json.WellFormed.hollow {hollow : Prop} {members : Members Json} (h : (Json.obj members).WellFormed hollow)
    (hempty : Members.get? members "prefixItems" = some (.arr [])) : hollow := by
  cases h with
  | obj hallowed _ =>
    have hhere := hallowed _ _ hempty
    generalize hkeyword : "prefixItems" = keyword at hhere
    generalize hvalue : Json.arr [] = value at hhere
    cases hhere with
    | items _ hsome => exact hsome (Json.arr.inj hvalue).symm
    | schema hschema _ => exact absurd (hkeyword ▸ hschema) (by decide)
    | arms _ _ | required _ | examples _ | default _ => exact absurd hkeyword (by decide)
    | table _ _ | text _ _ | deprecated _ | count _ _ | bound _ _ => cases hvalue

/-- **An empty list of items.** The document of a tuple without elements is not well formed: its list of items is empty. -/
theorem empty_tuple_ill_formed : ∃ compiled, build unitType { root := ⟨0⟩ } {} = .ok compiled ∧
    ¬ compiled.document.WellFormed False := by
  have hsucceeds : (build unitType { root := ⟨0⟩ } {}).isOk = true := by decide +kernel
  obtain ⟨compiled, hbuilt⟩ := exists_ok_of_isOk hsucceeds
  have hempty : (build unitType { root := ⟨0⟩ } {}).toOption.bind (·.document.get? "prefixItems") =
      some (.arr []) := rfl
  rw [hbuilt, Except.toOption, Option.bind_some] at hempty
  refine ⟨compiled, hbuilt, fun hwellFormed => ?_⟩
  obtain ⟨members, hobject, hempty⟩ := Option.bind_eq_some_iff.1 hempty
  cases hdocument : compiled.document with
  | obj members' =>
    rw [hdocument] at hwellFormed hobject
    cases hobject
    exact hwellFormed.hollow hempty
  | _ =>
    rw [hdocument] at hobject
    cases hobject

end GraphSchema
