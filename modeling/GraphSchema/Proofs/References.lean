import GraphSchema.Proofs.Document

/-!
References in a document.

- `Json.named` collects the values of all members of a name, at every depth of a value.
- `ReferenceFree` says of a graph and a request that they bring no member named `$ref` of their own.
- `references_closed`: all references in a document lead somewhere, to the document itself or to a definition in
  it.
-/

namespace GraphSchema

/-! ## Members of a name -/

namespace Json

mutual

/-- the values of all members of a name, at every depth -/
def named (name : String) : Json → List Json
  | .arr items => namedItems name items
  | .obj members => namedMembers name members
  | _ => []

def namedItems (name : String) : List Json → List Json
  | [] => []
  | item :: rest => named name item ++ namedItems name rest

def namedMembers (name : String) : List (String × Json) → List Json
  | [] => []
  | (key, value) :: rest =>
    (if key = name then [value] else []) ++ named name value ++ namedMembers name rest

end

theorem mem_named_arr {name : String} {items : List Json} {v : Json} :
    v ∈ named name (.arr items) ↔ ∃ item ∈ items, v ∈ named name item := by
  rw [named]
  induction items with
  | nil => simp [namedItems]
  | cons item rest ih => simp [namedItems, ih]

theorem mem_named_obj {name : String} {members : List (String × Json)} {v : Json} :
    v ∈ named name (.obj members) ↔
      ∃ entry ∈ members, (entry.1 = name ∧ v = entry.2) ∨ v ∈ named name entry.2 := by
  rw [named]
  induction members with
  | nil => simp [namedMembers]
  | cons entry rest ih =>
    obtain ⟨key, value⟩ := entry
    rw [namedMembers, List.mem_append, List.mem_append, ih, List.exists_mem_cons_iff]
    by_cases hk : key = name <;> simp [hk]

/-- whether only such values stand under members named `$ref` -/
def RefersWithin (allowed : Json → Prop) (value : Json) : Prop :=
  ∀ v ∈ value.named "$ref", allowed v

/-- whether no member is named `$ref`, at any depth -/
def ReferenceFree (value : Json) : Prop := value.named "$ref" = []

variable {allowed : Json → Prop}

theorem ReferenceFree.refersWithin {value : Json} (h : value.ReferenceFree) : value.RefersWithin allowed := by
  intro v hv
  rw [h] at hv
  cases hv

theorem RefersWithin.mono {more : Json → Prop} {value : Json} (h : value.RefersWithin allowed)
    (hle : ∀ v, allowed v → more v) : value.RefersWithin more :=
  fun v hv => hle v (h v hv)

@[simp] theorem refersWithin_bool (b : Bool) : RefersWithin allowed (.bool b) := by simp [RefersWithin, named]

@[simp] theorem refersWithin_num (n : Number) : RefersWithin allowed (.num n) := by simp [RefersWithin, named]

@[simp] theorem refersWithin_str (text : String) : RefersWithin allowed (.str text) := by
  simp [RefersWithin, named]

theorem refersWithin_arr {items : List Json} :
    RefersWithin allowed (.arr items) ↔ ∀ item ∈ items, RefersWithin allowed item := by
  constructor
  · exact fun h item hm v hv => h v (mem_named_arr.2 ⟨item, hm, hv⟩)
  · intro h v hv
    obtain ⟨item, hm, hv⟩ := mem_named_arr.1 hv
    exact h item hm v hv

theorem refersWithin_obj {members : List (String × Json)} :
    RefersWithin allowed (.obj members) ↔
      ∀ entry ∈ members, (entry.1 = "$ref" → allowed entry.2) ∧ RefersWithin allowed entry.2 := by
  constructor
  · exact fun h entry hm => ⟨fun hk => h _ (mem_named_obj.2 ⟨entry, hm, Or.inl ⟨hk, rfl⟩⟩),
      fun v hv => h v (mem_named_obj.2 ⟨entry, hm, Or.inr hv⟩)⟩
  · intro h v hv
    obtain ⟨entry, hm, ⟨hk, rfl⟩ | hv⟩ := mem_named_obj.1 hv
    · exact (h entry hm).1 hk
    · exact (h entry hm).2 v hv

end Json

/-! ## Schemas and what is written onto them -/

namespace Schema

variable {allowed : Json → Prop} {schema : Schema}

/-- whether the references in a schema are such values -/
def RefersWithin (allowed : Json → Prop) (schema : Schema) : Prop := schema.toJson.RefersWithin allowed

theorem refersWithin_insert {members : Members Json} (h : Json.RefersWithin allowed (.obj members))
    {key : String} {value : Json} (hkey : key ≠ "$ref") (hvalue : value.RefersWithin allowed) :
    Json.RefersWithin allowed (.obj (Members.insert members key value)) := by
  rw [Json.refersWithin_obj] at h ⊢
  intro entry hm
  rcases Members.mem_insert hm with rfl | hm
  · exact ⟨fun hk => absurd hk hkey, hvalue⟩
  · exact h entry hm

theorem refersWithin_empty : Schema.empty.RefersWithin allowed :=
  Json.refersWithin_obj.2 fun _ hm => by cases hm

theorem RefersWithin.set (h : schema.RefersWithin allowed) {keyword : String} {value : Json}
    (hkey : keyword ≠ "$ref") (hvalue : value.RefersWithin allowed) :
    (schema.set keyword value).RefersWithin allowed :=
  refersWithin_insert h hkey hvalue

theorem refersWithin_ofType (type : String) : (Schema.ofType type).RefersWithin allowed :=
  refersWithin_empty.set (by decide) (Json.refersWithin_str type)

theorem refersWithin_unsupported (message : String) : (Schema.unsupported message).RefersWithin allowed :=
  refersWithin_empty.set (by decide) (Json.refersWithin_str message)

theorem refersWithin_ofReference {text : String} (h : allowed (.str text)) :
    (Schema.ofReference text).RefersWithin allowed := by
  refine Json.refersWithin_obj.2 fun entry hm => ?_
  rcases Members.mem_insert hm with rfl | hm
  · exact ⟨fun _ => h, Json.refersWithin_str text⟩
  · cases hm

theorem RefersWithin.comment (h : schema.RefersWithin allowed) (text : String) :
    (schema.comment text).RefersWithin allowed := by
  unfold Schema.comment
  cases Metadata.commentOf schema.members <;> exact h.set (by decide) (Json.refersWithin_str _)

end Schema

/-- whether no example has a member named `$ref` -/
def Metadata.ReferenceFree (m : Metadata) : Prop := ∀ value ∈ m.examples, value.ReferenceFree

theorem Schema.RefersWithin.annotate {allowed : Json → Prop} {schema : Schema} (h : schema.RefersWithin allowed)
    {metadata : Option Metadata} (hm : ∀ m ∈ metadata, m.ReferenceFree) :
    (schema.annotate metadata).RefersWithin allowed := by
  refine annotate_induction (P := fun members => Json.RefersWithin allowed (.obj members)) h ?_
  intro m hmem members key value hmembers hkey hvalue
  have hne : key ≠ "$ref" := by
    rintro rfl
    exact absurd hkey (by decide)
  refine refersWithin_insert hmembers hne ?_
  rcases hvalue with ⟨text, rfl⟩ | rfl | rfl
  · exact Json.refersWithin_str text
  · exact Json.refersWithin_arr.2 fun value hv => (hm m hmem value hv).refersWithin
  · exact Json.refersWithin_bool true

/-! ## Graphs without references of their own -/

/-- whether what a text reads as has no member named `$ref`; a text that is no JSON has none -/
def ReferenceFreeText (text : String) : Prop := ∀ value, Json.read text = .ok value → value.ReferenceFree

/-- the JSON texts of a property: a raw schema, or a default value -/
def Property.texts (p : Property) : List String :=
  match p.shape with
  | .override fragment => [fragment]
  | .custom _ default => default.toList

structure Property.ReferenceFree (p : Property) : Prop where
  name : p.name ≠ "$ref"
  metadata : ∀ m ∈ p.metadata, m.ReferenceFree
  texts : ∀ text ∈ p.texts, ReferenceFreeText text

/-- whether a shape brings no member named `$ref` -/
def ObjectShape.ReferenceFree : ObjectShape → Prop
  | .override fragment => ReferenceFreeText fragment
  | .custom properties _ => ∀ p ∈ properties, p.ReferenceFree
  | _ => True

structure ObjectNode.ReferenceFree (node : ObjectNode) : Prop where
  identity : node.identity ≠ "$ref"
  metadata : ∀ m ∈ node.metadata, m.ReferenceFree
  shape : node.shape.ReferenceFree

/-- Neither the graph nor the request brings a member named `$ref`: no raw schema, no example and no default value
has one, and no property and no type is called that. Texts count as what they read as, so an escape that spells
the name is the name. -/
structure ReferenceFree (graph : TypeGraph) (request : RootRequest) : Prop where
  nodes : ∀ node ∈ graph.objects, node.ReferenceFree
  request : ∀ m ∈ request.metadata, m.ReferenceFree

theorem Metadata.ReferenceFree.merged {base overlay : Metadata} (hb : base.ReferenceFree)
    (ho : overlay.ReferenceFree) : (base.merged overlay).ReferenceFree := by
  unfold ReferenceFree Metadata.merged
  split_ifs
  · exact hb
  · exact ho

theorem referenceFree_rootMetadata {root : ObjectNode} {request : RootRequest}
    (hroot : ∀ m ∈ root.metadata, m.ReferenceFree) (hrequest : ∀ m ∈ request.metadata, m.ReferenceFree) :
    ∀ m ∈ rootMetadata root request, m.ReferenceFree := by
  unfold rootMetadata
  intro m hm
  split at hm
  · rename_i own requested hown hreq
    cases hm
    exact (hroot own hown).merged (hrequest requested hreq)
  · rw [Option.orElse_eq_orElse, Option.orElse_eq_or, Option.mem_def, Option.or_eq_some_iff] at hm
    rcases hm with hreq | ⟨-, hown⟩
    · exact hrequest m hreq
    · exact hroot m hown

namespace Translation

variable {allowed : Json → Prop} {meaning : ObjectId → Option (Option Schema)} {setting : Setting}
  {node : ObjectNode} {schema : Schema}

theorem refersWithin_rawSchema {fragment : String} (h : ReferenceFreeText fragment)
    (message : FragmentError → String) : (rawSchema fragment message).RefersWithin allowed := by
  unfold rawSchema Schema.ofFragment
  cases hr : Json.read fragment with
  | error fault => exact Schema.refersWithin_unsupported _
  | ok value =>
    cases value with
    | obj members => exact (h _ hr).refersWithin
    | bool b =>
      cases b with
      | true => exact Schema.refersWithin_empty
      | false => exact Schema.refersWithin_empty.set (by decide) (Json.refersWithin_obj.2 fun _ hm => by cases hm)
    | _ => exact Schema.refersWithin_unsupported _

theorem refersWithin_defaultValue {literal : String} (h : ReferenceFreeText literal) :
    (Shape.defaultValue literal).RefersWithin allowed := by
  unfold Shape.defaultValue
  cases hr : Json.read literal with
  | error fault => exact Json.refersWithin_str literal
  | ok value => exact (h value hr).refersWithin

theorem refersWithin_primitive (p : Primitive) : p.schema.RefersWithin allowed := by
  intro v hv
  cases p <;> cases hv

theorem mem_arms {ids : List ObjectId} {schemas : List Json} (h : arms meaning ids = some schemas) {j : Json}
    (hj : j ∈ schemas) : ∃ id ∈ ids, ∃ inner, meaning id = some (some inner) ∧ j = inner.toJson := by
  induction ids generalizing schemas with
  | nil =>
    cases h
    cases hj
  | cons id rest ih =>
    obtain ⟨first, hf, h⟩ := Option.bind_eq_some_iff.1 h
    obtain ⟨others, hr, rfl⟩ := Option.map_eq_some_iff.1 h
    rcases List.mem_append.1 hj with hj | hj
    · obtain ⟨inner, rfl, rfl⟩ := Option.map_eq_some_iff.1 (Option.mem_toList.1 hj)
      exact ⟨id, List.mem_cons_self, inner, hf, rfl⟩
    · obtain ⟨id', hm, hinner⟩ := ih hr hj
      exact ⟨id', List.mem_cons_of_mem _ hm, hinner⟩

theorem mem_elements {ids : List ObjectId} {items : List Json} (h : elements meaning ids = some (some items))
    {j : Json} (hj : j ∈ items) : ∃ id ∈ ids, ∃ inner, meaning id = some (some inner) ∧ j = inner.toJson := by
  induction ids generalizing items with
  | nil =>
    cases h
    cases hj
  | cons id rest ih =>
    obtain ⟨first, hf, h⟩ := Option.bind_eq_some_iff.1 h
    cases first with
    | none => cases h
    | some inner =>
      obtain ⟨others, hr, ho⟩ := Option.map_eq_some_iff.1 h
      obtain ⟨tail, rfl, rfl⟩ := Option.map_eq_some_iff.1 ho
      rcases List.mem_cons.1 hj with rfl | hj
      · exact ⟨id, List.mem_cons_self, inner, hf, rfl⟩
      · obtain ⟨id', hm, hinner⟩ := ih hr hj
        exact ⟨id', List.mem_cons_of_mem _ hm, hinner⟩

theorem mem_properties {props : List Property} {compiled : List (Property × Schema)}
    (h : properties meaning props = some compiled) {p : Property} (hp : (p, schema) ∈ compiled) :
    p ∈ props ∧ property meaning p = some (some schema) := by
  induction props generalizing compiled with
  | nil =>
    cases h
    cases hp
  | cons first rest ih =>
    obtain ⟨outcome, hf, h⟩ := Option.bind_eq_some_iff.1 h
    obtain ⟨others, hr, rfl⟩ := Option.map_eq_some_iff.1 h
    rcases List.mem_append.1 hp with hp | hp
    · obtain ⟨inner, rfl, he⟩ := Option.map_eq_some_iff.1 (Option.mem_toList.1 hp)
      cases he
      exact ⟨List.mem_cons_self, hf⟩
    · exact ⟨List.mem_cons_of_mem _ (ih hr hp).1, (ih hr hp).2⟩

theorem refersWithin_property {p : Property} (hfree : p.ReferenceFree)
    (hchild : ∀ id ∈ p.member?, ∀ inner, meaning id = some (some inner) → inner.RefersWithin allowed)
    (h : property meaning p = some (some schema)) : schema.RefersWithin allowed := by
  have htexts := hfree.texts
  unfold Property.texts at htexts
  unfold Property.member? at hchild
  unfold property at h
  cases hs : p.shape with
  | override fragment =>
    simp only [hs] at h htexts
    cases h
    exact refersWithin_rawSchema (htexts fragment (List.mem_singleton_self _)) _
  | custom member default =>
    simp only [hs] at h htexts hchild
    obtain ⟨inner, hm, rfl⟩ := map_child_eq_some h
    have hannotated := (hchild member rfl inner hm).annotate hfree.metadata
    cases default with
    | none => exact hannotated
    | some literal =>
      exact hannotated.set (by decide) (refersWithin_defaultValue (htexts literal (by simp)))

theorem refersWithin_object {props : List Property} {compiled : List (Property × Schema)}
    (hfree : ∀ p ∈ props, p.ReferenceFree)
    (hchild : ∀ id ∈ props.filterMap Property.member?, ∀ inner, meaning id = some (some inner) →
      inner.RefersWithin allowed)
    (h : properties meaning props = some compiled) : (Shape.objectSchema compiled).RefersWithin allowed := by
  have htable : Json.RefersWithin allowed
      (.obj (Members.ofList (compiled.map fun entry => (entry.1.name, entry.2.toJson)))) := by
    refine Json.refersWithin_obj.2 fun entry hm => ?_
    rcases Members.mem_insertAll hm with hm | hm
    · cases hm
    · obtain ⟨⟨p, schema⟩, hp, rfl⟩ := List.mem_map.1 hm
      obtain ⟨hprops, hproperty⟩ := mem_properties h hp
      have hmember : ∀ id ∈ p.member?, id ∈ props.filterMap Property.member? :=
        fun id hid => List.mem_filterMap.2 ⟨p, hprops, hid⟩
      exact ⟨fun hk => absurd hk (hfree p hprops).name,
        refersWithin_property (hfree p hprops) (fun id hid => hchild id (hmember id hid)) hproperty⟩
  have hnames : ∀ names : List String, Json.RefersWithin allowed (.arr (names.map .str)) := by
    refine fun names => Json.refersWithin_arr.2 fun item hm => ?_
    obtain ⟨name, -, rfl⟩ := List.mem_map.1 hm
    exact Json.refersWithin_str name
  unfold Shape.objectSchema
  simp only
  split_ifs
  · exact (Schema.refersWithin_ofType _).set (by decide) htable
  · exact ((Schema.refersWithin_ofType _).set (by decide) htable).set (by decide) (hnames _)

/-- **References of a level.** All references in the level of a node come from the children that its edges go
to. -/
theorem refersWithin_level (hfree : node.ReferenceFree)
    (hchild : ∀ id ∈ setting.graph.followed setting.options.dictionaryKeys node, ∀ inner,
      meaning id = some (some inner) → inner.RefersWithin allowed)
    (h : Level meaning setting node schema) : schema.RefersWithin allowed := by
  have hshape := hfree.shape
  unfold TypeGraph.followed at hchild
  cases h with
  | primitive _ => exact refersWithin_primitive _
  | raw hnode =>
    rw [hnode] at hshape
    exact refersWithin_rawSchema hshape _
  | nullable hnode hmeans =>
    simp only [hnode] at hchild
    refine Schema.refersWithin_empty.set (by decide) (Json.refersWithin_arr.2 fun item hm => ?_)
    rcases List.mem_cons.1 hm with rfl | hm
    · exact hchild _ (List.mem_singleton_self _) _ hmeans
    · rw [List.mem_singleton.1 hm]
      exact Schema.refersWithin_ofType _
  | array hnode hmeans =>
    simp only [hnode] at hchild
    exact (Schema.refersWithin_ofType _).set (by decide) (hchild _ (List.mem_singleton_self _) _ hmeans)
  | map hnode haccepted hmeans =>
    simp only [hnode, haccepted, if_true] at hchild
    exact (Schema.refersWithin_ofType _).set (by decide) (hchild _ (List.mem_singleton_self _) _ hmeans)
  | commented hnode haccepted hmeans text =>
    simp only [hnode, haccepted, if_true] at hchild
    exact ((Schema.refersWithin_ofType _).set (by decide)
      (hchild _ (List.mem_singleton_self _) _ hmeans)).comment text
  | refused _ _ _ => exact Schema.refersWithin_unsupported _
  | generic _ text => exact (Schema.refersWithin_ofType _).comment text
  | union hnode hmeans =>
    simp only [hnode] at hchild
    have harms := Json.refersWithin_arr.2 fun j hj => by
      obtain ⟨id, hid, inner, hm, rfl⟩ := mem_arms hmeans hj
      exact hchild id hid inner hm
    unfold unionSchema
    split_ifs
    · exact Schema.refersWithin_ofType _
    · exact (Schema.refersWithin_ofType _).set (by decide) harms
  | object hnode hmeans =>
    rw [hnode] at hshape
    simp only [hnode] at hchild
    exact refersWithin_object hshape hchild hmeans
  | tuple hnode hmeans =>
    simp only [hnode] at hchild
    have hitems := Json.refersWithin_arr.2 fun j hj => by
      obtain ⟨id, hid, inner, hm, rfl⟩ := mem_elements hmeans hj
      exact hchild id hid inner hm
    exact (((Schema.refersWithin_ofType _).set (by decide) hitems).set (by decide)
      (Json.refersWithin_num _)).set (by decide) (Json.refersWithin_num _)

end Translation

/-- the references that the level of a node may hold: links to the definitions it mentions -/
def Links (setting : Setting) (id : ObjectId) (v : Json) : Prop :=
  ∃ target, Mentions setting id target ∧ v = .str (Translation.link setting target.identity)

/-- **References of a translation.** Whatever fuel it takes, the level of a node refers to what the node mentions,
and to nothing else. -/
theorem refersWithin_expand {setting : Setting} (hfree : ∀ node ∈ setting.graph.objects, node.ReferenceFree)
    {fuel : Nat} {id : ObjectId} {node : ObjectNode} {schema : Schema} (hget : setting.graph.get? id = some node)
    (h : Translation.expand setting fuel node = some (some schema)) : schema.RefersWithin (Links setting id) := by
  induction fuel generalizing id node schema with
  | zero => cases h
  | succ fuel ih =>
    refine Translation.refersWithin_level (hfree node (TypeGraph.mem_objects hget)) (fun b hb inner hm => ?_)
      (Translation.level_of_layer h)
    have hedge : setting.graph.Follows setting.options.dictionaryKeys id b := ⟨node, hget, hb⟩
    obtain ⟨found, hfound, ⟨hdef, he⟩ | ⟨hinl, outcome, hexp, he⟩⟩ := Translation.child_eq_some_iff.1 hm
    · cases he
      exact Schema.refersWithin_ofReference ⟨found, .direct hedge hfound hdef, rfl⟩
    · obtain ⟨level, rfl, rfl⟩ := Option.map_eq_some_iff.1 he.symm
      have hkept : ¬ Translates setting found none := fun hnone => by
        cases hnone.unique ⟨fuel, hexp⟩
      -- what the child mentions, its parent mentions through it
      have hup : ∀ v, Links setting b v → Links setting id v := by
        rintro v ⟨target, hmen, rfl⟩
        exact ⟨target, .through hedge hfound hinl hkept hmen, rfl⟩
      have hlevel : level.RefersWithin (Links setting id) := (ih hfound hexp).mono hup
      exact hlevel.annotate (hfree found (TypeGraph.mem_objects hfound)).metadata

/-! ## References of a document -/

variable {graph : TypeGraph} {request : RootRequest} {options : CompileOptions} {compiled : CompiledSchema}

namespace Compilation

variable {root : ObjectNode} {outcome : Option Schema} {table : Definitions}

/-- the references that a document may hold: links to definitions that a node on a way from the root mentions, and
that are known -/
def Resolves (setting : Setting) (origin : ObjectId) (table : Definitions) (v : Json) : Prop :=
  ∃ owner target, setting.graph.Reaches setting.options.dictionaryKeys origin owner ∧
    Mentions setting owner target ∧ Known setting table target.identity ∧
    v = .str (Translation.link setting target.identity)

theorem refersWithin_root (hc : Compilation graph request options compiled root outcome table)
    (hfree : ReferenceFree graph request) :
    (rootSchema root request outcome).RefersWithin
      (Resolves (rootSetting graph options root) request.root table) := by
  have hroot := hfree.nodes root (TypeGraph.mem_objects hc.found)
  refine Schema.RefersWithin.annotate ?_ (referenceFree_rootMetadata hroot.metadata hfree.request)
  cases houtcome : outcome with
  | none => exact Schema.refersWithin_unsupported _
  | some level =>
    have htranslated := hc.translated
    rw [houtcome] at htranslated
    obtain ⟨fuel, hexp⟩ := htranslated
    refine (refersWithin_expand hfree.nodes hc.found hexp).mono ?_
    rintro v ⟨target, hmen, rfl⟩
    exact ⟨request.root, target, .refl, hmen, hc.closed (by rw [houtcome]; rfl) target hmen, rfl⟩

theorem refersWithin_found (hc : Compilation graph request options compiled root outcome table)
    (hfree : ReferenceFree graph request) {entry : String × Json} (hm : entry ∈ table.sorted) :
    entry.1 ≠ "$ref" ∧ entry.2.RefersWithin (Resolves (rootSetting graph options root) request.root table) := by
  have hget := (Members.ascending_sortedByKey table.built).get?_of_mem hm
  obtain ⟨id, node, hset⟩ := hc.settled_of_get? ((Definitions.get?_sorted hc.distinct entry.1).symm.trans hget)
  have hnode := hfree.nodes node (TypeGraph.mem_objects hset.found)
  refine ⟨hset.named ▸ hnode.identity, ?_⟩
  obtain ⟨level, ⟨fuel, hexp⟩, hschema⟩ := hset.translated
  rw [hschema]
  have hlevel : level.RefersWithin (Resolves (rootSetting graph options root) request.root table) := by
    refine (refersWithin_expand hfree.nodes hset.found hexp).mono ?_
    rintro v ⟨target, hmen, rfl⟩
    exact ⟨id, target, hset.reached, hmen, hset.closed target hmen, rfl⟩
  exact hlevel.annotate hnode.metadata

/-- All references in a document are links to known definitions. -/
theorem refersWithin_document (hc : Compilation graph request options compiled root outcome table)
    (hfree : ReferenceFree graph request) :
    compiled.document.RefersWithin (Resolves (rootSetting graph options root) request.root table) := by
  have hdoc : compiled.document = .obj compiled.schema.members := by
    rw [CompiledSchema.schema, hc.document]
    rfl
  have hroot := Json.refersWithin_obj.1 (hc.refersWithin_root hfree)
  -- what the root carries, it has
  have hcarried : ∀ entry ∈ (rootSchema root request outcome).carried, (entry.1 = "$ref" →
      Resolves (rootSetting graph options root) request.root table entry.2) ∧
      entry.2.RefersWithin (Resolves (rootSetting graph options root) request.root table) := by
    unfold Schema.carried
    cases hget : Members.get? (rootSchema root request outcome).members Reference.definitionsKeyword with
    | none => simp
    | some value =>
      have hvalue := (hroot _ (Members.mem_of_get? hget)).2
      cases value with
      | obj members => exact Json.refersWithin_obj.1 hvalue
      | _ => simp [Json.members?]
  rw [hdoc, hc.schema_eq, Json.refersWithin_obj]
  intro entry hm
  rcases List.mem_append.1 hm with hm | hm
  · rcases List.mem_append.1 hm with hm | hm
    · obtain ⟨hkey, text, ht⟩ := mem_opening hm
      refine ⟨fun hk => ?_, ht ▸ Json.refersWithin_str text⟩
      rcases hkey with h | h <;> rw [h] at hk <;> exact absurd hk (by decide)
    · exact hroot entry (Schema.mem_body.1 hm).1
  · have hne : Reference.definitionsKeyword ≠ "$ref" := by decide
    rw [mem_definitionMember hm]
    refine ⟨fun hk => absurd hk hne, Json.refersWithin_obj.2 fun definition hd => ?_⟩
    rcases mem_joinDefinitions (Members.mem_of_mem_sortedByKey hd) with hd | hd
    · exact hcarried definition hd
    · obtain ⟨hkey, hrefs⟩ := hc.refersWithin_found hfree hd
      exact ⟨fun hk => absurd hk hkey, hrefs⟩

end Compilation

/-- **Closed references.** When a build succeeds on a graph that brings no references of its own, every reference
in the document, at any depth, was written for a type with a definition that a node on a way from the root
mentions. It is `#` if the document is the definition of that type's name. Otherwise it is the pointer to a key
of the definitions in the document, and there stands the schema that the walk stored under the key. The walk
leaves no slot unfilled, and the document drops none. -/
theorem references_closed (hfree : ReferenceFree graph request)
    (h : build graph request options = .ok compiled) :
    ∃ root, graph.get? request.root = some root ∧
      (∀ v ∈ compiled.document.named "$ref", ∃ owner target,
        graph.Reaches options.dictionaryKeys request.root owner ∧
        Mentions (rootSetting graph options root) owner target ∧
        ((v = .str "#" ∧ root.kind.isDefined = true ∧ target.identity = root.identity) ∨
          (v = .str (Reference.pointer target.identity) ∧ ∃ schema,
            (rootWalk graph options root).definitions.get? target.identity = some schema ∧
            Members.get? compiled.defs target.identity = some schema))) ∧
      ∀ key slot, (rootWalk graph options root).definitions.slot? key = some slot →
        ∃ schema, slot = .built schema ∧ Members.get? compiled.defs key = some schema := by
  obtain ⟨root, outcome, table, hc⟩ := compilation_of_build h
  refine ⟨root, hc.found, fun v hv => ?_, fun key slot hslot => ?_⟩
  · obtain ⟨owner, target, hreach, hmen, hknown, rfl⟩ := hc.refersWithin_document hfree v hv
    refine ⟨owner, target, hreach, hmen, ?_⟩
    unfold Translation.link
    split_ifs with hroot
    · exact Or.inl ⟨rfl, rootIdentity_eq_some_iff.1 hroot⟩
    · obtain ⟨slot, hslot⟩ := Definitions.contains_iff.1 (hknown.resolve_left hroot)
      obtain ⟨schema, -, htable, hdefs⟩ := hc.slot_stored hslot
      exact Or.inr ⟨rfl, schema, hc.walked ▸ htable, hdefs⟩
  · obtain ⟨schema, hbuilt, -, hdefs⟩ := hc.slot_stored (hc.walked ▸ hslot)
    exact ⟨schema, hbuilt, hdefs⟩

/-- In the list of tagged nodes, every reference is `#` or points to a definition. -/
theorem references_closed_taggedList : ∃ compiled,
    ReferenceFree taggedList { root := ⟨1⟩ } ∧ build taggedList { root := ⟨1⟩ } {} = .ok compiled ∧
      ∀ v ∈ compiled.document.named "$ref", v = .str "#" ∨
        ∃ key schema, v = .str (Reference.pointer key) ∧ Members.get? compiled.defs key = some schema := by
  obtain ⟨compiled, hb⟩ := taggedList_builds
  have hfree : ReferenceFree taggedList { root := ⟨1⟩ } := by
    refine ⟨fun node hm => ?_, by simp⟩
    have hproperty : ∀ name member, name ≠ "$ref" → (Property.custom name member).ReferenceFree :=
      fun name member hne => ⟨hne, by simp [Property.custom], by simp [Property.texts, Property.custom]⟩
    simp only [taggedList, List.mem_cons, List.not_mem_nil, or_false] at hm
    rcases hm with rfl | rfl | rfl | rfl | rfl <;>
      refine ⟨by decide, by simp, ?_⟩ <;> simp [ObjectShape.ReferenceFree, hproperty]
  refine ⟨compiled, hfree, hb, fun v hv => ?_⟩
  obtain ⟨root, -, hrefs, -⟩ := references_closed hfree hb
  obtain ⟨owner, target, -, -, ⟨rfl, -, -⟩ | ⟨rfl, schema, -, hdefs⟩⟩ := hrefs v hv
  · exact Or.inl rfl
  · exact Or.inr ⟨target.identity, schema, rfl, hdefs⟩

end GraphSchema
