import GraphSchema.Proofs.Members
import GraphSchema.Proofs.Reach

/-!
The stateless translation: what a node means as a schema, without a table, diagnostics or a limit of levels.

- `Translation.expand` is one level of a node. Children without a definition stand inside it, to any depth; in
  the place of a child that has a definition stands the reference to it. The fuel bounds how deep the children
  inside one another may go, and more of it changes nothing (`expand_mono`).
- `Translates` is the translation as a relation: with some fuel, this comes out. `none` comes out of a node that
  the mode drops.
- `Mentions` relates a node to the definitions that its one level refers to.
-/

namespace GraphSchema.Translation

/-- where the definition of a type is found: in the document itself if that is its place, and else below its
definitions -/
def link (setting : Setting) (identity : String) : String :=
  if setting.rootIdentity = some identity then "#" else Reference.pointer identity

/-- the schema that refers to the definition of a type -/
def reference (setting : Setting) (identity : String) : Schema :=
  Schema.ofReference (link setting identity)

/-- a raw schema, or a marker with a message if the text is none -/
def rawSchema (fragment : String) (message : FragmentError → String) : Schema :=
  match Schema.ofFragment fragment with
  | .ok schema => schema
  | .error error => Schema.unsupported (message error)

/-- the message on the raw schema of a property that cannot be read -/
def propertyMessage (p : Property) (error : FragmentError) : String :=
  "override for property `" ++ p.name ++ "`: " ++ error.message

/-- a schema with a default value, if there is one -/
def withDefault (schema : Schema) : Option String → Schema
  | some literal => schema.set "default" (Shape.defaultValue literal)
  | none => schema

/-- an object that is one of these, if there are any -/
def unionSchema (arms : List Json) : Schema :=
  if arms.isEmpty then Schema.ofType "object" else (Schema.ofType "object").set "oneOf" (.arr arms)

/-! ## One level, given the meaning of the children

A child means nothing as long as its translation is not finished, `some none` if the mode drops it, and else a
schema. -/

section
variable (child : ObjectId → Option (Option Schema))

/-- The elements of a tuple; those behind a dropped one have no part in it. -/
def elements : List ObjectId → Option (Option (List Json))
  | [] => some (some [])
  | id :: rest =>
    (child id).bind fun
      | none => some none
      | some schema => (elements rest).map (·.map (schema.toJson :: ·))

/-- the implementations that are not dropped -/
def arms : List ObjectId → Option (List Json)
  | [] => some []
  | id :: rest =>
    (child id).bind fun schema => (arms rest).map ((schema.map Schema.toJson).toList ++ ·)

/-- A property: what it says about a member is said after what the member's node says, and the default comes
last. -/
def property (p : Property) : Option (Option Schema) :=
  match p.shape with
  | .override fragment => some (some (rawSchema fragment (propertyMessage p)))
  | .custom member default =>
    (child member).map (·.map fun schema => withDefault (schema.annotate p.metadata) default)

/-- the properties that are not dropped -/
def properties : List Property → Option (List (Property × Schema))
  | [] => some []
  | p :: rest =>
    (property child p).bind fun schema => (properties rest).map ((schema.map (p, ·)).toList ++ ·)

/-- A map, by the way its keys are written and the mode. -/
def map (setting : Setting) (node keyNode : ObjectNode) (value : ObjectId) : Option (Option Schema) :=
  if Shape.hasStringKeys keyNode then (child value).map (·.map Shape.mapSchema)
  else
    match setting.options.dictionaryKeys with
    | .loose =>
      (child value).map (·.map fun schema => (Shape.mapSchema schema).comment (Shape.keyComment node keyNode))
    | .strict => some (some (Schema.unsupported (Shape.keyRefusal node keyNode)))
    | .silent => (child value).map (·.map Shape.mapSchema)
    | .skip => some none

/-- the keywords of a node's shape -/
def layer (setting : Setting) (node : ObjectNode) : Option (Option Schema) :=
  match node.shape with
  | .system primitive => some (some primitive.schema)
  | .override fragment => some (some (rawSchema fragment (Shape.overrideMessage node.identity)))
  | .nullable element => (child element).map (·.map Shape.nullableSchema)
  | .array _ element => (child element).map (·.map Shape.arraySchema)
  | .map _ key value => (setting.graph.get? key).bind fun keyNode => map child setting node keyNode value
  | .generic base arguments =>
    some (some ((Schema.ofType "object").comment (Shape.genericMessage node.identity base arguments.length)))
  | .abstract implementations => (arms child implementations).map fun schemas => some (unionSchema schemas)
  | .custom props _ => (properties child props).map fun compiled => some (Shape.objectSchema compiled)
  | .tuple ids => (elements child ids).map (·.map Shape.tupleSchema)

end

/-- the meaning of a child: a reference if it has a definition, and else its level with what it says about
itself -/
def child (setting : Setting) (expand : ObjectNode → Option (Option Schema)) (id : ObjectId) :
    Option (Option Schema) :=
  (setting.graph.get? id).bind fun node =>
    if node.kind.isDefined then some (some (reference setting node.identity))
    else (expand node).map (·.map (·.annotate node.metadata))

/-- one level of a node -/
def expand (setting : Setting) : Nat → ObjectNode → Option (Option Schema)
  | 0, _ => none
  | fuel + 1, node => layer (child setting (expand setting fuel)) setting node

end Translation

/-- what comes out of the translation of a node; `none` if the mode drops it -/
def Translates (setting : Setting) (node : ObjectNode) (outcome : Option Schema) : Prop :=
  ∃ fuel, Translation.expand setting fuel node = some outcome

/-- The definitions that one level of a node refers to: those of its children, and those that its children
without a definition refer to. A child that the mode drops refers to nothing. -/
inductive Mentions (setting : Setting) : ObjectId → ObjectNode → Prop
  | direct {a b : ObjectId} {node : ObjectNode} (hedge : setting.graph.Follows setting.options.dictionaryKeys a b)
      (hfound : setting.graph.get? b = some node) (hdefined : node.kind.isDefined = true) : Mentions setting a node
  | through {a b : ObjectId} {node target : ObjectNode}
      (hedge : setting.graph.Follows setting.options.dictionaryKeys a b) (hfound : setting.graph.get? b = some node)
      (hinlined : node.kind.isDefined = false) (hkept : ¬ Translates setting node none)
      (hrest : Mentions setting b target) : Mentions setting a target

namespace Translation

/-! ## More fuel changes nothing -/

section
variable {small large : ObjectId → Option (Option Schema)}

theorem elements_mono (hc : ∀ id o, small id = some o → large id = some o) {ids : List ObjectId}
    {o : Option (List Json)} (h : elements small ids = some o) : elements large ids = some o := by
  induction ids generalizing o with
  | nil => exact h
  | cons id rest ih =>
    obtain ⟨schema, hs, h⟩ := Option.bind_eq_some_iff.1 h
    refine Option.bind_eq_some_iff.2 ⟨schema, hc id schema hs, ?_⟩
    cases schema with
    | none => exact h
    | some schema =>
      obtain ⟨schemas, hr, rfl⟩ := Option.map_eq_some_iff.1 h
      exact Option.map_eq_some_iff.2 ⟨schemas, ih hr, rfl⟩

theorem arms_mono (hc : ∀ id o, small id = some o → large id = some o) {ids : List ObjectId}
    {o : List Json} (h : arms small ids = some o) : arms large ids = some o := by
  induction ids generalizing o with
  | nil => exact h
  | cons id rest ih =>
    obtain ⟨schema, hs, h⟩ := Option.bind_eq_some_iff.1 h
    obtain ⟨schemas, hr, rfl⟩ := Option.map_eq_some_iff.1 h
    exact Option.bind_eq_some_iff.2 ⟨schema, hc id schema hs, Option.map_eq_some_iff.2 ⟨schemas, ih hr, rfl⟩⟩

theorem map_child_mono {β : Type} (hc : ∀ id o, small id = some o → large id = some o) {id : ObjectId}
    {f : Option Schema → β} {o : β} (h : (small id).map f = some o) : (large id).map f = some o := by
  obtain ⟨schema, hs, rfl⟩ := Option.map_eq_some_iff.1 h
  exact Option.map_eq_some_iff.2 ⟨schema, hc id schema hs, rfl⟩

theorem property_mono (hc : ∀ id o, small id = some o → large id = some o) {p : Property}
    {o : Option Schema} (h : property small p = some o) : property large p = some o := by
  unfold property at h ⊢
  cases hs : p.shape with
  | override fragment => rw [hs] at h; exact h
  | custom member default => rw [hs] at h; exact map_child_mono hc h

theorem properties_mono (hc : ∀ id o, small id = some o → large id = some o) {props : List Property}
    {o : List (Property × Schema)} (h : properties small props = some o) : properties large props = some o := by
  induction props generalizing o with
  | nil => exact h
  | cons p rest ih =>
    obtain ⟨schema, hs, h⟩ := Option.bind_eq_some_iff.1 h
    obtain ⟨schemas, hr, rfl⟩ := Option.map_eq_some_iff.1 h
    exact Option.bind_eq_some_iff.2
      ⟨schema, property_mono hc hs, Option.map_eq_some_iff.2 ⟨schemas, ih hr, rfl⟩⟩

theorem map_mono (hc : ∀ id o, small id = some o → large id = some o) {setting : Setting}
    {node keyNode : ObjectNode} {value : ObjectId} {o : Option Schema}
    (h : map small setting node keyNode value = some o) : map large setting node keyNode value = some o := by
  unfold map at h ⊢
  split_ifs at h ⊢ with hk
  · exact map_child_mono hc h
  · cases hm : setting.options.dictionaryKeys with
    | loose => rw [hm] at h; exact map_child_mono hc h
    | strict => rw [hm] at h; exact h
    | silent => rw [hm] at h; exact map_child_mono hc h
    | skip => rw [hm] at h; exact h

theorem layer_mono (hc : ∀ id o, small id = some o → large id = some o) {setting : Setting}
    {node : ObjectNode} {o : Option Schema} (h : layer small setting node = some o) :
    layer large setting node = some o := by
  unfold layer at h ⊢
  cases hs : node.shape with
  | system primitive => rw [hs] at h; exact h
  | override fragment => rw [hs] at h; exact h
  | nullable element => rw [hs] at h; exact map_child_mono hc h
  | generic base arguments => rw [hs] at h; exact h
  | array base element => rw [hs] at h; exact map_child_mono hc h
  | map base key value =>
    rw [hs] at h
    obtain ⟨keyNode, hk, h⟩ := Option.bind_eq_some_iff.1 h
    exact Option.bind_eq_some_iff.2 ⟨keyNode, hk, map_mono hc h⟩
  | abstract implementations =>
    rw [hs] at h
    obtain ⟨schemas, hr, rfl⟩ := Option.map_eq_some_iff.1 h
    exact Option.map_eq_some_iff.2 ⟨schemas, arms_mono hc hr, rfl⟩
  | custom props implements =>
    rw [hs] at h
    obtain ⟨compiled, hr, rfl⟩ := Option.map_eq_some_iff.1 h
    exact Option.map_eq_some_iff.2 ⟨compiled, properties_mono hc hr, rfl⟩
  | tuple ids =>
    rw [hs] at h
    obtain ⟨items, hr, rfl⟩ := Option.map_eq_some_iff.1 h
    exact Option.map_eq_some_iff.2 ⟨items, elements_mono hc hr, rfl⟩

end

theorem child_eq_some_iff {setting : Setting} {expand : ObjectNode → Option (Option Schema)} {id : ObjectId}
    {o : Option Schema} :
    child setting expand id = some o ↔ ∃ node, setting.graph.get? id = some node ∧
      ((node.kind.isDefined = true ∧ o = some (reference setting node.identity)) ∨
        (node.kind.isDefined = false ∧ ∃ inner, expand node = some inner ∧
          o = inner.map (·.annotate node.metadata))) := by
  unfold child
  rw [Option.bind_eq_some_iff]
  refine exists_congr fun node => and_congr_right fun _ => ?_
  cases node.kind.isDefined with
  | true => simp [eq_comm]
  | false =>
    rw [if_neg Bool.false_ne_true, Option.map_eq_some_iff]
    simp [eq_comm]

theorem child_mono {setting : Setting} {small large : ObjectNode → Option (Option Schema)}
    (he : ∀ node o, small node = some o → large node = some o) (id : ObjectId) (o : Option Schema)
    (h : child setting small id = some o) : child setting large id = some o := by
  obtain ⟨node, hn, hd | ⟨hd, inner, hi, rfl⟩⟩ := child_eq_some_iff.1 h
  · exact child_eq_some_iff.2 ⟨node, hn, Or.inl hd⟩
  · exact child_eq_some_iff.2 ⟨node, hn, Or.inr ⟨hd, inner, he node inner hi, rfl⟩⟩

/-- What comes out with some fuel comes out with more. -/
theorem expand_mono {setting : Setting} {fuel more : Nat} (hle : fuel ≤ more) {node : ObjectNode}
    {o : Option Schema} (h : expand setting fuel node = some o) : expand setting more node = some o := by
  induction fuel generalizing node o more with
  | zero => simp [expand] at h
  | succ fuel ih =>
    cases more with
    | zero => omega
    | succ more =>
      have hstep : ∀ node o, expand setting fuel node = some o → expand setting more node = some o :=
        fun node o => ih (Nat.le_of_succ_le_succ hle)
      exact layer_mono (child_mono hstep) h

end Translation

/-! ## What is dropped -/

/-- A type that has a definition is never dropped. -/
theorem not_translates_none_of_defined {setting : Setting} {node : ObjectNode}
    (hd : node.kind.isDefined = true) : ¬ Translates setting node none := by
  rintro ⟨fuel, h⟩
  cases fuel with
  | zero => cases h
  | succ fuel =>
    unfold ObjectNode.kind at hd
    unfold Translation.expand Translation.layer at h
    cases hs : node.shape with
    | abstract implementations =>
      rw [hs] at h
      obtain ⟨schemas, -, hnone⟩ := Option.map_eq_some_iff.1 h
      cases hnone
    | custom props implements =>
      rw [hs] at h
      obtain ⟨compiled, -, hnone⟩ := Option.map_eq_some_iff.1 h
      cases hnone
    | _ => rw [hs] at hd; cases hd

/-- So such a type, if it comes out at all, comes out as a level. -/
theorem Translates.exists_level {setting : Setting} {node : ObjectNode} {outcome : Option Schema}
    (h : Translates setting node outcome) (hd : node.kind.isDefined = true) : ∃ level, outcome = some level := by
  cases outcome with
  | none => exact absurd h (not_translates_none_of_defined hd)
  | some level => exact ⟨level, rfl⟩

namespace Translation

theorem elements_ne_none {child : ObjectId → Option (Option Schema)} (hc : ∀ id, child id ≠ some none)
    {ids : List ObjectId} : elements child ids ≠ some none := by
  induction ids with
  | nil => simp [elements]
  | cons id rest ih =>
    intro h
    obtain ⟨schema, hs, h⟩ := Option.bind_eq_some_iff.1 h
    cases schema with
    | none => exact hc id hs
    | some schema =>
      obtain ⟨schemas, hr, hnone⟩ := Option.map_eq_some_iff.1 h
      cases schemas with
      | none => exact ih hr
      | some schemas => cases hnone

theorem map_child_ne_none {child : ObjectId → Option (Option Schema)} (hc : ∀ id, child id ≠ some none)
    {id : ObjectId} {f : Schema → Schema} : (child id).map (·.map f) ≠ some none := by
  intro h
  obtain ⟨schema, hs, hnone⟩ := Option.map_eq_some_iff.1 h
  cases schema with
  | none => exact hc id hs
  | some schema => cases hnone

theorem layer_ne_none {child : ObjectId → Option (Option Schema)} (hc : ∀ id, child id ≠ some none)
    {setting : Setting} (hmode : setting.options.dictionaryKeys ≠ .skip) {node : ObjectNode} :
    layer child setting node ≠ some none := by
  unfold layer
  cases node.shape with
  | nullable element => exact map_child_ne_none hc
  | array base element => exact map_child_ne_none hc
  | tuple ids =>
    intro h
    obtain ⟨items, he, hnone⟩ := Option.map_eq_some_iff.1 h
    cases items with
    | none => exact elements_ne_none hc he
    | some items => cases hnone
  | map base key value =>
    intro h
    obtain ⟨keyNode, -, hm⟩ := Option.bind_eq_some_iff.1 h
    unfold map at hm
    split_ifs at hm
    · exact map_child_ne_none hc hm
    · cases hkeys : setting.options.dictionaryKeys with
      | loose =>
        rw [hkeys] at hm
        exact map_child_ne_none hc (f := fun s => (Shape.mapSchema s).comment _) hm
      | strict => rw [hkeys] at hm; cases hm
      | silent =>
        rw [hkeys] at hm
        exact map_child_ne_none hc hm
      | skip => exact hmode hkeys
  | _ => simp

end Translation

/-- Only one mode drops anything. -/
theorem not_translates_none {setting : Setting} (hmode : setting.options.dictionaryKeys ≠ .skip)
    (node : ObjectNode) : ¬ Translates setting node none := by
  rintro ⟨fuel, h⟩
  induction fuel generalizing node with
  | zero => cases h
  | succ fuel ih =>
    refine Translation.layer_ne_none (fun id hnone => ?_) hmode h
    obtain ⟨found, -, ⟨-, he⟩ | ⟨-, outcome, hexp, he⟩⟩ := Translation.child_eq_some_iff.1 hnone
    · cases he
    · cases outcome with
      | none => exact ih found hexp
      | some level => cases he

/-- **One meaning.** The translation of a node has at most one outcome. -/
theorem Translates.unique {setting : Setting} {node : ObjectNode} {a b : Option Schema}
    (ha : Translates setting node a) (hb : Translates setting node b) : a = b := by
  obtain ⟨m, hm⟩ := ha
  obtain ⟨n, hn⟩ := hb
  have h1 := Translation.expand_mono (Nat.le_max_left m n) hm
  have h2 := Translation.expand_mono (Nat.le_max_right m n) hn
  exact Option.some.inj (h1.symm.trans h2)

/-! ## What a level looks like -/

namespace Translation

/-- What the level of a node that is not dropped looks like, by the shape of the node and by what the children
behind its edges mean. -/
inductive Level (meaning : ObjectId → Option (Option Schema)) (setting : Setting) (node : ObjectNode) :
    Schema → Prop
  | primitive {p : Primitive} (hshape : node.shape = .system p) : Level meaning setting node p.schema
  | raw {fragment : String} (hshape : node.shape = .override fragment) :
      Level meaning setting node (rawSchema fragment (Shape.overrideMessage node.identity))
  | nullable {element : ObjectId} {inner : Schema} (hshape : node.shape = .nullable element)
      (hmeans : meaning element = some (some inner)) : Level meaning setting node (Shape.nullableSchema inner)
  | array {base : String} {element : ObjectId} {inner : Schema} (hshape : node.shape = .array base element)
      (hmeans : meaning element = some (some inner)) : Level meaning setting node (Shape.arraySchema inner)
  | map {base : String} {key value : ObjectId} {inner : Schema} (hshape : node.shape = .map base key value)
      (haccepted : setting.graph.acceptsKey setting.options.dictionaryKeys key = true)
      (hmeans : meaning value = some (some inner)) : Level meaning setting node (Shape.mapSchema inner)
  | commented {base : String} {key value : ObjectId} {inner : Schema} (hshape : node.shape = .map base key value)
      (haccepted : setting.graph.acceptsKey setting.options.dictionaryKeys key = true)
      (hmeans : meaning value = some (some inner)) (text : String) :
      Level meaning setting node ((Shape.mapSchema inner).comment text)
  | refused {base : String} {key value : ObjectId} (hshape : node.shape = .map base key value)
      (hdenied : setting.graph.acceptsKey setting.options.dictionaryKeys key = false) (keyNode : ObjectNode) :
      Level meaning setting node (Schema.unsupported (Shape.keyRefusal node keyNode))
  | generic {base : String} {arguments : List ObjectId} (hshape : node.shape = .generic base arguments)
      (text : String) : Level meaning setting node ((Schema.ofType "object").comment text)
  | union {ids : List ObjectId} {schemas : List Json} (hshape : node.shape = .abstract ids)
      (hmeans : arms meaning ids = some schemas) : Level meaning setting node (unionSchema schemas)
  | object {props : List Property} {implements : List ObjectId} {compiled : List (Property × Schema)}
      (hshape : node.shape = .custom props implements) (hmeans : properties meaning props = some compiled) :
      Level meaning setting node (Shape.objectSchema compiled)
  | tuple {ids : List ObjectId} {items : List Json} (hshape : node.shape = .tuple ids)
      (hmeans : elements meaning ids = some (some items)) : Level meaning setting node (Shape.tupleSchema items)

variable {meaning : ObjectId → Option (Option Schema)} {setting : Setting} {node : ObjectNode} {schema : Schema}

theorem map_child_eq_some {id : ObjectId} {f : Schema → Schema}
    (h : (meaning id).map (·.map f) = some (some schema)) :
    ∃ inner, meaning id = some (some inner) ∧ schema = f inner := by
  obtain ⟨o, hm, ho⟩ := Option.map_eq_some_iff.1 h
  obtain ⟨inner, rfl, rfl⟩ := Option.map_eq_some_iff.1 ho
  exact ⟨inner, hm, rfl⟩

theorem level_of_map {base : String} {key value : ObjectId} (hs : node.shape = .map base key value)
    {keyNode : ObjectNode} (hkey : setting.graph.get? key = some keyNode)
    (h : map meaning setting node keyNode value = some (some schema)) : Level meaning setting node schema := by
  have hacc := TypeGraph.acceptsKey_eq hkey setting.options.dictionaryKeys
  unfold map at h
  split_ifs at h with hstring
  · obtain ⟨inner, hm, rfl⟩ := map_child_eq_some h
    exact .map hs (by rw [hacc, hstring, Bool.true_or]) hm
  · cases hmode : setting.options.dictionaryKeys with
    | loose =>
      rw [hmode] at h
      obtain ⟨inner, hm, rfl⟩ := map_child_eq_some (f := fun s => (Shape.mapSchema s).comment _) h
      exact .commented hs (by rw [hacc, hmode]; exact Bool.or_true _) hm _
    | strict =>
      rw [hmode] at h
      cases h
      exact .refused hs (by rw [hacc, Bool.eq_false_iff.2 hstring, hmode]; rfl) keyNode
    | silent =>
      rw [hmode] at h
      obtain ⟨inner, hm, rfl⟩ := map_child_eq_some h
      exact .map hs (by rw [hacc, hmode]; exact Bool.or_true _) hm
    | skip =>
      rw [hmode] at h
      cases h

theorem level_of_layer (h : layer meaning setting node = some (some schema)) :
    Level meaning setting node schema := by
  unfold layer at h
  cases hs : node.shape with
  | system p =>
    rw [hs] at h
    cases h
    exact .primitive hs
  | override fragment =>
    rw [hs] at h
    cases h
    exact .raw hs
  | nullable element =>
    rw [hs] at h
    obtain ⟨inner, hm, rfl⟩ := map_child_eq_some h
    exact .nullable hs hm
  | generic base arguments =>
    rw [hs] at h
    cases h
    exact .generic hs _
  | map base key value =>
    rw [hs] at h
    obtain ⟨keyNode, hkey, hm⟩ := Option.bind_eq_some_iff.1 h
    exact level_of_map hs hkey hm
  | array base element =>
    rw [hs] at h
    obtain ⟨inner, hm, rfl⟩ := map_child_eq_some h
    exact .array hs hm
  | abstract ids =>
    rw [hs] at h
    obtain ⟨schemas, hm, ho⟩ := Option.map_eq_some_iff.1 h
    cases ho
    exact .union hs hm
  | custom props implements =>
    rw [hs] at h
    obtain ⟨compiled, hm, ho⟩ := Option.map_eq_some_iff.1 h
    cases ho
    exact .object hs hm
  | tuple ids =>
    rw [hs] at h
    obtain ⟨o, hm, ho⟩ := Option.map_eq_some_iff.1 h
    obtain ⟨items, rfl, rfl⟩ := Option.map_eq_some_iff.1 ho
    exact .tuple hs hm

theorem elements_meant {ids : List ObjectId} {items : List Json}
    (h : elements meaning ids = some (some items)) : ∀ id ∈ ids, ∃ outcome, meaning id = some outcome := by
  induction ids generalizing items with
  | nil => simp
  | cons id rest ih =>
    obtain ⟨first, hf, h⟩ := Option.bind_eq_some_iff.1 h
    cases first with
    | none => cases h
    | some inner =>
      obtain ⟨others, hr, ho⟩ := Option.map_eq_some_iff.1 h
      obtain ⟨tail, rfl, -⟩ := Option.map_eq_some_iff.1 ho
      exact List.forall_mem_cons.2 ⟨⟨_, hf⟩, ih hr⟩

theorem arms_meant {ids : List ObjectId} {schemas : List Json} (h : arms meaning ids = some schemas) :
    ∀ id ∈ ids, ∃ outcome, meaning id = some outcome := by
  induction ids generalizing schemas with
  | nil => simp
  | cons id rest ih =>
    obtain ⟨first, hf, h⟩ := Option.bind_eq_some_iff.1 h
    obtain ⟨others, hr, -⟩ := Option.map_eq_some_iff.1 h
    exact List.forall_mem_cons.2 ⟨⟨first, hf⟩, ih hr⟩

theorem properties_meant {props : List Property} {compiled : List (Property × Schema)}
    (h : properties meaning props = some compiled) :
    ∀ id ∈ props.filterMap Property.member?, ∃ outcome, meaning id = some outcome := by
  induction props generalizing compiled with
  | nil => simp
  | cons p rest ih =>
    obtain ⟨first, hf, h⟩ := Option.bind_eq_some_iff.1 h
    obtain ⟨others, hr, -⟩ := Option.map_eq_some_iff.1 h
    intro id hid
    obtain ⟨q, hq, hmember⟩ := List.mem_filterMap.1 hid
    rcases List.mem_cons.1 hq with rfl | hq
    · unfold property at hf
      unfold Property.member? at hmember
      cases hs : q.shape with
      | override fragment => rw [hs] at hmember; cases hmember
      | custom member default =>
        rw [hs] at hf hmember
        cases hmember
        obtain ⟨outcome, hm, -⟩ := Option.map_eq_some_iff.1 hf
        exact ⟨outcome, hm⟩
    · exact ih hr id (List.mem_filterMap.2 ⟨q, hq, hmember⟩)

/-- A level takes in the meaning of every child that compilation goes to. -/
theorem Level.meant (h : Level meaning setting node schema) {id : ObjectId}
    (hid : id ∈ setting.graph.followed setting.options.dictionaryKeys node) :
    ∃ outcome, meaning id = some outcome := by
  unfold TypeGraph.followed at hid
  cases h with
  | primitive hshape => simp [hshape] at hid
  | raw hshape => simp [hshape] at hid
  | generic hshape _ => simp [hshape] at hid
  | nullable hshape hmeans =>
    simp only [hshape, List.mem_singleton] at hid
    exact hid ▸ ⟨_, hmeans⟩
  | array hshape hmeans =>
    simp only [hshape, List.mem_singleton] at hid
    exact hid ▸ ⟨_, hmeans⟩
  | map hshape haccepted hmeans =>
    simp only [hshape, haccepted, if_true, List.mem_singleton] at hid
    exact hid ▸ ⟨_, hmeans⟩
  | commented hshape haccepted hmeans _ =>
    simp only [hshape, haccepted, if_true, List.mem_singleton] at hid
    exact hid ▸ ⟨_, hmeans⟩
  | refused hshape hdenied _ => simp [hshape, hdenied] at hid
  | union hshape hmeans =>
    simp only [hshape] at hid
    exact arms_meant hmeans id hid
  | object hshape hmeans =>
    simp only [hshape] at hid
    exact properties_meant hmeans id hid
  | tuple hshape hmeans =>
    simp only [hshape] at hid
    exact elements_meant hmeans id hid

end Translation

/-- What comes out of the translation of a node is a level, by some meaning of its children. -/
theorem Translates.level {setting : Setting} {node : ObjectNode} {schema : Schema}
    (h : Translates setting node (some schema)) :
    ∃ fuel,
      Translation.Level (Translation.child setting (Translation.expand setting fuel)) setting node schema := by
  obtain ⟨fuel, h⟩ := h
  cases fuel with
  | zero => cases h
  | succ fuel => exact ⟨fuel, Translation.level_of_layer h⟩

end GraphSchema
