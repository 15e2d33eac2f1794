import GraphSchema.Proofs.Keywords
import GraphSchema.Proofs.References

/-!
The markers in the schema of a node, and the notes that go with them.

- `Translation.notes` : the diagnostics of one level of a node, without those of the definitions it refers to. A
  generic type is noted, but an opaque object stands for it and no marker.
- `Lacks` : a graph and a request bring no member of a name of their own.
- `Translation.expand_marked` : the markers in the level of a node are the messages of its notes, in order,
  apart from those on generic types.
-/

namespace GraphSchema

/-! ## Notes -/

/-- the diagnostic on a generic type -/
def ObjectNode.genericNote? (node : ObjectNode) : Option Diagnostic :=
  match node.shape with
  | .generic base arguments => some ⟨node.identity, Shape.genericMessage node.identity base arguments.length⟩
  | _ => none

/-- the diagnostics on the generic types of a graph -/
def TypeGraph.genericNotes (graph : TypeGraph) : List Diagnostic :=
  graph.objects.filterMap ObjectNode.genericNote?

/-- the diagnostic on a raw schema, if it cannot be read -/
def rawNote (fragment : String) (note : FragmentError → Diagnostic) : List Diagnostic :=
  match Schema.ofFragment fragment with
  | .ok _ => []
  | .error error => [note error]

namespace Translation

/-- the diagnostics of the properties of an object type, given those of the children -/
def propertyNotes (child : ObjectId → List Diagnostic) (owner : String) (p : Property) : List Diagnostic :=
  match p.shape with
  | .override fragment => rawNote fragment fun error => ⟨owner ++ "." ++ p.name, propertyMessage p error⟩
  | .custom member _ => child member

/-- the diagnostics of a level, given those of the children -/
def layerNotes (setting : Setting) (child : ObjectId → List Diagnostic) (node : ObjectNode) : List Diagnostic :=
  match node.shape with
  | .system _ => []
  | .override fragment =>
    rawNote fragment fun error => ⟨node.identity, Shape.overrideMessage node.identity error⟩
  | .nullable element | .array _ element => child element
  | .map _ key value =>
    if setting.graph.acceptsKey setting.options.dictionaryKeys key then child value
    else ((setting.graph.get? key).map fun keyNode => ⟨node.identity, Shape.keyRefusal node keyNode⟩).toList
  | .generic .. => node.genericNote?.toList
  | .abstract ids | .tuple ids => ids.flatMap child
  | .custom props _ => props.flatMap (propertyNotes child node.identity)

/-- the diagnostics of a child that stands inside its parent; those of a definition are its own -/
def childNotes (setting : Setting) (notes : ObjectNode → List Diagnostic) (id : ObjectId) : List Diagnostic :=
  match setting.graph.get? id with
  | none => []
  | some node => if node.kind.isDefined then [] else notes node

/-- the diagnostics of one level of a node -/
def notes (setting : Setting) : Nat → ObjectNode → List Diagnostic
  | 0, _ => []
  | fuel + 1, node => layerNotes setting (childNotes setting (notes setting fuel)) node

section

variable {setting : Setting} {node : ObjectNode}

theorem layerNotes_congr {first second : ObjectId → List Diagnostic}
    (hsame : ∀ id ∈ setting.graph.followed setting.options.dictionaryKeys node, first id = second id) :
    layerNotes setting first node = layerNotes setting second node := by
  unfold TypeGraph.followed at hsame
  unfold layerNotes
  cases hshape : node.shape with
  | system p | override fragment | generic base arguments => rfl
  | nullable element | array base element =>
    rw [hshape] at hsame
    exact hsame element (List.mem_singleton_self _)
  | map base key value =>
    rw [hshape] at hsame
    simp only at hsame ⊢
    split_ifs with haccepted
    · rw [if_pos haccepted] at hsame
      exact hsame value (List.mem_singleton_self _)
    · rfl
  | abstract ids | tuple ids =>
    rw [hshape] at hsame
    exact List.flatMap_congr hsame
  | custom props implements =>
    rw [hshape] at hsame
    refine List.flatMap_congr fun p hmem => ?_
    unfold propertyNotes
    cases hmember : p.shape with
    | override fragment => rfl
    | custom id default =>
      exact hsame id (List.mem_filterMap.2 ⟨p, hmem, by rw [Property.member?, hmember]⟩)

theorem childNotes_of_defined {notes : ObjectNode → List Diagnostic} {id : ObjectId}
    (hfound : setting.graph.get? id = some node) (hdefined : node.kind.isDefined = true) :
    childNotes setting notes id = [] := by
  rw [childNotes, hfound]
  exact if_pos hdefined

theorem childNotes_of_inlined {notes : ObjectNode → List Diagnostic} {id : ObjectId}
    (hfound : setting.graph.get? id = some node) (hinlined : node.kind.isDefined = false) :
    childNotes setting notes id = notes node := by
  rw [childNotes, hfound]
  exact if_neg (Bool.eq_false_iff.1 hinlined)

theorem child_ne_none (hmode : setting.options.dictionaryKeys ≠ .skip) (fuel : Nat) (id : ObjectId) :
    child setting (expand setting fuel) id ≠ some none := by
  intro hdropped
  obtain ⟨target, -, ⟨-, himpossible⟩ | ⟨-, outcome, hexpands, hwrapped⟩⟩ := child_eq_some_iff.1 hdropped
  · cases himpossible
  · rw [eq_comm, Option.map_eq_none_iff] at hwrapped
    exact absurd ⟨fuel, hwrapped ▸ hexpands⟩ (not_translates_none hmode target)

/-- Where nothing is dropped, every child that is followed means a schema. -/
theorem Level.meant_some (hmode : setting.options.dictionaryKeys ≠ .skip) {fuel : Nat} {level : Schema}
    (h : Level (child setting (expand setting fuel)) setting node level) {id : ObjectId}
    (hfollows : id ∈ setting.graph.followed setting.options.dictionaryKeys node) :
    ∃ found, setting.graph.get? id = some found ∧
      (found.kind.isDefined = false → ∃ inner, expand setting fuel found = some (some inner)) := by
  obtain ⟨outcome, hmeans⟩ := h.meant hfollows
  obtain ⟨found, hfound, ⟨hdefined, -⟩ | ⟨hinlined, inner, hexpands, -⟩⟩ := child_eq_some_iff.1 hmeans
  · exact ⟨found, hfound, fun hinlined => by rw [hdefined] at hinlined; cases hinlined⟩
  · refine ⟨found, hfound, fun _ => ?_⟩
    cases inner with
    | none => exact absurd ⟨fuel, hexpands⟩ (not_translates_none hmode found)
    | some inner => exact ⟨inner, hexpands⟩

/-- More levels change nothing about the notes on a node that is translated. -/
theorem notes_mono (hmode : setting.options.dictionaryKeys ≠ .skip) {fuel more : Nat} (henough : fuel ≤ more)
    {level : Schema} (h : expand setting fuel node = some (some level)) :
    notes setting more node = notes setting fuel node := by
  induction fuel generalizing node level more with
  | zero => cases h
  | succ fuel ih =>
    cases more with
    | zero => omega
    | succ more =>
      refine layerNotes_congr fun id hfollows => ?_
      obtain ⟨found, hfound, hexpands⟩ := (level_of_layer h).meant_some hmode hfollows
      cases hdefined : found.kind.isDefined with
      | true => rw [childNotes_of_defined hfound hdefined, childNotes_of_defined hfound hdefined]
      | false =>
        obtain ⟨inner, hexpands⟩ := hexpands hdefined
        rw [childNotes_of_inlined hfound hdefined, childNotes_of_inlined hfound hdefined]
        exact ih (Nat.le_of_succ_le_succ henough) hexpands

end

end Translation

/-! ## Values without a member of a name -/

/-- whether no member of a value has this name, at any depth -/
def Json.Lacks (name : String) (value : Json) : Prop := value.named name = []

/-- whether no example has a member of this name -/
def Metadata.Lacks (name : String) (m : Metadata) : Prop := ∀ value ∈ m.examples, value.Lacks name

/-- whether a text, if it is read, has no member of this name -/
def LacksText (name text : String) : Prop := ∀ value, Json.read text = .ok value → value.Lacks name

structure Property.Lacks (name : String) (p : Property) : Prop where
  called : p.name ≠ name
  metadata : ∀ m ∈ p.metadata, m.Lacks name
  texts : ∀ text ∈ p.texts, LacksText name text

/-- whether a shape brings no member of this name -/
def ObjectShape.Lacks (name : String) : ObjectShape → Prop
  | .override fragment => LacksText name fragment
  | .custom properties _ => ∀ p ∈ properties, p.Lacks name
  | _ => True

structure ObjectNode.Lacks (name : String) (node : ObjectNode) : Prop where
  identity : node.identity ≠ name
  metadata : ∀ m ∈ node.metadata, m.Lacks name
  shape : node.shape.Lacks name

/-- Neither the graph nor the request brings a member of this name: no raw schema, no example and no default value
has one, and no property and no type is called that. Texts count as what they read as, so an escape that spells
the name is the name. -/
structure Lacks (name : String) (graph : TypeGraph) (request : RootRequest) : Prop where
  nodes : ∀ node ∈ graph.objects, node.Lacks name
  request : ∀ m ∈ request.metadata, m.Lacks name

namespace Json

variable {name : String}

theorem named_arr (items : List Json) : named name (.arr items) = items.flatMap (named name) := by
  rw [named]
  induction items with
  | nil => rfl
  | cons item rest ih => rw [namedItems, ih, List.flatMap_cons]

/-- the values that a member contributes to those of a name -/
def namedMember (name : String) (entry : String × Json) : List Json :=
  (if entry.1 = name then [entry.2] else []) ++ named name entry.2

theorem named_obj (members : List (String × Json)) : named name (.obj members) = members.flatMap (namedMember name) := by
  rw [named]
  induction members with
  | nil => rfl
  | cons entry rest ih =>
    obtain ⟨key, value⟩ := entry
    rw [namedMembers, ih, List.flatMap_cons]
    rfl

theorem namedMember_of_ne {key : String} (hother : key ≠ name) (value : Json) :
    namedMember name (key, value) = named name value := by
  rw [namedMember, if_neg hother, List.nil_append]

theorem Lacks.of_member {members : List (String × Json)} (h : Lacks name (.obj members)) {entry : String × Json}
    (hmem : entry ∈ members) : namedMember name entry = [] := by
  rw [Lacks, named_obj, List.flatMap_eq_nil_iff] at h
  exact h entry hmem

theorem lacks_arr {items : List Json} : Lacks name (.arr items) ↔ ∀ item ∈ items, item.Lacks name := by
  rw [Lacks, named_arr, List.flatMap_eq_nil_iff]
  rfl

/-- Writing a value without such members over one without them, or as a new member, changes nothing. -/
theorem named_insert_of_lacks {members : Members Json} {key : String} {value : Json} (hother : key ≠ name)
    (hlacks : value.Lacks name) (hbefore : ∀ old, Members.get? members key = some old → old.Lacks name) :
    named name (.obj (Members.insert members key value)) = named name (.obj members) := by
  rw [named_obj, named_obj]
  induction members with
  | nil =>
    rw [Members.insert, List.flatMap_cons, namedMember_of_ne hother, hlacks]
    rfl
  | cons entry rest ih =>
    obtain ⟨k, old⟩ := entry
    rw [Members.insert]
    by_cases hsame : k = key
    · rw [if_pos hsame, List.flatMap_cons, List.flatMap_cons, hsame, namedMember_of_ne hother, namedMember_of_ne hother,
        hlacks, hbefore old (by rw [Members.get?_cons, if_pos hsame.symm])]
    · rw [if_neg hsame, List.flatMap_cons, List.flatMap_cons,
        ih fun v hfound => hbefore v (by rwa [Members.get?_cons, if_neg (Ne.symm hsame)])]

end Json

/-! ## Schemas and the markers in them -/

namespace Schema

/-- the keywords that may be written onto a schema that is finished: those of metadata, and that of default values -/
def dressing : List String := "default" :: annotationKeywords

/-- whether the markers in a schema are these, in order, and none of them is below a keyword that metadata or a
default value may be written over -/
structure Carries (schema : Schema) (markers : List Json) : Prop where
  markers : schema.toJson.named unsupportedKeyword = markers
  tame : ∀ entry ∈ schema.members, entry.1 ∈ dressing → entry.2.Lacks unsupportedKeyword

variable {schema : Schema} {markers : List Json}

theorem Carries.dress (h : schema.Carries markers) {keyword : String} {value : Json} (hdresses : keyword ∈ dressing)
    (hlacks : value.Lacks unsupportedKeyword) : (schema.set keyword value).Carries markers where
  markers := by
    have hother : keyword ≠ unsupportedKeyword := by
      rintro rfl
      exact absurd hdresses (by decide)
    rw [← h.markers]
    exact Json.named_insert_of_lacks hother hlacks fun old hfound => h.tame _ (Members.mem_of_get? hfound) hdresses
  tame entry hmem := by
    rcases Members.mem_insert hmem with rfl | hmem
    · exact fun _ => hlacks
    · exact h.tame entry hmem

theorem Carries.annotate (h : schema.Carries markers) {metadata : Option Metadata}
    (hlacks : ∀ m ∈ metadata, m.Lacks unsupportedKeyword) : (schema.annotate metadata).Carries markers := by
  refine annotate_induction (P := fun members => Carries ⟨members⟩ markers) h ?_
  intro m hmem members key value hcarries hannotates hwrites
  refine hcarries.dress (List.mem_cons_of_mem _ hannotates) ?_
  rcases hwrites with ⟨text, rfl⟩ | rfl | rfl
  · rfl
  · exact Json.lacks_arr.2 (hlacks m hmem)
  · rfl

theorem Carries.comment (h : schema.Carries markers) (text : String) : (schema.comment text).Carries markers := by
  unfold Schema.comment
  cases Metadata.commentOf schema.members <;> exact h.dress (by decide) rfl

/-- A keyword of a shape is written before any of the dressing, and once. -/
theorem Carries.add (h : schema.Carries markers) (keyword : String) (hnew : keyword ∉ schema.keywords)
    (hplain : keyword ∉ unsupportedKeyword :: dressing) (value : Json) :
    (schema.set keyword value).Carries (markers ++ value.named unsupportedKeyword) := by
  obtain ⟨hother, houtside⟩ := not_or.1 (mt List.mem_cons.2 hplain)
  have happended : (schema.set keyword value).members = schema.members ++ [(keyword, value)] :=
    Members.insert_of_notMem hnew value
  constructor
  · rw [toJson, happended, Json.named_obj, List.flatMap_append, ← Json.named_obj, List.flatMap_singleton,
      Json.namedMember_of_ne hother]
    exact congrArg (· ++ _) h.markers
  · intro entry hmem
    rw [happended, List.mem_append, List.mem_singleton] at hmem
    rcases hmem with hmem | rfl
    · exact h.tame entry hmem
    · exact fun hdresses => absurd hdresses houtside

theorem Carries.add_lacking (h : schema.Carries markers) (keyword : String) (hnew : keyword ∉ schema.keywords)
    (hplain : keyword ∉ unsupportedKeyword :: dressing) {value : Json} (hlacks : value.Lacks unsupportedKeyword) :
    (schema.set keyword value).Carries markers := by
  have hadded := h.add keyword hnew hplain value
  rwa [hlacks, List.append_nil] at hadded

theorem carries_empty : Schema.empty.Carries [] := ⟨rfl, fun _ hmem => by cases hmem⟩

theorem carries_ofType (type : String) : (Schema.ofType type).Carries [] :=
  carries_empty.add "type" (by decide) (by decide) (.str type)

theorem carries_ofReference (text : String) : (Schema.ofReference text).Carries [] :=
  carries_empty.add "$ref" (by decide) (by decide) (.str text)

theorem carries_unsupported (message : String) : (Schema.unsupported message).Carries [.str message] where
  markers := rfl
  tame entry hmem := by
    rw [List.mem_singleton.1 hmem]
    exact fun hdresses => absurd hdresses (show unsupportedKeyword ∉ dressing by decide)

theorem carries_primitive (p : Primitive) : p.schema.Carries [] where
  markers := by cases p <;> rfl
  tame := by
    have hplain : ∀ entry ∈ p.schema.members, entry.1 ∉ dressing := by cases p <;> decide
    exact fun entry hmem hdresses => absurd hdresses (hplain entry hmem)

/-- What is read from a text that brings no marker has none. -/
theorem carries_of_lacks (hlacks : schema.toJson.Lacks unsupportedKeyword) : schema.Carries [] where
  markers := hlacks
  tame entry hmem _ := by
    have hnothing := hlacks.of_member hmem
    rw [Json.namedMember] at hnothing
    exact (List.append_eq_nil_iff.1 hnothing).2

end Schema

/-! ## Notes that have a marker -/

/-- the markers for notes: their messages, but none for a generic type -/
def TypeGraph.marked (graph : TypeGraph) (notes : List Diagnostic) : List Json :=
  (notes.filter (· ∉ graph.genericNotes)).map fun d => .str d.message

theorem starts_append {c : Char} {front : String} (hstarts : front.toList.head? = some c) (back : String) :
    (front ++ back).toList.head? = some c := by
  rw [String.toList_append, List.head?_append, hstarts]
  rfl

namespace TypeGraph

variable {graph : TypeGraph}

theorem marked_append (front back : List Diagnostic) :
    graph.marked (front ++ back) = graph.marked front ++ graph.marked back := by
  rw [marked, List.filter_append, List.map_append]
  rfl

theorem marked_flatMap {α : Type} (notes : α → List Diagnostic) (items : List α) :
    graph.marked (items.flatMap notes) = items.flatMap fun item => graph.marked (notes item) := by
  induction items with
  | nil => rfl
  | cons item rest ih => rw [List.flatMap_cons, marked_append, ih, List.flatMap_cons]

theorem starts_genericMessage (identity base : String) (arguments : Nat) :
    (Shape.genericMessage identity base arguments).toList.head? = some 'c' := by
  have hopening : "could not resolve generic `".toList.head? = some 'c' := rfl
  exact starts_append (starts_append (starts_append (starts_append (starts_append
    (starts_append hopening _) _) _) _) _) _

/-- The text on a generic type starts unlike all others. -/
theorem notMem_genericNotes {d : Diagnostic} {c : Char} (hstarts : d.message.toList.head? = some c) (hother : c ≠ 'c') :
    d ∉ graph.genericNotes := by
  intro hmem
  obtain ⟨node, -, hnotes⟩ := List.mem_filterMap.1 hmem
  unfold ObjectNode.genericNote? at hnotes
  split at hnotes
  · cases hnotes
    rw [starts_genericMessage] at hstarts
    exact hother (Option.some.inj hstarts).symm
  · cases hnotes

theorem keyRefusal_notMem_genericNotes (node keyNode : ObjectNode) :
    ⟨node.identity, Shape.keyRefusal node keyNode⟩ ∉ graph.genericNotes := by
  have hopening : "dictionary key type `".toList.head? = some 'd' := rfl
  have hstarts : (Shape.keyRefusal node keyNode).toList.head? = some 'd' :=
    starts_append (starts_append (starts_append (starts_append hopening _) _) _) _
  exact notMem_genericNotes hstarts (by decide)

theorem override_notMem_genericNotes (identity : String) (error : FragmentError) :
    ⟨identity, Shape.overrideMessage identity error⟩ ∉ graph.genericNotes := by
  have hopening : "override for `".toList.head? = some 'o' := rfl
  have hstarts : (Shape.overrideMessage identity error).toList.head? = some 'o' :=
    starts_append (starts_append (starts_append hopening _) _) _
  exact notMem_genericNotes hstarts (by decide)

theorem property_notMem_genericNotes (identity : String) (p : Property) (error : FragmentError) :
    ⟨identity, Translation.propertyMessage p error⟩ ∉ graph.genericNotes := by
  have hopening : "override for property `".toList.head? = some 'o' := rfl
  have hstarts : (Translation.propertyMessage p error).toList.head? = some 'o' :=
    starts_append (starts_append (starts_append hopening _) _) _
  exact notMem_genericNotes hstarts (by decide)

theorem mem_genericNotes {node : ObjectNode} (hmem : node ∈ graph.objects) {d : Diagnostic}
    (hnotes : node.genericNote? = some d) : d ∈ graph.genericNotes :=
  List.mem_filterMap.2 ⟨node, hmem, hnotes⟩

theorem marked_of_mem {d : Diagnostic} (hgeneric : d ∈ graph.genericNotes) : graph.marked [d] = [] := by
  rw [marked, List.filter_cons_of_neg (by simpa using hgeneric)]
  rfl

theorem marked_of_notMem {d : Diagnostic} (hother : d ∉ graph.genericNotes) : graph.marked [d] = [.str d.message] := by
  rw [marked, List.filter_cons_of_pos (by simpa using hother)]
  rfl

end TypeGraph

namespace Translation

section

variable {setting : Setting} {node : ObjectNode} {meaning : ObjectId → Option (Option Schema)}
  {notes : ObjectId → List Diagnostic}

/-! ## The markers in one level -/

/-- A child that means anything means a schema, and the markers in it are those for its notes. -/
def Marks (graph : TypeGraph) (meaning : ObjectId → Option (Option Schema)) (notes : ObjectId → List Diagnostic)
    (id : ObjectId) : Prop :=
  ∀ outcome, meaning id = some outcome → ∃ schema, outcome = some schema ∧ schema.Carries (graph.marked (notes id))

theorem elements_marked {ids : List ObjectId} (hmarks : ∀ id ∈ ids, Marks setting.graph meaning notes id)
    {outcome : Option (List Json)} (h : elements meaning ids = some outcome) :
    ∃ items, outcome = some items ∧
      items.flatMap (Json.named Schema.unsupportedKeyword) = setting.graph.marked (ids.flatMap notes) := by
  induction ids generalizing outcome with
  | nil =>
    cases h
    exact ⟨[], rfl, rfl⟩
  | cons id rest ih =>
    obtain ⟨hhead, htail⟩ := List.forall_mem_cons.1 hmarks
    obtain ⟨first, hmeans, h⟩ := Option.bind_eq_some_iff.1 h
    obtain ⟨schema, rfl, hcarries⟩ := hhead first hmeans
    obtain ⟨others, hmeans, rfl⟩ := Option.map_eq_some_iff.1 h
    obtain ⟨items, rfl, hfound⟩ := ih htail hmeans
    refine ⟨schema.toJson :: items, rfl, ?_⟩
    rw [List.flatMap_cons, List.flatMap_cons, TypeGraph.marked_append, hfound, hcarries.markers]

theorem arms_marked {ids : List ObjectId} (hmarks : ∀ id ∈ ids, Marks setting.graph meaning notes id)
    {schemas : List Json} (h : arms meaning ids = some schemas) :
    schemas.flatMap (Json.named Schema.unsupportedKeyword) = setting.graph.marked (ids.flatMap notes) := by
  induction ids generalizing schemas with
  | nil =>
    cases h
    rfl
  | cons id rest ih =>
    obtain ⟨hhead, htail⟩ := List.forall_mem_cons.1 hmarks
    obtain ⟨first, hmeans, h⟩ := Option.bind_eq_some_iff.1 h
    obtain ⟨schema, rfl, hcarries⟩ := hhead first hmeans
    obtain ⟨others, hmeans, rfl⟩ := Option.map_eq_some_iff.1 h
    rw [List.flatMap_cons, TypeGraph.marked_append, ← ih htail hmeans, List.flatMap_append]
    exact congrArg (· ++ _) ((List.append_nil _).trans hcarries.markers)

theorem carries_rawSchema {fragment : String} (hlacks : LacksText Schema.unsupportedKeyword fragment)
    (note : FragmentError → Diagnostic) (hother : ∀ error, note error ∉ setting.graph.genericNotes) :
    (rawSchema fragment fun error => (note error).message).Carries (setting.graph.marked (rawNote fragment note)) := by
  unfold rawSchema rawNote Schema.ofFragment
  cases hreads : Json.read fragment with
  | error fault =>
    dsimp only
    rw [TypeGraph.marked_of_notMem (hother _)]
    exact Schema.carries_unsupported _
  | ok value =>
    cases value with
    | obj members => exact Schema.carries_of_lacks (hlacks _ hreads)
    | bool b =>
      cases b with
      | true => exact Schema.carries_empty
      | false => exact Schema.carries_empty.add "not" (by decide) (by decide) (.obj [])
    | _ =>
      dsimp only [Schema.ofJson?]
      rw [TypeGraph.marked_of_notMem (hother _)]
      exact Schema.carries_unsupported _

theorem lacks_defaultValue {name literal : String} (hlacks : LacksText name literal) :
    (Shape.defaultValue literal).Lacks name := by
  unfold Shape.defaultValue
  cases hreads : Json.read literal with
  | error fault => rfl
  | ok value => exact hlacks value hreads

theorem carries_withDefault {schema : Schema} {markers : List Json} (h : schema.Carries markers)
    {default : Option String} (hlacks : ∀ literal ∈ default, LacksText Schema.unsupportedKeyword literal) :
    (withDefault schema default).Carries markers := by
  cases default with
  | none => exact h
  | some literal => exact h.dress (by decide) (lacks_defaultValue (hlacks literal rfl))

theorem property_marked (owner : String) {p : Property} (hlacks : p.Lacks Schema.unsupportedKeyword)
    (hmarks : ∀ id ∈ p.member?, Marks setting.graph meaning notes id) {outcome : Option Schema}
    (h : property meaning p = some outcome) :
    ∃ schema, outcome = some schema ∧ schema.Carries (setting.graph.marked (propertyNotes notes owner p)) := by
  have htexts := hlacks.texts
  unfold Property.texts at htexts
  unfold Property.member? at hmarks
  unfold property at h
  unfold propertyNotes
  cases hshape : p.shape with
  | override fragment =>
    simp only [hshape] at h htexts ⊢
    cases h
    exact ⟨_, rfl, carries_rawSchema (htexts fragment (List.mem_singleton_self _))
      (fun error => ⟨owner ++ "." ++ p.name, propertyMessage p error⟩)
      (TypeGraph.property_notMem_genericNotes (owner ++ "." ++ p.name) p)⟩
  | custom member default =>
    simp only [hshape] at h htexts hmarks ⊢
    obtain ⟨inner, hmeans, rfl⟩ := Option.map_eq_some_iff.1 h
    obtain ⟨schema, rfl, hcarries⟩ := hmarks member rfl inner hmeans
    have hannotated := hcarries.annotate hlacks.metadata
    exact ⟨_, rfl, carries_withDefault hannotated fun literal hmem => htexts literal (by simpa using hmem)⟩

theorem properties_marked (owner : String) {props : List Property}
    (hlacks : ∀ p ∈ props, p.Lacks Schema.unsupportedKeyword)
    (hmarks : ∀ id ∈ props.filterMap Property.member?, Marks setting.graph meaning notes id)
    {compiled : List (Property × Schema)} (h : properties meaning props = some compiled) :
    compiled.map (·.1) = props ∧ compiled.flatMap (fun entry => entry.2.toJson.named Schema.unsupportedKeyword) =
      setting.graph.marked (props.flatMap (propertyNotes notes owner)) := by
  induction props generalizing compiled with
  | nil =>
    cases h
    exact ⟨rfl, rfl⟩
  | cons p rest ih =>
    obtain ⟨hhead, htail⟩ := List.forall_mem_cons.1 hlacks
    obtain ⟨first, hmeans, h⟩ := Option.bind_eq_some_iff.1 h
    obtain ⟨others, hmeansRest, rfl⟩ := Option.map_eq_some_iff.1 h
    obtain ⟨schema, rfl, hcarries⟩ := property_marked owner hhead
      (fun id hmem => hmarks id (List.mem_filterMap.2 ⟨p, List.mem_cons_self, hmem⟩)) hmeans
    obtain ⟨hnames, hfound⟩ := ih htail
      (fun id hmem => hmarks id (List.filterMap_cons ▸ by cases p.member? <;> simp [hmem])) hmeansRest
    refine ⟨congrArg (p :: ·) hnames, ?_⟩
    rw [List.flatMap_cons, TypeGraph.marked_append, ← hfound, ← hcarries.markers]
    rfl

theorem carries_nullable {inner : Schema} {markers : List Json} (h : inner.Carries markers) :
    (Shape.nullableSchema inner).Carries markers := by
  have hwrapped := Schema.carries_empty.add "oneOf" (by decide) (by decide)
    (.arr [inner.toJson, (Schema.ofType "null").toJson])
  rw [Json.named_arr, List.flatMap_cons, h.markers, List.flatMap_singleton, (Schema.carries_ofType "null").markers,
    List.append_nil] at hwrapped
  exact hwrapped

theorem carries_array {inner : Schema} {markers : List Json} (h : inner.Carries markers) :
    (Shape.arraySchema inner).Carries markers := by
  rw [← h.markers]
  exact (Schema.carries_ofType "array").add "items" (by decide) (by decide) inner.toJson

theorem carries_map {inner : Schema} {markers : List Json} (h : inner.Carries markers) :
    (Shape.mapSchema inner).Carries markers := by
  rw [← h.markers]
  exact (Schema.carries_ofType "object").add "additionalProperties" (by decide) (by decide) inner.toJson

theorem carries_union (schemas : List Json) :
    (unionSchema schemas).Carries (schemas.flatMap (Json.named Schema.unsupportedKeyword)) := by
  unfold unionSchema
  split_ifs with hempty
  · rw [List.isEmpty_iff.1 hempty]
    exact Schema.carries_ofType "object"
  · rw [← Json.named_arr]
    exact (Schema.carries_ofType "object").add "oneOf" (by decide) (by decide) (.arr schemas)

theorem carries_tuple (items : List Json) :
    (Shape.tupleSchema items).Carries (items.flatMap (Json.named Schema.unsupportedKeyword)) := by
  rw [← Json.named_arr]
  have hcount : (Json.nat items.length).Lacks Schema.unsupportedKeyword := rfl
  have hprefixed := (Schema.carries_ofType "array").add "prefixItems" (by decide) (by decide) (.arr items)
  exact (hprefixed.add_lacking "minItems" (by simp [Schema.mem_keywords_set]; decide) (by decide) hcount).add_lacking
    "maxItems" (by simp [Schema.mem_keywords_set]; decide) (by decide) hcount

theorem carries_object {owner : String} {props : List Property} (hnames : (props.map (·.name)).Nodup)
    (hlacks : ∀ p ∈ props, p.Lacks Schema.unsupportedKeyword)
    (hmarks : ∀ id ∈ props.filterMap Property.member?, Marks setting.graph meaning notes id)
    {compiled : List (Property × Schema)} (h : properties meaning props = some compiled) :
    (Shape.objectSchema compiled).Carries (setting.graph.marked (props.flatMap (propertyNotes notes owner))) := by
  obtain ⟨rfl, hfound⟩ := properties_marked owner hlacks hmarks h
  have hdistinct : (Members.keys ([] ++ compiled.map fun entry => (entry.1.name, entry.2.toJson))).Nodup := by
    rw [List.nil_append, Members.keys, List.map_map]
    rw [List.map_map] at hnames
    exact hnames
  have htable : (Json.obj (Members.ofList (compiled.map fun entry => (entry.1.name, entry.2.toJson)))).named
      Schema.unsupportedKeyword = setting.graph.marked ((compiled.map (·.1)).flatMap (propertyNotes notes owner)) := by
    rw [Members.ofList, Members.insertAll_of_nodup hdistinct, List.nil_append, Json.named_obj, List.flatMap_map,
      ← hfound]
    refine List.flatMap_congr fun entry hmem => Json.namedMember_of_ne ?_ _
    exact (hlacks entry.1 (List.mem_map_of_mem hmem)).called
  have hbase := (Schema.carries_ofType "object").add "properties" (by decide) (by decide)
    (.obj (Members.ofList (compiled.map fun entry => (entry.1.name, entry.2.toJson))))
  rw [htable, List.nil_append] at hbase
  unfold Shape.objectSchema
  dsimp only
  split_ifs
  · exact hbase
  · refine hbase.add_lacking "required" (by simp [Schema.mem_keywords_set]; decide) (by decide) ?_
    refine Json.lacks_arr.2 fun item hmem => ?_
    obtain ⟨name, -, rfl⟩ := List.mem_map.1 hmem
    rfl

/-- What is made of a child has the child's markers, if the making adds none. -/
theorem wrapped_marked {id : ObjectId} (hmarks : Marks setting.graph meaning notes id) {f : Schema → Schema}
    (hkeeps : ∀ {inner : Schema}, inner.Carries (setting.graph.marked (notes id)) →
      (f inner).Carries (setting.graph.marked (notes id))) {outcome : Option Schema}
    (h : (meaning id).map (·.map f) = some outcome) :
    ∃ schema, outcome = some schema ∧ schema.Carries (setting.graph.marked (notes id)) := by
  obtain ⟨inner, hmeans, rfl⟩ := Option.map_eq_some_iff.1 h
  obtain ⟨schema, rfl, hcarries⟩ := hmarks inner hmeans
  exact ⟨f schema, rfl, hkeeps hcarries⟩

theorem map_marked (hmode : setting.options.dictionaryKeys ≠ .skip) {key value : ObjectId} {keyNode : ObjectNode}
    (hfound : setting.graph.get? key = some keyNode)
    (hmarks : setting.graph.acceptsKey setting.options.dictionaryKeys key = true →
      Marks setting.graph meaning notes value) {outcome : Option Schema}
    (h : map meaning setting node keyNode value = some outcome) :
    ∃ schema, outcome = some schema ∧ schema.Carries (setting.graph.marked
      (if setting.graph.acceptsKey setting.options.dictionaryKeys key then notes value
      else ((setting.graph.get? key).map fun keyNode => ⟨node.identity, Shape.keyRefusal node keyNode⟩).toList)) := by
  have haccepts := TypeGraph.acceptsKey_eq hfound setting.options.dictionaryKeys
  unfold map at h
  split_ifs at h with hstringy
  · have haccepted := haccepts.trans (by rw [hstringy, Bool.true_or])
    rw [if_pos haccepted]
    exact wrapped_marked (hmarks haccepted) carries_map h
  · cases hkeys : setting.options.dictionaryKeys with
    | loose =>
      rw [hkeys] at h haccepts hmarks
      have haccepted := haccepts.trans (Bool.or_true _)
      rw [if_pos haccepted]
      exact wrapped_marked (hmarks haccepted) (f := fun schema => (Shape.mapSchema schema).comment _)
        (fun hcarries => (carries_map hcarries).comment _) h
    | strict =>
      rw [hkeys] at h haccepts hmarks
      cases h
      rw [if_neg (by rw [haccepts, Bool.eq_false_iff.2 hstringy]; decide), hfound, Option.map_some, Option.toList_some,
        TypeGraph.marked_of_notMem (TypeGraph.keyRefusal_notMem_genericNotes node keyNode)]
      exact ⟨_, rfl, Schema.carries_unsupported _⟩
    | silent =>
      rw [hkeys] at h haccepts hmarks
      have haccepted := haccepts.trans (Bool.or_true _)
      rw [if_pos haccepted]
      exact wrapped_marked (hmarks haccepted) carries_map h
    | skip => exact absurd hkeys hmode

/-- **The markers of a level.** Where nothing is dropped, they are those for the notes of the level. -/
theorem layer_marked (hmode : setting.options.dictionaryKeys ≠ .skip) (hmem : node ∈ setting.graph.objects)
    (hlacks : node.Lacks Schema.unsupportedKeyword)
    (hnames : ∀ {props implements}, node.shape = .custom props implements → (props.map (·.name)).Nodup)
    (hmarks : ∀ id ∈ setting.graph.followed setting.options.dictionaryKeys node, Marks setting.graph meaning notes id)
    {outcome : Option Schema} (h : layer meaning setting node = some outcome) :
    ∃ schema, outcome = some schema ∧ schema.Carries (setting.graph.marked (layerNotes setting notes node)) := by
  have hcontent := hlacks.shape
  unfold TypeGraph.followed at hmarks
  unfold layer at h
  unfold layerNotes
  cases hshape : node.shape with
  | system p =>
    simp only [hshape] at h ⊢
    cases h
    exact ⟨_, rfl, Schema.carries_primitive p⟩
  | override fragment =>
    simp only [hshape] at h ⊢
    rw [hshape] at hcontent
    cases h
    exact ⟨_, rfl, carries_rawSchema hcontent (fun error => ⟨node.identity, Shape.overrideMessage node.identity error⟩)
      (TypeGraph.override_notMem_genericNotes node.identity)⟩
  | nullable element =>
    simp only [hshape] at h hmarks ⊢
    exact wrapped_marked (hmarks element (List.mem_singleton_self _)) carries_nullable h
  | array base element =>
    simp only [hshape] at h hmarks ⊢
    exact wrapped_marked (hmarks element (List.mem_singleton_self _)) carries_array h
  | map base key value =>
    simp only [hshape] at h hmarks ⊢
    obtain ⟨keyNode, hfound, h⟩ := Option.bind_eq_some_iff.1 h
    exact map_marked hmode hfound (fun haccepted => hmarks value (by simp [haccepted])) h
  | generic base arguments =>
    have hnotes : node.genericNote? =
        some ⟨node.identity, Shape.genericMessage node.identity base arguments.length⟩ := by
      rw [ObjectNode.genericNote?, hshape]
    simp only [hshape] at h ⊢
    cases h
    rw [hnotes, Option.toList_some, TypeGraph.marked_of_mem (TypeGraph.mem_genericNotes hmem hnotes)]
    exact ⟨_, rfl, (Schema.carries_ofType "object").comment _⟩
  | abstract ids =>
    simp only [hshape] at h hmarks ⊢
    obtain ⟨schemas, hmeans, rfl⟩ := Option.map_eq_some_iff.1 h
    exact ⟨_, rfl, arms_marked hmarks hmeans ▸ carries_union schemas⟩
  | custom props implements =>
    simp only [hshape] at h hmarks ⊢
    rw [hshape] at hcontent
    obtain ⟨compiled, hmeans, rfl⟩ := Option.map_eq_some_iff.1 h
    exact ⟨_, rfl, carries_object (hnames hshape) hcontent hmarks hmeans⟩
  | tuple ids =>
    simp only [hshape] at h hmarks ⊢
    obtain ⟨o, hmeans, rfl⟩ := Option.map_eq_some_iff.1 h
    obtain ⟨items, rfl, hfound⟩ := elements_marked hmarks hmeans
    exact ⟨_, rfl, hfound ▸ carries_tuple items⟩

/-- **The markers of a node.** Where nothing is dropped, the markers in one level of a node are the messages of its
notes, in order, apart from those on generic types. -/
theorem expand_marked (hmode : setting.options.dictionaryKeys ≠ .skip) (hvalid : setting.graph.validate = .ok ())
    (hlacks : ∀ node ∈ setting.graph.objects, node.Lacks Schema.unsupportedKeyword) {fuel : Nat} {id : ObjectId}
    (hfound : setting.graph.get? id = some node) {outcome : Option Schema}
    (h : expand setting fuel node = some outcome) :
    ∃ schema, outcome = some schema ∧ schema.Carries (setting.graph.marked (Translation.notes setting fuel node)) := by
  induction fuel generalizing id node outcome with
  | zero => cases h
  | succ fuel ih =>
    have hmem := TypeGraph.mem_objects hfound
    refine layer_marked hmode hmem (hlacks node hmem) (TypeGraph.nodup_names hvalid hfound)
      (fun child _ outcome hmeans => ?_) h
    obtain ⟨target, htarget, ⟨hdefined, rfl⟩ | ⟨hinlined, inner, hexpands, rfl⟩⟩ := child_eq_some_iff.1 hmeans
    · rw [childNotes_of_defined htarget hdefined]
      exact ⟨_, rfl, Schema.carries_ofReference _⟩
    · obtain ⟨schema, rfl, hcarries⟩ := ih htarget hexpands
      rw [childNotes_of_inlined htarget hinlined]
      exact ⟨_, rfl, hcarries.annotate (hlacks target (TypeGraph.mem_objects htarget)).metadata⟩

end

end Translation

end GraphSchema
