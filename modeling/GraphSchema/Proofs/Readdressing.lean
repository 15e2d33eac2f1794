import GraphSchema.Proofs.Document
import GraphSchema.Proofs.Emissions
import GraphSchema.Proofs.Pointers

/-!
References to another address, and types that are the root of one document and a definition in another.

- `Json.readdress` : a value with the references at some places written anew.
- `Translation.expand_readdress` : what a root changes in the translation of a node is the text of references.
- `inlined_root_agrees` : what a document says about its root is what another document says in the definition of
  that type, up to the references to either root.
-/

namespace GraphSchema

open Json (Path Segment)

namespace Json

/-! ## Readdressing a value -/

/-- the places that a step leads towards, as seen from behind it -/
def Path.behind (segment : Segment) (places : List Path) : List Path :=
  places.filterMap fun
    | first :: rest => if first = segment then some rest else none
    | [] => none

/-- a text written anew if it is the old one -/
def redirect (old new : String) : Json → Json
  | .str text => .str (if text = old then new else text)
  | value => value

mutual

/-- The value in which at each of the places, a reference to the old address is one to the new address. -/
def readdress (old new : String) (places : List Path) : Json → Json
  | .arr items => .arr (readdressItems old new places 0 items)
  | .obj members => .obj (readdressMembers old new places members)
  | value => value

/-- the items of an array, the first of which has this index -/
def readdressItems (old new : String) (places : List Path) (index : Nat) : List Json → List Json
  | [] => []
  | item :: rest =>
    readdress old new (Path.behind (.index index) places) item :: readdressItems old new places (index + 1) rest

def readdressMembers (old new : String) (places : List Path) : List (String × Json) → List (String × Json)
  | [] => []
  | (key, value) :: rest =>
    (key, if key = "$ref" ∧ places.contains [] then redirect old new value
      else readdress old new (Path.behind (.key key) places) value) :: readdressMembers old new places rest

end

/-- the value under a key of an object with such places -/
def readdressUnder (old new : String) (places : List Path) (key : String) (value : Json) : Json :=
  if key = "$ref" ∧ places.contains [] then redirect old new value
  else readdress old new (Path.behind (.key key) places) value

section

variable {old new : String} {places : List Path}

theorem readdressMembers_eq (members : List (String × Json)) : readdressMembers old new places members =
    members.map fun (key, value) => (key, readdressUnder old new places key value) := by
  induction members with
  | nil => rfl
  | cons entry rest ih =>
    obtain ⟨key, value⟩ := entry
    rw [readdressMembers, ih]
    rfl

theorem behind_nil (segment : Segment) : Path.behind segment [] = [] := rfl

theorem behind_append (segment : Segment) (front back : List Path) :
    Path.behind segment (front ++ back) = Path.behind segment front ++ Path.behind segment back :=
  List.filterMap_append ..

theorem behind_same (segment : Segment) (places : List Path) :
    Path.behind segment (places.map (segment :: ·)) = places := by
  induction places with
  | nil => rfl
  | cons place rest ih => simp [Path.behind]

theorem behind_other {segment other : Segment} (h : other ≠ segment) (places : List Path) :
    Path.behind segment (places.map (other :: ·)) = [] := by
  induction places with
  | nil => rfl
  | cons place rest ih => simp [Path.behind, h]

mutual

theorem readdress_nil (value : Json) : readdress old new [] value = value := by
  cases value with
  | arr items => rw [readdress, readdressItems_nil]
  | obj members => rw [readdress, readdressMembers_nil]
  | _ => rfl

theorem readdressItems_nil (index : Nat) (items : List Json) : readdressItems old new [] index items = items := by
  cases items with
  | nil => rfl
  | cons item rest => rw [readdressItems, behind_nil, readdress_nil item, readdressItems_nil (index + 1) rest]

theorem readdressMembers_nil (members : List (String × Json)) : readdressMembers old new [] members = members := by
  match members with
  | [] => rfl
  | (key, value) :: rest =>
    rw [readdressMembers, behind_nil, readdress_nil value, readdressMembers_nil rest]
    simp

end

end

end Json

/-! ## Readdressing a schema -/

namespace Schema

variable {old new : String} {places : List Path}

/-- the schema with the references at some places written anew -/
def readdress (old new : String) (places : List Path) (schema : Schema) : Schema :=
  ⟨schema.members.map fun (key, value) => (key, Json.readdressUnder old new places key value)⟩

theorem toJson_readdress (schema : Schema) :
    (schema.readdress old new places).toJson = Json.readdress old new places schema.toJson := by
  rw [toJson, toJson, Json.readdress, Json.readdressMembers_eq]
  rfl

theorem readdress_nil (schema : Schema) : schema.readdress old new [] = schema := by
  have h : (schema.readdress old new []).toJson = Json.readdress old new [] schema.toJson := toJson_readdress schema
  rw [Json.readdress_nil] at h
  injection h with h
  exact congrArg Schema.mk h

theorem readdress_set (schema : Schema) (keyword : String) (value : Json) :
    (schema.set keyword value).readdress old new places =
      (schema.readdress old new places).set keyword (Json.readdressUnder old new places keyword value) :=
  congrArg Schema.mk (Members.map_insert (Json.readdressUnder old new places) schema.members keyword value)

/-- A keyword that no place leads through keeps its value. -/
theorem readdressUnder_of_behind {keyword : String} (hother : keyword ≠ "$ref")
    (h : Path.behind (.key keyword) places = []) (value : Json) :
    Json.readdressUnder old new places keyword value = value := by
  rw [Json.readdressUnder, if_neg (fun hboth => hother hboth.1), h, Json.readdress_nil]

theorem readdressUnder_str {keyword : String} (hother : keyword ≠ "$ref") (text : String) :
    Json.readdressUnder old new places keyword (.str text) = .str text := by
  rw [Json.readdressUnder, if_neg (fun hboth => hother hboth.1)]
  rfl

theorem readdress_ofType (type : String) : (ofType type).readdress old new places = ofType type := by
  rw [ofType, readdress_set, readdressUnder_str (by decide)]
  rfl

/-- no place leads through a keyword of metadata or a default value -/
def Untouched (places : List Path) : Prop :=
  ∀ keyword ∈ "default" :: annotationKeywords, Path.behind (.key keyword) places = []

theorem commentOf_readdress (members : Members Json) :
    Metadata.commentOf (members.map fun (key, value) => (key, Json.readdressUnder old new places key value)) =
      Metadata.commentOf members := by
  rw [Metadata.commentOf, Members.get?_map, Metadata.commentOf]
  cases Members.get? members "$comment" with
  | none => rfl
  | some value =>
    rw [Option.map_some, Option.bind_some, Option.bind_some, Json.readdressUnder, if_neg (by simp)]
    cases value <;> rfl

theorem readdress_comment (schema : Schema) (text : String) :
    (schema.comment text).readdress old new places = (schema.readdress old new places).comment text := by
  unfold comment
  rw [show (schema.readdress old new places).members = schema.members.map
    fun (key, value) => (key, Json.readdressUnder old new places key value) from rfl, commentOf_readdress]
  cases Metadata.commentOf schema.members with
  | none => dsimp only; rw [readdress_set, readdressUnder_str (by decide)]
  | some existing => dsimp only; rw [readdress_set, readdressUnder_str (by decide)]

theorem readdress_annotate (huntouched : Untouched places) (schema : Schema) (metadata : Option Metadata) :
    (schema.annotate metadata).readdress old new places = (schema.readdress old new places).annotate metadata := by
  cases metadata with
  | none => rfl
  | some m =>
    rw [annotate_some, annotate_some]
    split_ifs
    · rfl
    · have hinsertSome {keyword : String} (hannotates : keyword ∈ annotationKeywords) (members : Members Json)
          (value : Option Json) : (Metadata.insertSome members keyword value).map
            (fun (key, value) => (key, Json.readdressUnder old new places key value)) =
          Metadata.insertSome (members.map fun (key, value) => (key, Json.readdressUnder old new places key value))
            keyword value := by
        cases value with
        | none => rfl
        | some value =>
          have hother : keyword ≠ "$ref" := by rintro rfl; exact absurd hannotates (by decide)
          rw [Metadata.insertSome, Members.map_insert, readdressUnder_of_behind hother
            (huntouched keyword (List.mem_cons_of_mem _ hannotates))]
          rfl
      -- the comment is joined to the one that is there, and both schemas have the same one
      have hopening : (Metadata.insertSome (Metadata.insertSome schema.members "title" (m.title.map .str)) "description"
            (m.description.map .str)).map (fun (key, value) => (key, Json.readdressUnder old new places key value)) =
          Metadata.insertSome (Metadata.insertSome (schema.readdress old new places).members "title"
            (m.title.map .str)) "description" (m.description.map .str) := by
        rw [hinsertSome (by decide), hinsertSome (by decide)]
        rfl
      refine congrArg Schema.mk ?_
      simp only [Metadata.applyTo]
      rw [hinsertSome (by decide), hinsertSome (by decide), hinsertSome (by decide), hopening, ← hopening,
        commentOf_readdress]

end Schema

namespace Translation

/-! ## The places below the children of a node -/

section Places

variable {old new : String} {places : List Path} {inner : ObjectId → List Path}

/-- the places of children, continued by the places inside each child -/
def continued (slots : List (Path × ObjectId)) (inner : ObjectId → List Path) : List Path :=
  slots.flatMap fun (front, id) => (inner id).map (front ++ ·)

theorem continued_under (keyword : String) (slots : List (Path × ObjectId)) :
    continued (under keyword slots) inner = (continued slots inner).map (.key keyword :: ·) := by
  induction slots with
  | nil => rfl
  | cons slot rest ih =>
    obtain ⟨front, id⟩ := slot
    show (inner id).map _ ++ continued (under keyword rest) inner = ((inner id).map _ ++ continued rest inner).map _
    rw [ih, List.map_append, List.map_map]
    rfl

theorem continued_here (id : ObjectId) : continued [([], id)] inner = inner id := by
  simp [continued]

/-- The places behind an index are those inside the child that stands there. -/
theorem behind_indexed (i j : Nat) (ids : List ObjectId) :
    Path.behind (.index j) (continued (indexed i ids) inner) =
      if j < i then [] else (ids[j - i]?.map inner).getD [] := by
  induction ids generalizing i with
  | nil => simp [indexed, continued, Json.behind_nil]
  | cons id rest ih =>
    show Path.behind (.index j) ((inner id).map (.index i :: ·) ++ continued (indexed (i + 1) rest) inner) = _
    rw [Json.behind_append, ih]
    by_cases h : j = i
    · subst h
      rw [Json.behind_same, if_pos (Nat.lt_succ_self _), if_neg (Nat.lt_irrefl _), List.append_nil, Nat.sub_self]
      rfl
    · rw [Json.behind_other (by simpa [eq_comm] using h), List.nil_append]
      by_cases hless : j < i
      · rw [if_pos (by omega), if_pos hless]
      · rw [if_neg (by omega), if_neg hless, show j - i = (j - (i + 1)) + 1 by omega, List.getElem?_cons_succ]

/-- The places behind an index, for each index of a list, are those inside the child there. -/
def Serves (places : List Path) (inner : ObjectId → List Path) (index : Nat) (ids : List ObjectId) : Prop :=
  ∀ k id, ids[k]? = some id → Path.behind (.index (index + k)) places = inner id

theorem serves_indexed (ids : List ObjectId) : Serves (continued (indexed 0 ids) inner) inner 0 ids := by
  intro k id h
  rw [behind_indexed, if_neg (Nat.not_lt_zero _), Nat.zero_add, Nat.sub_zero, h]
  rfl

theorem Serves.head {index : Nat} {id : ObjectId} {rest : List ObjectId} (h : Serves places inner index (id :: rest)) :
    Path.behind (.index index) places = inner id :=
  h 0 id rfl

theorem Serves.tail {index : Nat} {id : ObjectId} {rest : List ObjectId} (h : Serves places inner index (id :: rest)) :
    Serves places inner (index + 1) rest := by
  intro k other hfound
  have := h (k + 1) other hfound
  rwa [← Nat.add_assoc, Nat.add_right_comm] at this

variable {child plain : ObjectId → Option (Option Schema)}

/-- what a child means is what it means plainly, with the references inside it written anew -/
def Readdresses (old new : String) (inner : ObjectId → List Path) (child plain : ObjectId → Option (Option Schema)) :
    Prop :=
  ∀ id, plain id = (child id).map (·.map (·.readdress old new (inner id)))

theorem Readdresses.kept (h : Readdresses old new inner child plain) (id : ObjectId) :
    Translation.kept plain id = Translation.kept child id := by
  unfold Translation.kept
  rw [h id]
  rcases child id with _ | _ | _ <;> rfl

theorem elements_readdress (h : Readdresses old new inner child plain) {ids : List ObjectId} {index : Nat}
    (hserves : Serves places inner index ids) :
    elements plain ids = (elements child ids).map (·.map (Json.readdressItems old new places index)) := by
  induction ids generalizing index with
  | nil => rfl
  | cons id rest ih =>
    rw [elements, elements, h id, ih hserves.tail]
    rcases child id with _ | _ | schema
    · rfl
    · rfl
    · rcases elements child rest with _ | _ | items
      · rfl
      · rfl
      · simp [Json.readdressItems, hserves.head, Schema.toJson_readdress]

theorem arms_readdress (h : Readdresses old new inner child plain) {ids : List ObjectId} {index : Nat}
    (hserves : Serves places inner index (ids.filter (Translation.kept plain))) :
    arms plain ids = (arms child ids).map (Json.readdressItems old new places index) := by
  induction ids generalizing index with
  | nil => rfl
  | cons id rest ih =>
    have hsame := h.kept id
    rw [arms, arms]
    cases hmeans : child id with
    | none => rw [h id, hmeans]; rfl
    | some outcome =>
      rw [Translation.kept, Translation.kept, hmeans] at hsame
      cases outcome with
      | none =>
        rw [List.filter_cons_of_neg (by rw [Translation.kept, hsame]; simp)] at hserves
        rw [h id, hmeans, ih hserves]
        cases arms child rest <;> simp
      | some schema =>
        rw [List.filter_cons_of_pos (by rw [Translation.kept, hsame])] at hserves
        rw [h id, hmeans, ih hserves.tail]
        rcases arms child rest with _ | items
        · rfl
        · simp [Json.readdressItems, hserves.head, Schema.toJson_readdress]

theorem readdress_withDefault (huntouched : Schema.Untouched places) (schema : Schema) (default : Option String) :
    (withDefault schema default).readdress old new places =
      withDefault (schema.readdress old new places) default := by
  cases default with
  | none => rfl
  | some literal =>
    rw [withDefault, Schema.readdress_set,
      Schema.readdressUnder_of_behind (by decide) (huntouched "default" List.mem_cons_self)]
    rfl

theorem property_readdress (h : Readdresses old new inner child plain) (huntouched : ∀ id, Schema.Untouched (inner id))
    {p : Property} (hplaces : ∀ id ∈ p.member?, Translation.kept plain id = true → places = inner id)
    (hraw : p.member? = none → places = []) :
    property plain p = (property child p).map (·.map (·.readdress old new places)) := by
  unfold property
  unfold Property.member? at hplaces hraw
  cases hshape : p.shape with
  | override fragment =>
    rw [hshape] at hraw
    simp only [hraw, Option.map_some, Schema.readdress_nil]
  | custom member default =>
    rw [hshape] at hplaces
    have hsame := h.kept member
    simp only
    rw [h member]
    cases hmeans : child member with
    | none => rfl
    | some outcome =>
      cases outcome with
      | none => rfl
      | some schema =>
        have hkeeps : Translation.kept plain member = true := by rw [hsame, Translation.kept, hmeans]
        rw [hplaces member rfl hkeeps]
        simp only [Option.map_some]
        rw [readdress_withDefault (huntouched member), Schema.readdress_annotate (huntouched member)]

/-- a compiled property with the references inside it written anew -/
def readdressProperty (old new : String) (places : List Path) (entry : Property × Schema) : Property × Schema :=
  (entry.1, entry.2.readdress old new (Path.behind (.key entry.1.name) places))

theorem properties_readdress (h : Readdresses old new inner child plain)
    (huntouched : ∀ id, Schema.Untouched (inner id)) {props : List Property}
    (hmembers : ∀ p ∈ props, ∀ id ∈ p.member?, Translation.kept plain id = true →
      Path.behind (.key p.name) places = inner id)
    (hraw : ∀ p ∈ props, p.member? = none → Path.behind (.key p.name) places = []) :
    properties plain props = (properties child props).map (·.map (readdressProperty old new places)) := by
  induction props with
  | nil => rfl
  | cons p rest ih =>
    have hstep := property_readdress h huntouched (hmembers p List.mem_cons_self) (hraw p List.mem_cons_self)
    rw [properties, properties, hstep,
      ih (fun q hmem => hmembers q (List.mem_cons_of_mem _ hmem)) (fun q hmem => hraw q (List.mem_cons_of_mem _ hmem))]
    rcases property child p with _ | _ | schema
    · rfl
    · rcases properties child rest with _ | compiled
      · rfl
      · simp
    · rcases properties child rest with _ | compiled
      · rfl
      · simp [readdressProperty]

section Members

variable {meaning : ObjectId → Option (Option Schema)}

/-- the places inside the member behind a property, unless it is dropped -/
def memberPlaces (meaning : ObjectId → Option (Option Schema)) (inner : ObjectId → List Path) (p : Property) :
    List Path :=
  ((p.member?.filter (Translation.kept meaning)).map inner).getD []

theorem continued_memberSlots_cons (p : Property) (rest : List Property) :
    continued (memberSlots meaning (p :: rest)) inner =
      (memberPlaces meaning inner p).map (.key p.name :: ·) ++ continued (memberSlots meaning rest) inner := by
  unfold memberSlots memberPlaces
  rw [List.filterMap_cons]
  cases p.member?.filter (Translation.kept meaning) <;> rfl

theorem behind_memberSlots_of_notMem {props : List Property} {name : String} (hother : name ∉ props.map (·.name)) :
    Path.behind (.key name) (continued (memberSlots meaning props) inner) = [] := by
  induction props with
  | nil => rfl
  | cons p rest ih =>
    obtain ⟨hne, hother⟩ := not_or.1 (mt List.mem_cons.2 hother)
    rw [continued_memberSlots_cons, Json.behind_append, ih hother,
      Json.behind_other (by simpa [eq_comm] using hne), List.nil_append]

/-- The places behind the name of a property are those inside its member. -/
theorem behind_memberSlots {props : List Property} (hnames : (props.map (·.name)).Nodup) {p : Property}
    (hmem : p ∈ props) :
    Path.behind (.key p.name) (continued (memberSlots meaning props) inner) = memberPlaces meaning inner p := by
  induction props with
  | nil => cases hmem
  | cons q rest ih =>
    obtain ⟨hnew, hnames⟩ := List.nodup_cons.1 hnames
    rw [continued_memberSlots_cons, Json.behind_append]
    rcases List.mem_cons.1 hmem with rfl | hmem
    · rw [Json.behind_same, behind_memberSlots_of_notMem hnew, List.append_nil]
    · have hne : q.name ≠ p.name := fun hsame => hnew (List.mem_map.2 ⟨p, hmem, hsame.symm⟩)
      rw [Json.behind_other (by simpa using hne), List.nil_append, ih hnames hmem]

end Members

/-! ## Readdressing a level -/

variable {setting : Setting}

/-- the setting of a document in which no reference points to the root -/
def bare (setting : Setting) : Setting := { setting with rootIdentity := none }

theorem behind_keyed {keyword : String} (other : String) (h : other ≠ keyword) (places : List Path) :
    Path.behind (.key other) (places.map (.key keyword :: ·)) = [] :=
  Json.behind_other (by simpa [eq_comm] using h) places

/-- Where all places lead through a keyword, what stands there is readdressed. -/
theorem readdress_set_keyword {keyword : String} (hother : keyword ≠ "$ref") (schema : Schema) (value : Json) :
    (schema.set keyword value).readdress old new (places.map (.key keyword :: ·)) =
      (schema.readdress old new (places.map (.key keyword :: ·))).set keyword (Json.readdress old new places value) := by
  rw [Schema.readdress_set, Json.readdressUnder, if_neg (fun hboth => hother hboth.1), Json.behind_same]

/-- A further keyword keeps its value. -/
theorem readdress_set_other {keyword other : String} (hne : other ≠ keyword) (hnoRef : other ≠ "$ref") (schema : Schema)
    (value : Json) : (schema.set other value).readdress old new (places.map (.key keyword :: ·)) =
      (schema.readdress old new (places.map (.key keyword :: ·))).set other value := by
  rw [Schema.readdress_set, Schema.readdressUnder_of_behind hnoRef (behind_keyed other hne places)]

theorem length_readdressItems (index : Nat) (items : List Json) :
    (Json.readdressItems old new places index items).length = items.length := by
  induction items generalizing index with
  | nil => rfl
  | cons item rest ih => rw [Json.readdressItems, List.length_cons, ih, List.length_cons]

theorem readdress_nullableSchema {id : ObjectId} (hserves : Serves places inner 0 [id]) (schema : Schema) :
    (Shape.nullableSchema schema).readdress old new (places.map (.key "oneOf" :: ·)) =
      Shape.nullableSchema (schema.readdress old new (inner id)) := by
  have hnull (places : List Path) : Json.readdress old new places (Schema.ofType "null").toJson =
      (Schema.ofType "null").toJson := by
    rw [← Schema.toJson_readdress, Schema.readdress_ofType]
  rw [Shape.nullableSchema, readdress_set_keyword (by decide), Json.readdress, Json.readdressItems, Json.readdressItems,
    Json.readdressItems, hnull, hserves.head, ← Schema.toJson_readdress]
  rfl

theorem readdress_arraySchema (schema : Schema) :
    (Shape.arraySchema schema).readdress old new (places.map (.key "items" :: ·)) =
      Shape.arraySchema (schema.readdress old new places) := by
  rw [Shape.arraySchema, readdress_set_keyword (by decide), Schema.readdress_ofType, ← Schema.toJson_readdress]
  rfl

theorem readdress_mapSchema (schema : Schema) :
    (Shape.mapSchema schema).readdress old new (places.map (.key "additionalProperties" :: ·)) =
      Shape.mapSchema (schema.readdress old new places) := by
  rw [Shape.mapSchema, readdress_set_keyword (by decide), Schema.readdress_ofType, ← Schema.toJson_readdress]
  rfl

theorem readdress_unionSchema (arms : List Json) :
    (unionSchema arms).readdress old new (places.map (.key "oneOf" :: ·)) =
      unionSchema (Json.readdressItems old new places 0 arms) := by
  cases arms with
  | nil => exact Schema.readdress_ofType "object"
  | cons arm rest =>
    rw [unionSchema, if_neg (by simp), readdress_set_keyword (by decide), Schema.readdress_ofType, Json.readdress]
    rfl

theorem readdress_tupleSchema (items : List Json) :
    (Shape.tupleSchema items).readdress old new (places.map (.key "prefixItems" :: ·)) =
      Shape.tupleSchema (Json.readdressItems old new places 0 items) := by
  rw [Shape.tupleSchema, readdress_set_other (by decide) (by decide), readdress_set_other (by decide) (by decide),
    readdress_set_keyword (by decide), Schema.readdress_ofType, Json.readdress, Shape.tupleSchema, length_readdressItems]

theorem readdress_objectSchema (hbelow : places.contains [] = false) (compiled : List (Property × Schema)) :
    (Shape.objectSchema compiled).readdress old new (places.map (.key "properties" :: ·)) =
      Shape.objectSchema (compiled.map (readdressProperty old new places)) := by
  have htable : Json.readdress old new places
        (.obj (Members.ofList (compiled.map fun entry => (entry.1.name, entry.2.toJson)))) =
      .obj (Members.ofList ((compiled.map (readdressProperty old new places)).map
        fun entry => (entry.1.name, entry.2.toJson))) := by
    rw [Json.readdress, Json.readdressMembers_eq, Members.map_ofList, List.map_map, List.map_map]
    refine congrArg (fun entries => Json.obj (Members.ofList entries)) (List.map_congr_left fun entry _ => ?_)
    have hinside : Json.readdressUnder old new places entry.1.name entry.2.toJson =
        Json.readdress old new (Path.behind (.key entry.1.name) places) entry.2.toJson :=
      if_neg (by rw [hbelow]; simp)
    show (entry.1.name, Json.readdressUnder old new places entry.1.name entry.2.toJson) = _
    rw [hinside, ← Schema.toJson_readdress]
    rfl
  have hrequired : (((compiled.map (readdressProperty old new places)).filter (·.1.nullability.isRequired)).map
      (·.1.name)) = (compiled.filter (·.1.nullability.isRequired)).map (·.1.name) := by
    rw [List.filter_map, List.map_map]
    rfl
  unfold Shape.objectSchema
  simp only [hrequired]
  split_ifs
  · rw [readdress_set_keyword (by decide), Schema.readdress_ofType]
    exact congrArg ((Schema.ofType "object").set "properties") htable
  · rw [readdress_set_other (by decide) (by decide), readdress_set_keyword (by decide), Schema.readdress_ofType]
    exact congrArg (fun value => ((Schema.ofType "object").set "properties" value).set "required" _) htable

theorem continued_memberSlots_below {meaning : ObjectId → Option (Option Schema)} (props : List Property) :
    (continued (memberSlots meaning props) inner).contains [] = false := by
  induction props with
  | nil => rfl
  | cons p rest ih =>
    rw [continued_memberSlots_cons]
    simpa using ih

theorem map_readdress (h : Readdresses old new inner child plain) {node keyNode : ObjectNode} {key value : ObjectId}
    (hfound : setting.graph.get? key = some keyNode) :
    map plain (bare setting) node keyNode value = (map child setting node keyNode value).map (·.map (·.readdress old new
      (continued (if setting.graph.acceptsKey setting.options.dictionaryKeys key
        then under "additionalProperties" [([], value)] else []) inner))) := by
  have hvalues : (plain value).map (·.map Shape.mapSchema) = ((child value).map (·.map Shape.mapSchema)).map
      (·.map (·.readdress old new (continued (under "additionalProperties" [([], value)]) inner))) := by
    rw [h value, continued_under, continued_here]
    rcases child value with _ | _ | schema
    · rfl
    · rfl
    · simp only [Option.map_some, readdress_mapSchema]
  have hmode : (bare setting).options = setting.options := rfl
  rw [TypeGraph.acceptsKey_eq hfound]
  unfold map
  rw [hmode]
  by_cases hstring : Shape.hasStringKeys keyNode = true
  · rw [if_pos hstring, if_pos hstring, if_pos (by rw [hstring]; rfl), hvalues]
  · rw [if_neg hstring, if_neg hstring, Bool.eq_false_iff.2 hstring, Bool.false_or]
    cases setting.options.dictionaryKeys with
    | loose =>
      rw [if_pos (show KeyMode.acceptsAnyKey .loose = true from rfl), h value, continued_under, continued_here]
      rcases child value with _ | _ | schema
      · rfl
      · rfl
      · simp only [Option.map_some, Schema.readdress_comment, readdress_mapSchema]
    | strict => simp [KeyMode.acceptsAnyKey, continued, Schema.readdress_nil]
    | silent =>
      rw [if_pos (show KeyMode.acceptsAnyKey .silent = true from rfl)]
      exact hvalues
    | skip => rfl

/-- **One level.** If what the children mean differs in the addresses of references, so does the level. -/
theorem layer_readdress (h : Readdresses old new inner child plain) (huntouched : ∀ id, Schema.Untouched (inner id))
    {node : ObjectNode} (hnames : ∀ props implements, node.shape = .custom props implements →
      (props.map (·.name)).Nodup) :
    layer plain (bare setting) node = (layer child setting node).map
      (·.map (·.readdress old new (continued (slots plain (bare setting) node) inner))) := by
  unfold layer slots
  cases hshape : node.shape with
  | system p => simp [continued, Schema.readdress_nil]
  | override fragment => simp [continued, Schema.readdress_nil]
  | generic base arguments => simp [continued, Schema.readdress_nil]
  | nullable element =>
    simp only [continued_under, h element]
    rcases child element with _ | _ | schema
    · rfl
    · rfl
    · simp only [Option.map_some, readdress_nullableSchema (serves_indexed [element])]
  | array base element =>
    simp only [continued_under, continued_here, h element]
    rcases child element with _ | _ | schema
    · rfl
    · rfl
    · simp only [Option.map_some, readdress_arraySchema]
  | map base key value =>
    simp only
    cases hfound : setting.graph.get? key with
    | none => rw [show (bare setting).graph.get? key = none from hfound]; rfl
    | some keyNode =>
      rw [show (bare setting).graph.get? key = some keyNode from hfound]
      exact map_readdress h hfound
  | abstract implementations =>
    simp only [continued_under, arms_readdress h (serves_indexed _)]
    cases arms child implementations with
    | none => rfl
    | some schemas => simp only [Option.map_some, readdress_unionSchema]
  | custom props implements =>
    have hdistinct := hnames props implements hshape
    have hcompiled := properties_readdress h huntouched
      (fun p hmem id hmember hkeeps => by
        rw [behind_memberSlots hdistinct hmem, memberPlaces, Option.mem_def.1 hmember, Option.filter_some, hkeeps]
        rfl)
      (fun p hmem hnone => by rw [behind_memberSlots hdistinct hmem, memberPlaces, hnone]; rfl)
    simp only [continued_under, hcompiled]
    cases properties child props with
    | none => rfl
    | some compiled => simp only [Option.map_some, readdress_objectSchema (continued_memberSlots_below props)]
  | tuple ids =>
    simp only [continued_under, elements_readdress h (serves_indexed ids)]
    rcases elements child ids with _ | _ | items
    · rfl
    · rfl
    · simp only [Option.map_some, readdress_tupleSchema]

/-! ## Readdressing a translation -/

theorem untouched_keyed {keyword : String} (hother : keyword ∉ "default" :: Schema.annotationKeywords)
    (places : List Path) : Schema.Untouched (places.map (.key keyword :: ·)) := by
  intro name hmem
  refine behind_keyed name ?_ places
  rintro rfl
  exact hother hmem

/-- No keyword that leads to children is one of metadata or a default value. -/
theorem untouched_slots (meaning : ObjectId → Option (Option Schema)) (setting : Setting) (node : ObjectNode) :
    Schema.Untouched (continued (slots meaning setting node) inner) := by
  have hnowhere : Schema.Untouched [] := fun _ _ => rfl
  unfold slots
  cases node.shape with
  | system p | override fragment | generic base arguments => exact hnowhere
  | map base key value =>
    simp only
    split_ifs
    · rw [continued_under]; exact untouched_keyed (by decide) _
    · exact hnowhere
  | _ => simp only [continued_under]; exact untouched_keyed (by decide) _

/-- the places of the nodes that have a definition -/
def referring (found : List (Path × ObjectNode)) : List Path :=
  (found.filter (·.2.kind.isDefined)).map (·.1)

theorem referring_continued (slots : List (Path × ObjectId)) (inside : ObjectId → List (Path × ObjectNode)) :
    referring (slots.flatMap fun (front, id) => (inside id).map fun (path, found) => (front ++ path, found)) =
      continued slots fun id => referring (inside id) := by
  induction slots with
  | nil => rfl
  | cons slot rest ih =>
    have hfirst : referring ((inside slot.2).map fun (path, found) => (slot.1 ++ path, found)) =
        (referring (inside slot.2)).map (slot.1 ++ ·) := by
      unfold referring
      rw [List.filter_map, List.map_map, List.map_map]
      rfl
    rw [List.flatMap_cons, referring, List.filter_append, List.map_append]
    exact congrArg₂ (· ++ ·) hfirst ih

theorem untouched_emissions {setting : Setting} (fuel : Nat) (node : ObjectNode) :
    Schema.Untouched (referring (emissions setting fuel node)) := by
  cases fuel with
  | zero => exact fun _ _ => rfl
  | succ fuel =>
    rw [emissions, referring_continued]
    exact untouched_slots _ _ node

section Expand

variable {setting : Setting} {new : String}

/-- the places of references where a child stands -/
def referringAt (setting : Setting) (fuel : Nat) (id : ObjectId) : List Path :=
  referring (standing (bare setting) (emissions (bare setting) fuel) id)

theorem referringAt_of_defined {fuel : Nat} {id : ObjectId} {node : ObjectNode}
    (hfound : setting.graph.get? id = some node) (hdefined : node.kind.isDefined = true) :
    referringAt setting fuel id = [[]] := by
  have hfound' : (bare setting).graph.get? id = some node := hfound
  simp [referringAt, standing, hfound', hdefined, referring]

theorem referringAt_of_inlined {fuel : Nat} {id : ObjectId} {node : ObjectNode}
    (hfound : setting.graph.get? id = some node) (hinlined : node.kind.isDefined = false) :
    referringAt setting fuel id = referring (emissions (bare setting) fuel node) := by
  have hfound' : (bare setting).graph.get? id = some node := hfound
  simp [referringAt, standing, hfound', hinlined, referring]

theorem untouched_referringAt (fuel : Nat) (id : ObjectId) : Schema.Untouched (referringAt setting fuel id) := by
  cases hfound : setting.graph.get? id with
  | none =>
    have hfound' : (bare setting).graph.get? id = none := hfound
    intro keyword hmem
    simp [referringAt, standing, hfound', referring, Json.behind_nil]
  | some node =>
    cases hdefined : node.kind.isDefined with
    | true =>
      rw [referringAt_of_defined hfound hdefined]
      exact fun _ _ => rfl
    | false =>
      rw [referringAt_of_inlined hfound hdefined]
      exact untouched_emissions fuel node

/-- A reference to the root is written anew where it stands, and other references are no references to the root. -/
theorem readdress_reference (hroot : ∀ name, setting.rootIdentity = some name → new = Reference.pointer name)
    (identity : String) :
    (reference setting identity).readdress "#" new [[]] = reference (bare setting) identity := by
  have hrewritten (text : String) : (Schema.ofReference text).readdress "#" new [[]] =
      Schema.ofReference (if text = "#" then new else text) := by
    rw [Schema.ofReference, Schema.readdress_set, Json.readdressUnder, if_pos ⟨rfl, rfl⟩]
    rfl
  have hbare : ¬ (bare setting).rootIdentity = some identity := by simp [bare]
  rw [reference, hrewritten, reference, link, link, if_neg hbare]
  by_cases hidentity : setting.rootIdentity = some identity
  · rw [if_pos hidentity, if_pos rfl, hroot identity hidentity]
  · rw [if_neg hidentity, if_neg (Reference.pointer_ne identity)]

/-- **The address of the root.** What a node means, with the references to the root written as references to its
definition, is what it means in a document in which no reference points to the root. -/
theorem expand_readdress (hvalid : setting.graph.validate = .ok ())
    (hroot : ∀ name, setting.rootIdentity = some name → new = Reference.pointer name) (fuel : Nat) {id : ObjectId}
    {node : ObjectNode} (hfound : setting.graph.get? id = some node) :
    expand (bare setting) fuel node = (expand setting fuel node).map
      (·.map (·.readdress "#" new (referring (emissions (bare setting) fuel node)))) := by
  induction fuel generalizing id node with
  | zero => rfl
  | succ fuel ih =>
    have hchildren : Readdresses "#" new (referringAt setting fuel) (child setting (expand setting fuel))
        (child (bare setting) (expand (bare setting) fuel)) := by
      intro id
      cases hfound : setting.graph.get? id with
      | none =>
        have hfound' : (bare setting).graph.get? id = none := hfound
        rw [child, child, hfound, hfound']
        rfl
      | some node =>
        have hfound' : (bare setting).graph.get? id = some node := hfound
        rw [child, child, hfound, hfound', Option.bind_some, Option.bind_some]
        cases hdefined : node.kind.isDefined with
        | true =>
          rw [if_pos rfl, if_pos rfl, referringAt_of_defined hfound hdefined]
          simp only [Option.map_some, readdress_reference hroot]
        | false =>
          have huntouched : Schema.Untouched (referringAt setting fuel id) := untouched_referringAt fuel id
          rw [referringAt_of_inlined hfound hdefined] at huntouched ⊢
          rw [if_neg Bool.false_ne_true, if_neg Bool.false_ne_true, ih hfound]
          rcases expand setting fuel node with _ | _ | level
          · rfl
          · rfl
          · simp only [Option.map_some, Schema.readdress_annotate huntouched]
    rw [emissions, referring_continued]
    exact layer_readdress hchildren (untouched_referringAt fuel) fun props implements =>
      TypeGraph.nodup_names hvalid hfound

/-- What a node means, readdressed, is what it means where no reference points to the root. -/
theorem readdress_of_translates (hvalid : setting.graph.validate = .ok ())
    (hroot : ∀ name, setting.rootIdentity = some name → new = Reference.pointer name) {fuel : Nat} {id : ObjectId}
    {node : ObjectNode} (hfound : setting.graph.get? id = some node) {base level : Schema}
    (hexpanded : expand (bare setting) fuel node = some (some base))
    (htranslates : Translates setting node (some level)) :
    level.readdress "#" new (referring (emissions (bare setting) fuel node)) = base := by
  rw [expand_readdress hvalid hroot fuel hfound] at hexpanded
  obtain ⟨outcome, hexpands, hsame⟩ := Option.map_eq_some_iff.1 hexpanded
  cases htranslates.unique ⟨fuel, hexpands⟩
  exact Option.some.inj hsame

end Expand

end Places

end Translation

/-! ## One type in two documents -/

/-- A document says of a root that is no raw schema all that its level says. -/
theorem Compilation.body_eq_members {graph : TypeGraph} {request : RootRequest} {options : CompileOptions}
    {compiled : CompiledSchema} {root : ObjectNode} {level : Schema} {table : Definitions}
    (hc : Compilation graph request options compiled root (some level) table) (hnotRaw : root.kind ≠ .override) :
    compiled.body = (level.annotate (rootMetadata root request)).members := by
  rw [hc.body_eq]
  obtain ⟨fuel, hlevel⟩ := hc.translated.level
  have hannotations : ∀ keyword ∈ Schema.annotationKeywords, keyword ∉ envelope := by decide
  have hemissions : ∀ keyword ∈ Translation.emitted, keyword ∉ envelope := by decide
  refine List.filter_eq_self.2 fun entry hmem => ?_
  have houtside : entry.1 ∉ envelope := by
    rcases Schema.mem_keywords_annotate (List.mem_map_of_mem hmem) with hannotates | hwritten
    · exact hannotations entry.1 hannotates
    · exact hemissions entry.1 ((Translation.written_level hlevel hnotRaw).within hwritten)
  simpa [envelope, and_assoc] using houtside

/-- **The root and the definition.** Let a type be the root of one document, without metadata of the request, and
let another document, whose root is no raw schema, define it under its identity. Then the keywords of the root in
the first one, with the references to the document written as references to the definition of the type, are the
definition in the second one, with its references to the document written as references to the definition of the
other root. -/
theorem inlined_root_agrees {graph : TypeGraph} {options : CompileOptions} {first second : RootRequest}
    {inlined defining : CompiledSchema} {node other : ObjectNode} {schema : Json} (hdistinct : graph.definedNames.Nodup)
    (hfound : graph.get? first.root = some node) (hdefined : node.kind.isDefined = true)
    (hplain : first.metadata = none)
    (hfoundOther : graph.get? second.root = some other) (hnotRaw : other.kind ≠ .override)
    (hbuilds : build graph first options = .ok inlined) (hbuildsOther : build graph second options = .ok defining)
    (hholds : Members.get? defining.defs node.identity = some schema) :
    Json.readdress "#" (Reference.pointer node.identity) (graph.references options node) (.obj inlined.body) =
      Json.readdress "#" (Reference.pointer other.identity) (graph.references options node) schema := by
  obtain ⟨root, outcome, table, hc⟩ := compilation_of_build hbuilds
  obtain ⟨otherRoot, otherOutcome, otherTable, hd⟩ := compilation_of_build hbuildsOther
  cases hfound.symm.trans hc.found
  cases hfoundOther.symm.trans hd.found
  -- what the first root means, and what the definition in the second document means
  obtain ⟨level, rfl⟩ : ∃ level, outcome = some level := by
    cases outcome with
    | none => exact absurd hc.translated (not_translates_none_of_defined hdefined)
    | some level => exact ⟨level, rfl⟩
  rw [hd.get?_defs hnotRaw] at hholds
  obtain ⟨id, target, hsettled⟩ := hd.settled_of_get? hholds
  obtain ⟨otherLevel, htranslated, rfl⟩ := hsettled.translated
  cases TypeGraph.eq_of_identity_eq hdistinct hfound hsettled.found hdefined hsettled.defined hsettled.named.symm
  cases hfound.symm.trans hsettled.found
  -- both are, up to addresses, the meaning of the type in a document whose root is not referred to
  have hpointsTo (root : ObjectNode) (name : String)
      (hroot : (rootSetting graph options root).rootIdentity = some name) :
      Reference.pointer root.identity = Reference.pointer name := by
    rw [(rootIdentity_eq_some_iff.1 hroot).2]
  obtain ⟨outcome, hexpands⟩ := expand_of_build hbuilds hfound
  cases hc.translated.unique ⟨_, hexpands⟩
  have hbase := Translation.expand_readdress hc.valid (hpointsTo node) options.maxDepth hfound
  rw [hexpands] at hbase
  have hsame : level.readdress "#" (Reference.pointer node.identity) (graph.references options node) =
      otherLevel.readdress "#" (Reference.pointer other.identity) (graph.references options node) :=
    (Translation.readdress_of_translates hc.valid (hpointsTo other) hfound hbase htranslated).symm
  have huntouched : Schema.Untouched (graph.references options node) := Translation.untouched_emissions _ node
  have hmetadata : rootMetadata node first = node.metadata := by
    rw [rootMetadata, hplain]
    cases node.metadata <;> rfl
  have hraw : node.kind ≠ .override := by
    intro hraw
    rw [hraw] at hdefined
    cases hdefined
  calc Json.readdress "#" (Reference.pointer node.identity) (graph.references options node) (.obj inlined.body)
      = Json.readdress "#" (Reference.pointer node.identity) (graph.references options node)
          (level.annotate node.metadata).toJson := by rw [hc.body_eq_members hraw, hmetadata]; rfl
    _ = ((level.readdress "#" (Reference.pointer node.identity) (graph.references options node)).annotate
          node.metadata).toJson := by rw [← Schema.toJson_readdress, Schema.readdress_annotate huntouched]
    _ = ((otherLevel.readdress "#" (Reference.pointer other.identity) (graph.references options node)).annotate
          node.metadata).toJson := by rw [hsame]
    _ = Json.readdress "#" (Reference.pointer other.identity) (graph.references options node)
          (otherLevel.annotate node.metadata).toJson := by
      rw [← Schema.toJson_readdress, Schema.readdress_annotate huntouched]

/-- a type with an owner, and friends of its own type -/
def pet : ObjectNode :=
  { identity := "Pet", shape := .custom [Property.custom "owner" ⟨0⟩, Property.custom "friends" ⟨2⟩] [] }

/-- an owner of pets -/
def owner : ObjectNode :=
  { identity := "Owner", shape := .custom [Property.custom "pets" ⟨2⟩] [] }

/-- Two types that refer to each other, and one of them to itself. -/
def ownedPets : TypeGraph :=
  ⟨[owner, pet, { identity := "Pet[]", shape := .array "Array" ⟨1⟩ }]⟩

/-- The pet is the root of one document and a definition in that of its owner, where both of its references read
differently. -/
theorem inlined_root_agrees_ownedPets : ∃ inlined defining schema,
    build ownedPets { root := ⟨1⟩ } {} = .ok inlined ∧ build ownedPets { root := ⟨0⟩ } {} = .ok defining ∧
      Members.get? defining.defs "Pet" = some schema ∧
      ownedPets.references {} pet =
        [[.key "properties", .key "owner"], [.key "properties", .key "friends", .key "items"]] ∧
      Json.readdress "#" (Reference.pointer "Pet") (ownedPets.references {} pet) (.obj inlined.body) =
        Json.readdress "#" (Reference.pointer "Owner") (ownedPets.references {} pet) schema := by
  have hfirst : (build ownedPets { root := ⟨1⟩ } {}).isOk = true := by rfl
  have hsecond : ((build ownedPets { root := ⟨0⟩ } {}).toOption.bind fun compiled =>
    Members.get? compiled.defs "Pet").isSome = true := by rfl
  cases hbuilds : build ownedPets { root := ⟨1⟩ } {} with
  | error e => rw [hbuilds] at hfirst; cases hfirst
  | ok inlined =>
    cases hbuildsOther : build ownedPets { root := ⟨0⟩ } {} with
    | error e => rw [hbuildsOther] at hsecond; cases hsecond
    | ok defining =>
      rw [hbuildsOther] at hsecond
      obtain ⟨schema, hholds⟩ := Option.isSome_iff_exists.1 hsecond
      have hnames : ownedPets.definedNames.Nodup := by decide
      have hfound : ownedPets.get? ({ root := ⟨1⟩ } : RootRequest).root = some pet := rfl
      have hfoundOther : ownedPets.get? ({ root := ⟨0⟩ } : RootRequest).root = some owner := rfl
      have hnotRaw : owner.kind ≠ .override := by decide
      have hagrees := inlined_root_agrees hnames hfound rfl rfl hfoundOther hnotRaw hbuilds hbuildsOther hholds
      exact ⟨inlined, defining, schema, rfl, rfl, hholds, by rfl, hagrees⟩

end GraphSchema
