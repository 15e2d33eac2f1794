import GraphSchema.Proofs.Simulation

/-!
Values without some of their members.

- `Json.prune` deletes, at all depths, the members that a guide drops. The guide knows where it is.
- `Json.pruneMembers_insert`, `Json.pruneMembers_table` : writing a member before or after the deletion.
- `Guide.Schematic` : a guide that goes through a schema as compilation writes it, and drops comments.
- `Guide.Schematic.compositional` : for such a guide, what is left of a schema depends on what is left of the schemas
  inside. So builds go in step under it.
- `Guide.Schematic.agrees` : where builds go in step, the same is left of their documents.
-/

namespace GraphSchema

variable {σ : Type}

namespace Json

/-- which members a deletion drops, and where it goes from a place below a key -/
structure Guide (σ : Type) where
  drops : σ → String → Bool
  below : σ → String → σ

mutual

/-- the value without the members that a guide drops, from a place on -/
def prune (guide : Guide σ) (place : σ) : Json → Json
  | .arr items => .arr (pruneItems guide place items)
  | .obj members => .obj (pruneMembers guide place members)
  | value => value

/-- The items of an array stand where the array stands. -/
def pruneItems (guide : Guide σ) (place : σ) : List Json → List Json
  | [] => []
  | item :: rest => prune guide place item :: pruneItems guide place rest

def pruneMembers (guide : Guide σ) (place : σ) : List (String × Json) → List (String × Json)
  | [] => []
  | (key, value) :: rest =>
    if guide.drops place key then pruneMembers guide place rest
    else (key, prune guide (guide.below place key) value) :: pruneMembers guide place rest

end

variable {guide : Guide σ} {place : σ}

@[simp] theorem prune_arr (items : List Json) :
    prune guide place (.arr items) = .arr (items.map (prune guide place)) := by
  suffices h : pruneItems guide place items = items.map (prune guide place) by rw [prune, h]
  induction items with
  | nil => rfl
  | cons item rest ih => rw [pruneItems, ih, List.map_cons]

@[simp] theorem prune_obj (members : Members Json) :
    prune guide place (.obj members) = .obj (pruneMembers guide place members) := by
  rw [prune]

/-- Deleting is a filter on the keys. What is kept goes on below its key. -/
theorem pruneMembers_eq (members : Members Json) : pruneMembers guide place members =
    (members.filter fun entry => !guide.drops place entry.1).map fun (key, value) =>
      (key, prune guide (guide.below place key) value) := by
  induction members with
  | nil => rfl
  | cons entry rest ih =>
    obtain ⟨key, value⟩ := entry
    rw [pruneMembers, List.filter_cons, ih]
    cases guide.drops place key <;> rfl

theorem pruneMembers_append (front back : Members Json) : pruneMembers guide place (front ++ back) =
    pruneMembers guide place front ++ pruneMembers guide place back := by
  simp only [pruneMembers_eq, List.filter_append, List.map_append]

/-- A member that is dropped leaves nothing behind, wherever it was written. -/
theorem pruneMembers_insert (members : Members Json) (key : String) (value : Json) :
    pruneMembers guide place (Members.insert members key value) =
      if guide.drops place key then pruneMembers guide place members
      else Members.insert (pruneMembers guide place members) key (prune guide (guide.below place key) value) := by
  induction members with
  | nil => cases hd : guide.drops place key <;> simp [Members.insert, pruneMembers, hd]
  | cons entry rest ih =>
    obtain ⟨k, v⟩ := entry
    by_cases hk : k = key
    · subst hk
      cases hd : guide.drops place k <;> simp [Members.insert, pruneMembers, hd]
    · rw [Members.insert, if_neg hk, pruneMembers, pruneMembers, ih]
      cases hd : guide.drops place key <;> cases hd' : guide.drops place k <;> simp [Members.insert, hk]

/-- What is left of a table whose entries all stand at one place. -/
theorem pruneMembers_table {inner : σ} (hbelow : ∀ key, guide.below place key = inner) {as bs : Members Json}
    (h : as.mapValues (prune guide inner) = bs.mapValues (prune guide inner)) :
    pruneMembers guide place as = pruneMembers guide place bs := by
  have hfilter : ∀ members : Members Json, pruneMembers guide place members =
      (members.mapValues (prune guide inner)).filter fun entry => !guide.drops place entry.1 := by
    intro members
    rw [pruneMembers_eq, Members.mapValues, List.filter_map]
    simp only [hbelow]
    rfl
  rw [hfilter, hfilter, h]

end Json

/-! ## Schemas without some of their members -/

open Json (Guide prune pruneMembers)

/-- A guide goes through a schema as compilation writes it: from a schema to the schemas inside, and by way of the
tables to those of properties and definitions. It drops the comments of schemas. -/
structure Json.Guide.Schematic (guide : Guide σ) (schema table : σ) : Prop where
  inside : ∀ key ∈ ["items", "additionalProperties", "oneOf", "prefixItems"], guide.below schema key = schema
  tables : ∀ key ∈ ["properties", Reference.definitionsKeyword], guide.below schema key = table
  entries : ∀ key, guide.below table key = schema
  comments : guide.drops schema "$comment" = true

section Schemas

variable {guide : Guide σ} {place table : σ} {s t : Schema}

theorem Schema.seen_prune : s.seen (prune guide place) = .obj (pruneMembers guide place s.members) := by
  rw [Schema.seen, Schema.toJson, Json.prune_obj]

theorem Schema.seen_eq_iff : s.seen (prune guide place) = t.seen (prune guide place) ↔
    pruneMembers guide place s.members = pruneMembers guide place t.members := by
  rw [Schema.seen_prune, Schema.seen_prune, Json.obj.injEq]

/-- A keyword whose values look alike keeps schemas alike. -/
theorem Schema.seen_set (h : s.seen (prune guide place) = t.seen (prune guide place)) {key : String} {v w : Json}
    (hvalue : prune guide (guide.below place key) v = prune guide (guide.below place key) w) :
    (s.set key v).seen (prune guide place) = (t.set key w).seen (prune guide place) := by
  rw [Schema.seen_eq_iff] at h ⊢
  rw [Schema.set, Schema.set, Json.pruneMembers_insert, Json.pruneMembers_insert, h, hvalue]

theorem Schema.seen_set_dropped {key : String} (hdrop : guide.drops place key = true) (value : Json) :
    (s.set key value).seen (prune guide place) = s.seen (prune guide place) := by
  rw [Schema.seen_eq_iff, Schema.set, Json.pruneMembers_insert, if_pos hdrop]

theorem Schema.seen_comment (hdrop : guide.drops place "$comment" = true) (text : String) :
    (s.comment text).seen (prune guide place) = s.seen (prune guide place) := by
  unfold Schema.comment
  cases Metadata.commentOf s.members <;> exact Schema.seen_set_dropped hdrop _

/-! ## Metadata -/

/-- Metadata leave no trace where all their keywords are dropped. -/
theorem Schema.seen_annotate (hdrop : ∀ key ∈ Schema.annotationKeywords, guide.drops place key = true)
    (metadata : Option Metadata) : (s.annotate metadata).seen (prune guide place) = s.seen (prune guide place) := by
  rw [Schema.seen_eq_iff]
  refine Schema.annotate_induction
    (P := fun members => pruneMembers guide place members = pruneMembers guide place s.members) rfl ?_
  intro m _ members key value hsame hkey _
  rw [Json.pruneMembers_insert, if_pos (hdrop key hkey), hsame]

theorem Json.pruneMembers_insertSome {as bs : Members Json} {key : String} {v w : Option Json}
    (h : pruneMembers guide place as = pruneMembers guide place bs) (hvalue : guide.drops place key = true ∨ v = w) :
    pruneMembers guide place (Metadata.insertSome as key v) =
      pruneMembers guide place (Metadata.insertSome bs key w) := by
  rcases hvalue with hdrop | rfl
  · have hnothing : ∀ (members : Members Json) (value : Option Json),
        pruneMembers guide place (Metadata.insertSome members key value) = pruneMembers guide place members := by
      intro members value
      cases value with
      | none => rfl
      | some value => rw [Metadata.insertSome, Json.pruneMembers_insert, if_pos hdrop]
    rw [hnothing, hnothing, h]
  · cases v with
    | none => exact h
    | some value => rw [Metadata.insertSome, Metadata.insertSome, Json.pruneMembers_insert, Json.pruneMembers_insert, h]

/-- One record of metadata keeps schemas alike, if the comments are dropped that its own is joined to. -/
theorem Schema.seen_annotate_same (hdrop : guide.drops place "$comment" = true)
    (h : s.seen (prune guide place) = t.seen (prune guide place)) (metadata : Option Metadata) :
    (s.annotate metadata).seen (prune guide place) = (t.annotate metadata).seen (prune guide place) := by
  cases metadata with
  | none => exact h
  | some m =>
    rw [Schema.annotate_some, Schema.annotate_some]
    split_ifs
    · exact h
    · rw [Schema.seen_eq_iff] at h ⊢
      -- keyword by keyword, the last one first; only under `$comment` the values may differ
      refine Json.pruneMembers_insertSome (Json.pruneMembers_insertSome ?_ (Or.inr rfl)) (Or.inr rfl)
      refine Json.pruneMembers_insertSome ?_ (Or.inl hdrop)
      exact Json.pruneMembers_insertSome (Json.pruneMembers_insertSome h (Or.inr rfl)) (Or.inr rfl)

/-! ## What compilation writes -/

namespace Json.Guide.Schematic

variable {M : Option Metadata → Option Metadata → Prop}

/-- What is left of an array of schemas is what is left of each. -/
theorem prune_items (h : guide.Schematic place table) {key : String}
    (hkey : key ∈ ["items", "additionalProperties", "oneOf", "prefixItems"]) {as bs : List Json}
    (has : as.map (prune guide place) = bs.map (prune guide place)) :
    prune guide (guide.below place key) (.arr as) = prune guide (guide.below place key) (.arr bs) := by
  rw [h.inside key hkey, Json.prune_arr, Json.prune_arr, has]

/-- What is left of a table of schemas is what is left of each, under the names that are left. -/
theorem prune_table (h : guide.Schematic place table) {key : String}
    (hkey : key ∈ ["properties", Reference.definitionsKeyword]) {as bs : Members Json}
    (has : as.mapValues (prune guide place) = bs.mapValues (prune guide place)) :
    prune guide (guide.below place key) (.obj as) = prune guide (guide.below place key) (.obj bs) := by
  rw [h.tables key hkey, Json.prune_obj, Json.prune_obj, Json.pruneMembers_table h.entries has]

theorem object (h : guide.Schematic place table) {ps qs : List (Property × Schema)}
    (hentries : ps.map (Shape.entrySeen (prune guide place)) = qs.map (Shape.entrySeen (prune guide place))) :
    (Shape.objectSchema ps).seen (prune guide place) = (Shape.objectSchema qs).seen (prune guide place) := by
  have htable : ∀ compiled : List (Property × Schema),
      (Members.ofList (compiled.map fun entry => (entry.1.name, entry.2.toJson))).mapValues (prune guide place) =
        Members.ofList
          ((compiled.map (Shape.entrySeen (prune guide place))).map fun entry => (entry.1, entry.2.2)) := by
    intro compiled
    rw [Members.mapValues_ofList, Members.mapValues, List.map_map, List.map_map]
    rfl
  have hrequired : ∀ compiled : List (Property × Schema),
      (compiled.filter (·.1.nullability.isRequired)).map (·.1.name) =
        ((compiled.map (Shape.entrySeen (prune guide place))).filter (·.2.1.isRequired)).map (·.1) := by
    intro compiled
    rw [List.filter_map, List.map_map]
    rfl
  have htables := htable ps
  rw [hentries, ← htable qs] at htables
  have hbase := Schema.seen_set (s := Schema.ofType "object") (t := Schema.ofType "object") rfl
    (h.prune_table List.mem_cons_self htables)
  unfold Shape.objectSchema
  dsimp only
  rw [hrequired ps, hentries, ← hrequired qs]
  split_ifs
  · exact hbase
  · exact Schema.seen_set hbase rfl

/-- **What is left.** For a guide that goes through schemas, what is left of a schema depends on what is left of the
schemas inside, where metadata either are the same or are dropped. -/
theorem compositional (h : guide.Schematic place table)
    (hM : ∀ m n, M m n → m = n ∨ ∀ key ∈ Schema.annotationKeywords, guide.drops place key = true) :
    Shape.Compositional (prune guide place) M where
  nullable {s t} hst := by
    have hitems : [s.toJson, (Schema.ofType "null").toJson].map (prune guide place) =
        [t.toJson, (Schema.ofType "null").toJson].map (prune guide place) := by
      simp only [List.map_cons]
      rw [show prune guide place s.toJson = prune guide place t.toJson from hst]
    exact Schema.seen_set rfl (h.prune_items (by simp) hitems)
  array {s t} hst := Schema.seen_set rfl (by rw [h.inside "items" (by simp)]; exact hst)
  map {s t} hst := Schema.seen_set rfl (by rw [h.inside "additionalProperties" (by simp)]; exact hst)
  comment {s t} text hst := by rw [Schema.seen_comment h.comments, Schema.seen_comment h.comments, hst]
  union {as bs} has := by
    have hempty : as.isEmpty = bs.isEmpty := by
      rw [← List.isEmpty_map (f := prune guide place), has, List.isEmpty_map]
    unfold Translation.unionSchema
    rw [hempty]
    split_ifs
    · rfl
    · exact Schema.seen_set rfl (h.prune_items (by simp) has)
  object := h.object
  tuple {as bs} has := by
    have hlength : as.length = bs.length := by simpa using congrArg List.length has
    unfold Shape.tupleSchema
    rw [hlength]
    exact Schema.seen_set (Schema.seen_set (Schema.seen_set rfl (h.prune_items (by simp) has)) rfl) rfl
  annotate {s t m n} hmn hst := by
    rcases hM m n hmn with rfl | hdrop
    · exact Schema.seen_annotate_same h.comments hst m
    · rw [Schema.seen_annotate hdrop, Schema.seen_annotate hdrop, hst]
  default {s t} default hst := by
    cases default with
    | none => exact hst
    | some literal => exact Schema.seen_set hst rfl

/-- **What is left of documents.** Where two builds agree in what is left of their parts, the same is left of their
documents. -/
theorem agrees (h : guide.Schematic place table) {c d : CompiledSchema} (hcd : c.Agrees (prune guide place) d) :
    prune guide place c.document = prune guide place d.document := by
  have hbody : pruneMembers guide place c.body = pruneMembers guide place d.body := by
    obtain ⟨s, t, hst, hs, ht⟩ := hcd.body
    have hfilter : ∀ schema : Schema, pruneMembers guide place schema.body =
        (pruneMembers guide place schema.members).filter fun (key, _) =>
          key != "$schema" && key != "$id" && key != Reference.definitionsKeyword := by
      intro schema
      rw [Schema.body, Json.pruneMembers_eq, Json.pruneMembers_eq, List.filter_map, List.filter_filter,
        List.filter_filter]
      simp only [Function.comp_def, Bool.and_comm]
    rw [hs, ht, hfilter, hfilter, Schema.seen_eq_iff.1 hst]
  have hempty : c.defs.isEmpty = d.defs.isEmpty := by
    have hdefs := congrArg List.isEmpty hcd.defs
    rwa [Members.mapValues, Members.mapValues, List.isEmpty_map, List.isEmpty_map] at hdefs
  have hsorted : (Members.sortedByKey c.defs).mapValues (prune guide place) =
      (Members.sortedByKey d.defs).mapValues (prune guide place) := by
    rw [Members.mapValues_sortedByKey, Members.mapValues_sortedByKey, hcd.defs]
  have hdefs : pruneMembers guide place (definitionMember c.defs) =
      pruneMembers guide place (definitionMember d.defs) := by
    unfold definitionMember
    rw [hempty]
    split_ifs
    · rfl
    · simp only [pruneMembers, h.prune_table (List.mem_cons_of_mem _ List.mem_cons_self) hsorted]
  obtain ⟨front, hc, hd⟩ := hcd.document
  rw [hc, hd, Json.prune_obj, Json.prune_obj, Json.pruneMembers_append, Json.pruneMembers_append,
    Json.pruneMembers_append, Json.pruneMembers_append, hbody, hdefs]

end Json.Guide.Schematic

end Schemas

end GraphSchema
