import GraphSchema.Compile.Request
import GraphSchema.Proofs.Presenting
import GraphSchema.Proofs.Values

/-!
What is written is read back, for each part of a document.

- `GraphDocument.examples` : all example values of a document, in the order in which they are written.
- `GraphDocument.reads_toJson` : whatever presents the value of a document is read as the document, if its
  examples repeat no keys.
-/

namespace GraphSchema

open Reading (Source Result bind_eq_ok)
open Reading.Source

/-! ## Examples -/

/-- the examples of a record that may be missing -/
def Metadata.examplesOf (metadata : Option Metadata) : List Json :=
  metadata.elim [] Metadata.examples

def Property.examples (p : Property) : List Json :=
  Metadata.examplesOf p.metadata

def ObjectShape.examples : ObjectShape → List Json
  | .custom properties _ => properties.flatMap Property.examples
  | _ => []

def ObjectNode.examples (node : ObjectNode) : List Json :=
  Metadata.examplesOf node.metadata ++ node.shape.examples

def TypeGraph.examples (graph : TypeGraph) : List Json :=
  graph.objects.flatMap ObjectNode.examples

/-- all example values of a document -/
def GraphDocument.examples (document : GraphDocument) : List Json :=
  Metadata.examplesOf document.request.metadata ++ document.objects.examples

/-! ## Names and ids -/

theorem Primitive.reads_toJson (p : Primitive) : Reads Primitive.read p.toJson p :=
  reads_choice (by cases p <;> rfl)

theorem Nullability.reads_toJson (n : Nullability) : Reads Nullability.read n.toJson n :=
  reads_choice (by cases n <;> rfl)

theorem KeyMode.reads_toJson (mode : KeyMode) : Reads KeyMode.read mode.toJson mode :=
  reads_choice (by cases mode <;> rfl)

theorem ObjectId.reads_toJson (id : ObjectId) : Reads ObjectId.read id.toJson id :=
  reads_map (reads_count id.index)

theorem reads_idsJson (ids : List ObjectId) : Reads (list ObjectId.read) (idsJson ids) ids :=
  reads_list fun id _ => id.reads_toJson

/-- A text that is left out when there is none. -/
theorem takes_text {δ : Type} {take : δ → String → Source → Result δ} {name : String} (put : Option (Option String) → δ)
    (value : Option String) (hstep : ∀ source,
      take (put none) name source = once name none (optional text source) >>= fun slot => .ok (put slot)) :
    Takes take (put none) (Metadata.member name (value.map .str)) (put (value.map some)) :=
  takes_member put value (fun s _ => reads_text s) (by simp) hstep

/-! ## Metadata -/

theorem join_map_some {α : Type} (value : Option α) : (value.map some).join = value := by
  cases value <;> rfl

namespace Metadata

/-- the draft that the members of a record leave -/
def draft (m : Metadata) : Draft where
  title := m.title.map some
  description := m.description.map some
  examples := if m.examples.isEmpty then none else some m.examples
  comment := m.comment.map some
  deprecated := if m.deprecated then some true else none

theorem finish_draft (m : Metadata) : m.draft.finish = m := by
  have hexamples : (if m.examples.isEmpty then none else some m.examples).getD [] = m.examples := by
    cases hsame : m.examples <;> rfl
  have hdeprecated : (if m.deprecated then some true else none).getD false = m.deprecated := by
    cases m.deprecated <;> rfl
  simp only [Draft.finish, draft, join_map_some, hexamples, hdeprecated]

theorem reads_toJson (m : Metadata) (hcollapsed : ∀ ex ∈ m.examples, ex.Collapsed) : Reads read m.toJson m := by
  let titled : Draft := { title := m.title.map some }
  let described : Draft := { titled with description := m.description.map some }
  let shown : Draft := { described with examples := m.draft.examples }
  let commented : Draft := { shown with comment := m.comment.map some }
  have htitle : Takes form.take {} (member "title" (m.title.map .str)) titled :=
    takes_text (fun title => ({ title } : Draft)) m.title fun _ => rfl
  have hdescription : Takes form.take titled (member "description" (m.description.map .str)) described :=
    takes_text (fun description => ({ titled with description } : Draft)) m.description fun _ => rfl
  have hlisted : Reads (list any) (.arr m.examples) m.examples := by
    have := @reads_list _ any id m.examples fun ex hmem => by
      have := reads_any ex
      rwa [hcollapsed ex hmem] at this
    rwa [List.map_id] at this
  have hexamples : Takes form.take described
      (member "examples" (if m.examples.isEmpty then none else some (.arr m.examples))) shown := by
    show Takes _ _ _ { described with examples := if m.examples.isEmpty then none else some m.examples }
    cases m.examples.isEmpty with
    | true => exact .nil
    | false => exact takes_once (fun examples => ({ described with examples } : Draft)) hlisted fun _ => rfl
  have hcomment : Takes form.take shown (member "comment" (m.comment.map .str)) commented :=
    takes_text (fun comment => ({ shown with comment } : Draft)) m.comment fun _ => rfl
  have hdeprecated : Takes form.take commented
      (member "deprecated" (if m.deprecated then some (.bool true) else none)) m.draft := by
    show Takes _ _ _ { commented with deprecated := if m.deprecated then some true else none }
    cases m.deprecated with
    | false => exact .nil
    | true =>
      exact takes_once (fun deprecated => ({ commented with deprecated } : Draft)) (reads_flag true) fun _ => rfl
  refine reads_recordOrRow ((((htitle.append hdescription).append hexamples).append hcomment).append hdeprecated) ?_
  exact congrArg Except.ok m.finish_draft

end Metadata

open Metadata (member)

/-- Metadata that is left out when there is none. -/
theorem takes_metadata {δ : Type} {take : δ → String → Source → Result δ} (put : Option (Option Metadata) → δ)
    (metadata : Option Metadata) (hcollapsed : ∀ ex ∈ Metadata.examplesOf metadata, ex.Collapsed)
    (hstep : ∀ source, take (put none) "metadata" source =
      once "metadata" none (optional Metadata.read source) >>= fun slot => .ok (put slot)) :
    Takes take (put none) (member "metadata" (metadata.map Metadata.toJson)) (put (metadata.map some)) :=
  takes_member put metadata (fun m hsame => m.reads_toJson fun ex hmem => hcollapsed ex (by rw [hsame]; exact hmem))
    (by simp [Metadata.toJson]) hstep

theorem name_of_mem_member {name : String} {value : Option Json} {entry : String × Json}
    (hmem : entry ∈ member name value) : entry.1 = name := by
  obtain ⟨found, -, rfl⟩ := Option.map_eq_some_iff.1 (Option.mem_toList.1 hmem)
  rfl

/-! ## Properties -/

namespace PropertyShape

theorem name_mem {shape : PropertyShape} {entry : String × Json} (hmem : entry ∈ shape.members) :
    entry.1 ∈ ["kind", "schema", "member", "default"] := by
  cases shape with
  | override schema =>
    simp only [members, List.mem_cons, List.not_mem_nil, or_false] at hmem
    rcases hmem with rfl | rfl <;> simp
  | custom id default =>
    simp only [members, List.mem_append, List.mem_cons, List.not_mem_nil, or_false] at hmem
    rcases hmem with (rfl | rfl) | hmem
    · simp
    · simp
    · simp [name_of_mem_member hmem]

/-- The members of a shape are read by their kind. -/
theorem readKind_members (shape : PropertyShape) : tagged kinds readKind shape.members = .ok shape := by
  cases shape with
  | override schema =>
    have htaken : Takes overrideForm.take {} [("schema", .str schema)] { schema } :=
      takes_once (fun schema => ({ schema } : Draft)) (reads_text schema) fun _ => rfl
    exact tagged_of_kind (show named kinds "override" = .ok .override from rfl) (by simp)
      (heldRecord_of_takes htaken rfl)
  | custom id default =>
    let known : Draft := { member := some id }
    have htaken : Takes customForm.take {} [("member", id.toJson)] known :=
      takes_once (fun member => ({ member } : Draft)) id.reads_toJson fun _ => rfl
    have hdefaulted : Takes customForm.take known (member "default" (default.map .str))
        { known with default := default.map some } :=
      takes_text (fun default => ({ known with default } : Draft)) default fun _ => rfl
    have hother : ∀ entry ∈ ("member", id.toJson) :: member "default" (default.map .str), entry.1 ≠ "kind" := by
      intro entry hmem
      rcases List.mem_cons.1 hmem with rfl | hmem
      · simp
      · simp [name_of_mem_member hmem]
    refine tagged_of_kind (show named kinds "custom" = .ok .custom from rfl) hother
      (heldRecord_of_takes (htaken.append hdefaulted) ?_)
    show Except.ok (PropertyShape.custom id (default.map some).join) = _
    rw [join_map_some]

end PropertyShape

namespace Property

theorem reads_toJson (p : Property) (hcollapsed : ∀ ex ∈ p.examples, ex.Collapsed) : Reads read p.toJson p := by
  let named : Draft := { name := some p.name }
  let described : Draft := { named with metadata := p.metadata.map some }
  let settled : Draft := { described with nullability := some p.nullability }
  have hname : Takes form.take {} [("name", .str p.name)] named :=
    takes_once (fun name => ({ name } : Draft)) (reads_text p.name) fun _ => rfl
  have hmetadata : Takes form.take named (member "metadata" (p.metadata.map Metadata.toJson)) described :=
    takes_metadata (fun metadata => ({ named with metadata } : Draft)) p.metadata hcollapsed fun _ => rfl
  have hnullability : Takes form.take described [("nullability", p.nullability.toJson)] settled :=
    takes_once (fun nullability => ({ described with nullability } : Draft)) p.nullability.reads_toJson
      fun _ => rfl
  have hshape : Takes form.take settled p.shape.members { settled with aside := p.shape.members } := by
    refine takes_aside (fun aside => ({ settled with aside } : Draft)) (fun front entry hmem source hpresents => ?_) []
    have hown := PropertyShape.name_mem hmem
    have hother (name : String) (h : name ∉ ["kind", "schema", "member", "default"]) : entry.1 ≠ name :=
      fun hsame => h (hsame ▸ hown)
    simp only [form, if_neg (hother "name" (by decide)), if_neg (hother "metadata" (by decide)),
      if_neg (hother "nullability" (by decide)), reads_raw entry.2 source hpresents]
    rfl
  refine reads_record (((hname.append hmetadata).append hnullability).append hshape) ?_
  refine bind_eq_ok.2 ⟨p.name, rfl, bind_eq_ok.2 ⟨p.shape, p.shape.readKind_members, ?_⟩⟩
  show Except.ok (Property.mk p.name (p.metadata.map some).join p.nullability p.shape) = _
  rw [join_map_some]

end Property

/-! ## Nodes -/

namespace ObjectShape

theorem name_mem {shape : ObjectShape} {entry : String × Json} (hmem : entry ∈ shape.content) :
    entry.1 ∉ ["kind", "identity", "metadata"] := by
  cases shape with
  | custom properties implements =>
    rcases List.mem_cons.1 hmem with rfl | hmem
    · simp
    · simp [name_of_mem_member hmem]
  | _ =>
    simp only [content, List.mem_cons, List.not_mem_nil, or_false] at hmem
    rcases hmem with rfl | rfl | rfl <;> simp

theorem named_kind (kind : ObjectKind) : named kinds kind.name = .ok kind := by
  cases kind <;> rfl

/-- The members of a shape behind its kind are read by its kind. -/
theorem readKind_content (shape : ObjectShape) (hcollapsed : ∀ ex ∈ shape.examples, ex.Collapsed) :
    readKind shape.kind shape.content = .ok shape := by
  cases shape with
  | system primitive =>
    have htaken : Takes (form .system).take {} [("primitive", primitive.toJson)] { primitive := some primitive } :=
      takes_once (fun primitive => ({ primitive } : Draft)) primitive.reads_toJson fun _ => rfl
    exact heldRecord_of_takes htaken rfl
  | override schema =>
    have htaken : Takes (form .override).take {} [("schema", .str schema)] { schema := some schema } :=
      takes_once (fun schema => ({ schema } : Draft)) (reads_text schema) fun _ => rfl
    exact heldRecord_of_takes htaken rfl
  | nullable element =>
    have htaken : Takes (form .nullable).take {} [("element", element.toJson)] { element := some element } :=
      takes_once (fun element => ({ element } : Draft)) element.reads_toJson fun _ => rfl
    exact heldRecord_of_takes htaken rfl
  | generic base arguments =>
    let based : Draft := { base := some base }
    have hfirst : Takes (form .generic).take {} [("base", .str base)] based :=
      takes_once (fun base => ({ base } : Draft)) (reads_text base) fun _ => rfl
    have hsecond : Takes (form .generic).take based [("arguments", idsJson arguments)]
        { based with arguments := some arguments } :=
      takes_once (fun arguments => ({ based with arguments } : Draft)) (reads_idsJson arguments) fun _ => rfl
    exact heldRecord_of_takes (hfirst.append hsecond) rfl
  | map base key value =>
    let based : Draft := { base := some base }
    let keyed : Draft := { based with key := some key }
    have hfirst : Takes (form .map).take {} [("base", .str base)] based :=
      takes_once (fun base => ({ base } : Draft)) (reads_text base) fun _ => rfl
    have hsecond : Takes (form .map).take based [("key", key.toJson)] keyed :=
      takes_once (fun key => ({ based with key } : Draft)) key.reads_toJson fun _ => rfl
    have hthird : Takes (form .map).take keyed [("value", value.toJson)] { keyed with value := some value } :=
      takes_once (fun value => ({ keyed with value } : Draft)) value.reads_toJson fun _ => rfl
    exact heldRecord_of_takes (hfirst.append (hsecond.append hthird)) rfl
  | array base element =>
    let based : Draft := { base := some base }
    have hfirst : Takes (form .array).take {} [("base", .str base)] based :=
      takes_once (fun base => ({ base } : Draft)) (reads_text base) fun _ => rfl
    have hsecond : Takes (form .array).take based [("element", element.toJson)]
        { based with element := some element } :=
      takes_once (fun element => ({ based with element } : Draft)) element.reads_toJson fun _ => rfl
    exact heldRecord_of_takes (hfirst.append hsecond) rfl
  | abstract implementations =>
    have htaken : Takes (form .abstract).take {} [("implementations", idsJson implementations)]
        { implementations := some implementations } :=
      takes_once (fun implementations => ({ implementations } : Draft)) (reads_idsJson implementations)
        fun _ => rfl
    exact heldRecord_of_takes htaken rfl
  | tuple elements =>
    have htaken : Takes (form .tuple).take {} [("elements", idsJson elements)] { elements := some elements } :=
      takes_once (fun elements => ({ elements } : Draft)) (reads_idsJson elements) fun _ => rfl
    exact heldRecord_of_takes htaken rfl
  | custom properties implements =>
    let filled : Draft := { properties := some properties }
    have hlisted : Reads (list Property.read) (.arr (properties.map Property.toJson)) properties :=
      reads_list fun p hmem => p.reads_toJson fun ex hshown => hcollapsed ex (List.mem_flatMap.2 ⟨p, hmem, hshown⟩)
    have hfirst : Takes (form .custom).take {} [("properties", .arr (properties.map Property.toJson))] filled :=
      takes_once (fun properties => ({ properties } : Draft)) hlisted fun _ => rfl
    have hsecond : Takes (form .custom).take filled
        (member "implements" (if implements.isEmpty then none else some (idsJson implements)))
        { filled with implements := if implements.isEmpty then none else some implements } := by
      cases implements.isEmpty with
      | true => exact .nil
      | false =>
        exact takes_once (fun implements => ({ filled with implements } : Draft))
          (reads_idsJson implements) fun _ => rfl
    refine heldRecord_of_takes (hfirst.append hsecond) ?_
    have hsame : (if implements.isEmpty then none else some implements).getD [] = implements := by
      cases implements <;> rfl
    exact congrArg (fun implements => Except.ok (ObjectShape.custom properties implements)) hsame

end ObjectShape

namespace ObjectNode

theorem reads_toJson (node : ObjectNode) (hcollapsed : ∀ ex ∈ node.examples, ex.Collapsed) :
    Reads read node.toJson node := by
  let named : Draft := { identity := some node.identity }
  let described : Draft := { named with metadata := node.metadata.map some }
  have hidentity : Takes form.take {} [("identity", .str node.identity)] named :=
    takes_once (fun identity => ({ identity } : Draft)) (reads_text node.identity) fun _ => rfl
  have hmetadata : Takes form.take named (member "metadata" (node.metadata.map Metadata.toJson)) described :=
    takes_metadata (fun metadata => ({ named with metadata } : Draft)) node.metadata
      (fun ex hmem => hcollapsed ex (List.mem_append_left _ hmem)) fun _ => rfl
  have hshape : Takes form.take described node.shape.members { described with aside := node.shape.members } := by
    refine takes_aside (fun aside => ({ described with aside } : Draft))
      (fun front entry hmem source hpresents => ?_) []
    have hown : entry.1 ∉ ["identity", "metadata"] := by
      rcases List.mem_cons.1 hmem with rfl | hmem
      · simp
      · have := ObjectShape.name_mem hmem
        exact fun hother => this (List.mem_cons_of_mem _ hother)
    have hother (name : String) (h : name ∈ ["identity", "metadata"]) : entry.1 ≠ name := fun hsame => hown (hsame ▸ h)
    simp only [form, if_neg (hother "identity" (by decide)), if_neg (hother "metadata" (by decide)),
      reads_raw entry.2 source hpresents]
    rfl
  have htagged : tagged ObjectShape.kinds ObjectShape.readKind node.shape.members = .ok node.shape := by
    refine tagged_of_kind (ObjectShape.named_kind node.shape.kind) (fun entry hmem hsame => ?_)
      (node.shape.readKind_content fun ex hmem => hcollapsed ex (List.mem_append_right _ hmem))
    exact ObjectShape.name_mem hmem (by rw [hsame]; decide)
  refine reads_record ((hidentity.append hmetadata).append hshape) ?_
  refine bind_eq_ok.2 ⟨node.identity, rfl, bind_eq_ok.2 ⟨node.shape, htagged, ?_⟩⟩
  show Except.ok (ObjectNode.mk node.identity (node.metadata.map some).join node.shape) = _
  rw [join_map_some]

end ObjectNode

theorem TypeGraph.reads_toJson (graph : TypeGraph) (hcollapsed : ∀ ex ∈ graph.examples, ex.Collapsed) :
    Reads TypeGraph.read graph.toJson graph := by
  refine reads_map (reads_list fun node hmem => node.reads_toJson fun ex hshown => ?_)
  exact hcollapsed ex (List.mem_flatMap.2 ⟨node, hmem, hshown⟩)

/-! ## Documents -/

theorem CompileOptions.reads_toJson (options : CompileOptions) : Reads CompileOptions.read options.toJson options := by
  let spoken : Draft := { dialect := some options.dialect }
  let keyed : Draft := { spoken with dictionaryKeys := some options.dictionaryKeys }
  have hdialect : Takes form.take {} [("dialect", .str options.dialect)] spoken :=
    takes_once (fun dialect => ({ dialect } : Draft)) (reads_text options.dialect) fun _ => rfl
  have hkeys : Takes form.take spoken [("dictionaryKeys", options.dictionaryKeys.toJson)] keyed :=
    takes_once (fun dictionaryKeys => ({ spoken with dictionaryKeys } : Draft))
      options.dictionaryKeys.reads_toJson fun _ => rfl
  have hdepth : Takes form.take keyed [("maxDepth", .nat options.maxDepth)]
      { keyed with maxDepth := some options.maxDepth } :=
    takes_once (fun maxDepth => ({ keyed with maxDepth } : Draft)) (reads_count options.maxDepth) fun _ => rfl
  exact reads_recordOrRow (hdialect.append (hkeys.append hdepth)) rfl

namespace RootRequest

theorem name_mem {request : RootRequest} {entry : String × Json} (hmem : entry ∈ request.members) :
    entry.1 ∈ ["root", "id", "fileName", "metadata"] := by
  simp only [members, List.mem_append, List.mem_singleton] at hmem
  rcases hmem with ((rfl | hmem) | hmem) | hmem
  · simp
  all_goals simp [name_of_mem_member hmem]

/-- the draft that the members of a request leave -/
def draft (request : RootRequest) : Draft where
  root := some request.root
  id := request.id.map some
  fileName := request.fileName.map some
  metadata := request.metadata.map some

theorem takes_members (request : RootRequest) (hcollapsed : ∀ ex ∈ Metadata.examplesOf request.metadata, ex.Collapsed) :
    Takes form.take {} request.members request.draft := by
  let rooted : Draft := { root := some request.root }
  let identified : Draft := { rooted with id := request.id.map some }
  let filed : Draft := { identified with fileName := request.fileName.map some }
  have hroot : Takes form.take {} [("root", request.root.toJson)] rooted :=
    takes_once (fun root => ({ root } : Draft)) request.root.reads_toJson fun _ => rfl
  have hid : Takes form.take rooted (member "id" (request.id.map .str)) identified :=
    takes_text (fun id => ({ rooted with id } : Draft)) request.id fun _ => rfl
  have hfileName : Takes form.take identified (member "fileName" (request.fileName.map .str)) filed :=
    takes_text (fun fileName => ({ identified with fileName } : Draft)) request.fileName fun _ => rfl
  have hmetadata : Takes form.take filed (member "metadata" (request.metadata.map Metadata.toJson)) request.draft :=
    takes_metadata (fun metadata => ({ filed with metadata } : Draft)) request.metadata hcollapsed fun _ => rfl
  exact ((hroot.append hid).append hfileName).append hmetadata

theorem finish_draft (request : RootRequest) : form.finish request.draft = .ok request := by
  show Except.ok (request.draft.finish request.root) = _
  simp only [Draft.finish, draft, join_map_some]

end RootRequest

/-- **Documents.** Whatever presents the value of a document is read as the document. -/
theorem GraphDocument.reads_toJson (document : GraphDocument) (hcollapsed : ∀ ex ∈ document.examples, ex.Collapsed) :
    Reads GraphDocument.read document.toJson document := by
  let asked : Draft := { aside := document.request.members }
  let chosen : Draft := { asked with options := document.options.map some }
  have hrequest : Takes form.take {} document.request.members asked := by
    refine takes_aside (fun aside => ({ aside } : Draft)) (fun front entry hmem source hpresents => ?_) []
    have hown := RootRequest.name_mem hmem
    have hother (name : String) (h : name ∉ ["root", "id", "fileName", "metadata"]) : entry.1 ≠ name :=
      fun hsame => h (hsame ▸ hown)
    simp only [form, if_neg (hother "options" (by decide)), if_neg (hother "objects" (by decide)),
      reads_raw entry.2 source hpresents]
    rfl
  have hoptions : Takes form.take asked (member "options" (document.options.map CompileOptions.toJson)) chosen :=
    takes_member (fun options => ({ asked with options } : Draft)) document.options (fun o _ => o.reads_toJson)
      (by simp [CompileOptions.toJson]) fun _ => rfl
  have hobjects : Takes form.take chosen [("objects", document.objects.toJson)]
      { chosen with objects := some document.objects } := by
    refine takes_once (fun objects => ({ chosen with objects } : Draft)) ?_ fun _ => rfl
    exact document.objects.reads_toJson fun ex hmem => hcollapsed ex (List.mem_append_right _ hmem)
  refine reads_record ((hrequest.append hoptions).append hobjects) ?_
  have hheld : heldRecord RootRequest.form document.request.members = .ok document.request :=
    heldRecord_of_takes (document.request.takes_members fun ex hmem => hcollapsed ex (List.mem_append_left _ hmem))
      document.request.finish_draft
  refine bind_eq_ok.2 ⟨document.objects, rfl, bind_eq_ok.2 ⟨document.request, hheld, ?_⟩⟩
  show Except.ok (GraphDocument.mk document.request (document.options.map some).join document.objects) = _
  rw [join_map_some]

end GraphSchema
