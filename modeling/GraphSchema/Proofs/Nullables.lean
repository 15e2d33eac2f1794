import GraphSchema.Proofs.Pointers
import GraphSchema.Proofs.Standing

/-!
What schemas say to null.

- `Json.nullVerdict` : whether a schema of a document accepts null, by its type, its arms and what it refers to.
- `TypeGraph.NullAnswer` : what the schema of a node has to say to null. A value that may be null turns the answer of its
  element around, a map that is refused for its keys accepts null, and nothing else does.
- `Translation.answersNull_level` : that is what the level of a node says.
- `Compilation.nullable_at_place`, `Compilation.nullable_runs` : for a value that may be null, this is so wherever it
  stands in a document, and whenever it is compiled.
- `nullable_answers` : so the schema of a value that may be null accepts null if and only if that of its element does not.
- `nullable_rejects` : there are elements that do.
-/

namespace GraphSchema

open Json (Path Segment)

namespace Json

/-! ## Verdicts -/

/-- whether what stands under `type` allows null -/
def allowsNull : Json → Bool
  | .str name => name == "null"
  | .arr names => names.any fun name => name.text? == some "null"
  | _ => false

/-- the schema that a reference in a document leads to: the document itself, or one of its definitions -/
def resolve (document : Json) (reference : String) : Option Json :=
  if reference = "#" then some document
  else (Reference.key? reference).bind fun key => document.at? [.key Reference.definitionsKeyword, .key key]

section

variable (answer : Json → Option Bool)

/-- how many of these schemas accept, if all of them answer -/
def countAccepting : List Json → Option Nat
  | [] => some 0
  | schema :: rest =>
    (answer schema).bind fun accepts => (countAccepting rest).map (accepts.toNat + ·)

/-- whether what stands under `oneOf` accepts: exactly one arm does -/
def armsAnswer : Option Json → Option Bool
  | some (.arr arms) => (countAccepting answer arms).map (· == 1)
  | _ => some true

/-- whether what stands under `$ref` accepts: the schema behind the reference does -/
def referenceAnswer (document : Json) : Option Json → Option Bool
  | some (.str reference) => (document.resolve reference).bind answer
  | _ => some true

end

/-- Whether a schema of a document accepts null, if the fuel is enough for its arms and references. Types, arms and
references have a say in that, as far as they are there; of the keywords that compilation writes, no other one has. -/
def nullVerdict (document : Json) : Nat → Json → Option Bool
  | fuel + 1, .obj members =>
    if (Members.get? members "type").all allowsNull then
      (armsAnswer (nullVerdict document fuel) (Members.get? members "oneOf")).bind fun arms =>
        (referenceAnswer (nullVerdict document fuel) document (Members.get? members "$ref")).map (arms && ·)
    else some false
  | _ + 1, .bool answer => some answer
  | _, _ => none

/-- A schema of a document says this to null. -/
def AnswersNull (document value : Json) (accepts : Bool) : Prop :=
  ∃ fuel, nullVerdict document fuel value = some accepts

section

variable {small large : Json → Option Bool}
  (hmore : ∀ schema accepts, small schema = some accepts → large schema = some accepts)
include hmore

theorem countAccepting_mono {arms : List Json} {n : Nat} (h : countAccepting small arms = some n) :
    countAccepting large arms = some n := by
  induction arms generalizing n with
  | nil => exact h
  | cons arm rest ih =>
    obtain ⟨accepts, hanswers, h⟩ := Option.bind_eq_some_iff.1 h
    obtain ⟨others, hcounts, rfl⟩ := Option.map_eq_some_iff.1 h
    exact Option.bind_eq_some_iff.2
      ⟨accepts, hmore arm accepts hanswers, Option.map_eq_some_iff.2 ⟨others, ih hcounts, rfl⟩⟩

theorem armsAnswer_mono {value : Option Json} {accepts : Bool} (h : armsAnswer small value = some accepts) :
    armsAnswer large value = some accepts := by
  unfold armsAnswer at h ⊢
  split at h
  · obtain ⟨n, hcounts, rfl⟩ := Option.map_eq_some_iff.1 h
    exact Option.map_eq_some_iff.2 ⟨n, countAccepting_mono hmore hcounts, rfl⟩
  · exact h

theorem referenceAnswer_mono {document : Json} {value : Option Json} {accepts : Bool}
    (h : referenceAnswer small document value = some accepts) : referenceAnswer large document value = some accepts := by
  unfold referenceAnswer at h ⊢
  split at h
  · obtain ⟨target, hresolves, hanswers⟩ := Option.bind_eq_some_iff.1 h
    exact Option.bind_eq_some_iff.2 ⟨target, hresolves, hmore target accepts hanswers⟩
  · exact h

end

variable {document : Json}

/-- More fuel changes no verdict. -/
theorem nullVerdict_mono {fuel more : Nat} (hle : fuel ≤ more) {value : Json} {accepts : Bool}
    (h : nullVerdict document fuel value = some accepts) : nullVerdict document more value = some accepts := by
  induction fuel generalizing value accepts more with
  | zero => cases h
  | succ fuel ih =>
    obtain ⟨more, rfl⟩ : ∃ n, more = n + 1 := ⟨more - 1, by omega⟩
    have hstep : ∀ schema accepts, nullVerdict document fuel schema = some accepts →
        nullVerdict document more schema = some accepts := fun schema accepts => ih (Nat.le_of_succ_le_succ hle)
    cases value with
    | obj members =>
      unfold nullVerdict at h ⊢
      split_ifs at h ⊢
      · obtain ⟨arms, harmsAnswers, h⟩ := Option.bind_eq_some_iff.1 h
        obtain ⟨target, htargetAnswers, rfl⟩ := Option.map_eq_some_iff.1 h
        exact Option.bind_eq_some_iff.2 ⟨arms, armsAnswer_mono hstep harmsAnswers,
          Option.map_eq_some_iff.2 ⟨target, referenceAnswer_mono hstep htargetAnswers, rfl⟩⟩
      · exact h
    | bool answer => exact h
    | _ => cases h

/-- **One answer.** A schema does not say both. -/
theorem AnswersNull.unique {value : Json} {a b : Bool} (ha : document.AnswersNull value a)
    (hb : document.AnswersNull value b) : a = b := by
  obtain ⟨m, ha⟩ := ha
  obtain ⟨n, hb⟩ := hb
  have hfirst := nullVerdict_mono (Nat.le_max_left m n) ha
  have hsecond := nullVerdict_mono (Nat.le_max_right m n) hb
  exact Option.some.inj (hfirst.symm.trans hsecond)

end Json

/-! ## Schemas -/

namespace Schema

variable {document : Json} {schema : Schema}

/-- Such schemas say the same to null. -/
theorem Agrees.answersNull {outer : Schema} (h : outer.Agrees schema) {accepts : Bool}
    (hanswers : document.AnswersNull schema.toJson accepts) : document.AnswersNull outer.toJson accepts := by
  obtain ⟨fuel, hverdict⟩ := hanswers
  refine ⟨fuel, ?_⟩
  cases fuel with
  | zero => cases hverdict
  | succ fuel =>
    rw [toJson, Json.nullVerdict] at hverdict ⊢
    rwa [h "type" (by decide), h "oneOf" (by decide), h "$ref" (by decide)]

/-- A type other than null rejects it. -/
theorem answersNull_of_type {name : String} (htyped : Members.get? schema.members "type" = some (.str name))
    (hother : name ≠ "null") : document.AnswersNull schema.toJson false := by
  refine ⟨1, ?_⟩
  rw [toJson, Json.nullVerdict, htyped, if_neg (by simpa [Json.allowsNull] using hother)]

/-- A marker accepts whatever there is. -/
theorem answersNull_unsupported (message : String) : document.AnswersNull (unsupported message).toJson true :=
  ⟨1, rfl⟩

/-- A schema that only refers to another one says what that one says. -/
theorem answersNull_ofReference {reference : String} {target : Json}
    (hresolves : document.resolve reference = some target)
    {accepts : Bool} (hanswers : document.AnswersNull target accepts) :
    document.AnswersNull (ofReference reference).toJson accepts := by
  obtain ⟨fuel, hverdict⟩ := hanswers
  refine ⟨fuel + 1, ?_⟩
  show ((document.resolve reference).bind (document.nullVerdict fuel)).map (true && ·) = _
  rw [hresolves, Option.bind_some, hverdict]
  rfl

/-- The schema of a value that may be null says the opposite of what its element says. -/
theorem answersNull_nullable {accepts : Bool} (hanswers : document.AnswersNull schema.toJson accepts) :
    document.AnswersNull (Shape.nullableSchema schema).toJson (!accepts) := by
  obtain ⟨fuel, hverdict⟩ := hanswers
  have hnullArm : document.nullVerdict (fuel + 1) (ofType "null").toJson = some true := rfl
  refine ⟨fuel + 2, ?_⟩
  show (Json.armsAnswer (document.nullVerdict (fuel + 1))
    (some (.arr [schema.toJson, (ofType "null").toJson]))).bind _ = _
  rw [Json.armsAnswer, Json.countAccepting, Json.nullVerdict_mono (Nat.le_succ fuel) hverdict, Json.countAccepting,
    hnullArm]
  cases accepts <;> rfl

/-- What such a schema says comes from its element. -/
theorem answersNull_nullable_iff {accepts : Bool} : document.AnswersNull (Shape.nullableSchema schema).toJson (!accepts) ↔
    document.AnswersNull schema.toJson accepts := by
  refine ⟨fun hanswers => ?_, answersNull_nullable⟩
  obtain ⟨own, hinner⟩ : ∃ own, document.AnswersNull schema.toJson own := by
    obtain ⟨fuel, hverdict⟩ := hanswers
    cases fuel with
    | zero => cases hverdict
    | succ fuel =>
      obtain ⟨arms, hfromArms, -⟩ := Option.bind_eq_some_iff.1 hverdict
      obtain ⟨n, hcounts, -⟩ := Option.map_eq_some_iff.1 hfromArms
      obtain ⟨own, hverdict, -⟩ := Option.bind_eq_some_iff.1 hcounts
      exact ⟨own, fuel, hverdict⟩
  have hopposite := hanswers.unique (answersNull_nullable hinner)
  rwa [← Bool.not_inj hopposite] at hinner

end Schema

/-! ## Levels -/

/-- What the schema of a node has to say to null. For a value that may be null, that is the opposite of what the schema of
its element says. A map that is refused for its keys is a marker, which accepts null, and no other schema does. -/
inductive TypeGraph.NullAnswer (graph : TypeGraph) (mode : KeyMode) : ObjectNode → Bool → Prop
  | nullable {node inner : ObjectNode} {element : ObjectId} {accepts : Bool} (hshape : node.shape = .nullable element)
      (hfound : graph.get? element = some inner) (hanswer : NullAnswer graph mode inner accepts) :
      NullAnswer graph mode node (!accepts)
  | refused {node : ObjectNode} {base : String} {key value : ObjectId} (hshape : node.shape = .map base key value)
      (hdenied : graph.acceptsKey mode key = false) : NullAnswer graph mode node true
  | other {node : ObjectNode} (hnotNullable : node.kind ≠ .nullable)
      (haccepted : ∀ {base key value}, node.shape = .map base key value → graph.acceptsKey mode key = true) :
      NullAnswer graph mode node false

theorem TypeGraph.NullAnswer.of_kind {graph : TypeGraph} {mode : KeyMode} {node : ObjectNode} (kind : ObjectKind)
    (hkind : node.kind = kind) (hnotNullable : kind ≠ .nullable) (hnotMap : kind ≠ .map) :
    graph.NullAnswer mode node false := by
  refine .other (hkind ▸ hnotNullable) fun hshape => ?_
  rw [ObjectNode.kind, hshape] at hkind
  exact absurd hkind.symm hnotMap

theorem TypeGraph.nullAnswer_of_defined {graph : TypeGraph} {mode : KeyMode} {node : ObjectNode}
    (hdefined : node.kind.isDefined = true) : graph.NullAnswer mode node false := by
  refine .of_kind node.kind rfl (fun hkind => ?_) fun hkind => ?_ <;>
  · rw [hkind] at hdefined
    cases hdefined

namespace Translation

variable {setting : Setting} {node : ObjectNode} {level : Schema}

theorem typed_unionSchema (schemas : List Json) :
    Members.get? (unionSchema schemas).members "type" = some (.str "object") := by
  unfold unionSchema
  split_ifs <;> rfl

theorem typed_objectSchema (compiled : List (Property × Schema)) :
    Members.get? (Shape.objectSchema compiled).members "type" = some (.str "object") := by
  unfold Shape.objectSchema
  dsimp only
  split_ifs <;> rfl

theorem typed_primitive (p : Primitive) :
    ∃ name, Members.get? p.schema.members "type" = some (.str name) ∧ name ≠ "null" := by
  cases p <;> exact ⟨_, rfl, by decide⟩

/-- The levels of values that may be null and the markers of refused maps, and all others: these have a type, which is
never that of null. -/
theorem Level.cases_null {meaning : ObjectId → Option (Option Schema)} (h : Level meaning setting node level)
    (hnotRaw : node.kind ≠ .override) :
    (∃ element inner, node.shape = .nullable element ∧ meaning element = some (some inner) ∧
      level = Shape.nullableSchema inner) ∨
    (∃ base key value message, node.shape = .map base key value ∧
      setting.graph.acceptsKey setting.options.dictionaryKeys key = false ∧ level = Schema.unsupported message) ∨
    (setting.graph.NullAnswer setting.options.dictionaryKeys node false ∧
      ∃ name, Members.get? level.members "type" = some (.str name) ∧ name ≠ "null") := by
  cases h with
  | raw hshape => exact absurd (congrArg ObjectShape.kind hshape) hnotRaw
  | nullable hshape hmeans => exact Or.inl ⟨_, _, hshape, hmeans, rfl⟩
  | refused hshape hdenied _ => exact Or.inr (Or.inl ⟨_, _, _, _, hshape, hdenied, rfl⟩)
  | map hshape haccepted _ | commented hshape haccepted _ _ =>
    refine Or.inr (Or.inr ⟨.other (fun hkind => ?_) fun hshape' => ?_, "object", rfl, by decide⟩)
    · rw [ObjectNode.kind, hshape] at hkind
      cases hkind
    · cases hshape.symm.trans hshape'
      exact haccepted
  | @primitive p hshape =>
    exact Or.inr (Or.inr ⟨.of_kind .system (congrArg _ hshape) (by decide) (by decide), typed_primitive p⟩)
  | array hshape _ =>
    exact Or.inr (Or.inr ⟨.of_kind .array (congrArg _ hshape) (by decide) (by decide), "array", rfl, by decide⟩)
  | tuple hshape _ =>
    exact Or.inr (Or.inr ⟨.of_kind .tuple (congrArg _ hshape) (by decide) (by decide), "array", rfl, by decide⟩)
  | generic hshape _ =>
    exact Or.inr (Or.inr ⟨.of_kind .generic (congrArg _ hshape) (by decide) (by decide), "object", rfl, by decide⟩)
  | union hshape _ =>
    exact Or.inr (Or.inr ⟨.of_kind .abstract (congrArg _ hshape) (by decide) (by decide),
      "object", typed_unionSchema _, by decide⟩)
  | object hshape _ =>
    exact Or.inr (Or.inr ⟨.of_kind .custom (congrArg _ hshape) (by decide) (by decide),
      "object", typed_objectSchema _, by decide⟩)

/-- A type that has a definition rejects null. -/
theorem answersNull_of_defined {document : Json} (hdefined : node.kind.isDefined = true)
    (h : Translates setting node (some level)) : document.AnswersNull level.toJson false := by
  obtain ⟨fuel, hlevel⟩ := h.level
  have hnotRaw : node.kind ≠ .override := by
    intro hraw
    rw [hraw] at hdefined
    cases hdefined
  rcases hlevel.cases_null hnotRaw with ⟨_, _, hshape, -⟩ | ⟨_, _, _, _, hshape, -⟩ | ⟨-, name, htyped, hnotNull⟩
  · rw [ObjectNode.kind, hshape] at hdefined
    cases hdefined
  · rw [ObjectNode.kind, hshape] at hdefined
    cases hdefined
  · exact Schema.answersNull_of_type htyped hnotNull

/-- **Levels.** In a graph without raw schemas, and a document in which the references of a level lead to schemas that
reject null, the level says to null what the node has to say. -/
theorem answersNull_level {document : Json} (hplain : ∀ node ∈ setting.graph.objects, node.kind ≠ .override)
    {fuel : Nat} {id : ObjectId} (hfound : setting.graph.get? id = some node)
    (hexpands : expand setting fuel node = some (some level))
    (hresolves : ∀ target, Mentions setting id target →
      ∃ schema, document.resolve (link setting target.identity) = some schema ∧ document.AnswersNull schema false) :
    ∃ accepts, setting.graph.NullAnswer setting.options.dictionaryKeys node accepts ∧
      document.AnswersNull level.toJson accepts := by
  induction fuel generalizing id node level with
  | zero => cases hexpands
  | succ fuel ih =>
    rcases (level_of_layer hexpands).cases_null (hplain node (TypeGraph.mem_objects hfound)) with
      ⟨element, inner, hshape, hmeans, rfl⟩ | ⟨_, _, _, message, hshape, hdenied, rfl⟩ |
        ⟨hanswer, name, htyped, hnotNull⟩
    · have hedge : setting.graph.Follows setting.options.dictionaryKeys id element :=
        ⟨node, hfound, by simp [TypeGraph.followed, hshape]⟩
      obtain ⟨target, htarget, ⟨hdefined, hsame⟩ | ⟨hinlined, outcome, hexpandsTarget, hwrapped⟩⟩ :=
        child_eq_some_iff.1 hmeans
      · cases hsame
        obtain ⟨schema, hresolved, hrejects⟩ := hresolves target (.direct hedge htarget hdefined)
        exact ⟨true, .nullable hshape htarget (TypeGraph.nullAnswer_of_defined hdefined),
          Schema.answersNull_nullable (Schema.answersNull_ofReference hresolved hrejects)⟩
      · obtain ⟨below, rfl, rfl⟩ := Option.map_eq_some_iff.1 hwrapped.symm
        have hstays : ¬ Translates setting target none := fun hdrops => by cases hdrops.unique ⟨fuel, hexpandsTarget⟩
        obtain ⟨accepts, hanswer, hverdict⟩ := ih htarget hexpandsTarget fun other hmentioned =>
          hresolves other (.through hedge htarget hinlined hstays hmentioned)
        exact ⟨!accepts, .nullable hshape htarget hanswer,
          Schema.answersNull_nullable ((Schema.agrees_annotate below target.metadata).answersNull hverdict)⟩
    · exact ⟨true, .refused hshape hdenied, Schema.answersNull_unsupported message⟩
    · exact ⟨false, hanswer, Schema.answersNull_of_type htyped hnotNull⟩

end Translation

/-- Two schemas of a document say the opposite to null, and the second one says what the schema of an element has to. -/
def CompiledSchema.Opposes (compiled : CompiledSchema) (graph : TypeGraph) (mode : KeyMode) (element : ObjectId)
    (schema arm : Json) : Prop :=
  ∃ inner accepts, graph.get? element = some inner ∧ graph.NullAnswer mode inner accepts ∧
    compiled.document.AnswersNull arm accepts ∧ ∀ answer, compiled.document.AnswersNull schema answer ↔ answer = !accepts

/-- The level of a value that may be null says the opposite of its first arm, which is the schema of the element. -/
theorem Translation.opposes_level {compiled : CompiledSchema} {setting : Setting} {node : ObjectNode} {level : Schema}
    (hplain : ∀ node ∈ setting.graph.objects, node.kind ≠ .override)
    {fuel : Nat} {id element : ObjectId} (hfound : setting.graph.get? id = some node)
    (hshape : node.shape = .nullable element) (hexpands : expand setting fuel node = some (some level))
    (hresolves : ∀ target, Mentions setting id target → ∃ schema,
      compiled.document.resolve (link setting target.identity) = some schema ∧
        compiled.document.AnswersNull schema false) :
    ∃ arm, level = Shape.nullableSchema arm ∧
      compiled.Opposes setting.graph setting.options.dictionaryKeys element level.toJson arm.toJson := by
  obtain ⟨_, hanswer, hverdict⟩ := answersNull_level hplain hfound hexpands hresolves
  cases hanswer with
  | refused hshape' _ => cases hshape.symm.trans hshape'
  | other hnotNullable _ => exact absurd (by rw [ObjectNode.kind, hshape]; rfl) hnotNullable
  | @nullable _ inner _ accepts hshape' hinner hanswer =>
    cases hshape.symm.trans hshape'
    cases fuel with
    | zero => cases hexpands
    | succ fuel =>
      rw [expand, layer, hshape] at hexpands
      obtain ⟨arm, -, rfl⟩ := map_child_eq_some hexpands
      exact ⟨arm, rfl, inner, accepts, hinner, hanswer, Schema.answersNull_nullable_iff.1 hverdict, fun other =>
        ⟨fun hverdict' => hverdict'.unique hverdict, fun hsame => hsame ▸ hverdict⟩⟩

/-! ## Documents -/

open Translation (link)

namespace Compilation

variable {graph : TypeGraph} {request : RootRequest} {options : CompileOptions} {compiled : CompiledSchema}
  {root : ObjectNode} {outcome : Option Schema} {table : Definitions}

/-- References in a document lead to schemas that reject null. -/
theorem resolves (hc : Compilation graph request options compiled root outcome table) (hnotRaw : root.kind ≠ .override)
    {identity : String} (hleads : compiled.LeadsTo (rootSetting graph options root) identity) :
    ∃ schema, compiled.document.resolve (link (rootSetting graph options root) identity) = some schema ∧
      compiled.document.AnswersNull schema false := by
  by_cases hroot : (rootSetting graph options root).rootIdentity = some identity
  · obtain ⟨hdefined, -⟩ := rootIdentity_eq_some_iff.1 hroot
    obtain ⟨level, rfl⟩ := hc.translated.exists_level hdefined
    refine ⟨compiled.document, by rw [link, if_pos hroot, Json.resolve, if_pos rfl], ?_⟩
    have hrejects : compiled.document.AnswersNull level.toJson false :=
      Translation.answersNull_of_defined hdefined hc.translated
    rw [hc.document_eq]
    exact hc.document_eq ▸ hc.agrees_document.answersNull hrejects
  · obtain ⟨⟨_, schema⟩, hentry, rfl⟩ := List.mem_map.1 (hleads.resolve_left hroot)
    obtain ⟨id, node, hsettled⟩ := hc.settled_of_mem hnotRaw hentry
    obtain ⟨level, htranslates, rfl⟩ := hsettled.translated
    refine ⟨(level.annotate node.metadata).toJson, ?_, ?_⟩
    · rw [link, if_neg hroot, Json.resolve, if_neg (Reference.pointer_ne _), Reference.key?_pointer, Option.bind_some,
        CompiledSchema.at?_definition hc.document_eq (hc.ascending_defs.get?_of_mem hentry)]
      rfl
    · exact (Schema.agrees_annotate level node.metadata).answersNull
        (Translation.answersNull_of_defined hsettled.defined htranslates)

/-- At the place of a value that may be null stands a schema that says the opposite of its first arm. -/
theorem nullable_at_place (hc : Compilation graph request options compiled root outcome table)
    (hplain : ∀ node ∈ graph.objects, node.kind ≠ .override) {path : Path} {node : ObjectNode} {element : ObjectId}
    (hshown : compiled.Shows (rootSetting graph options root) root path node)
    (hshape : node.shape = .nullable element) :
    ∃ schema arm, compiled.document.at? path = some schema ∧
      compiled.document.at? (path ++ [.key "oneOf", .index 0]) = some arm ∧
      compiled.Opposes graph options.dictionaryKeys element schema arm := by
  obtain ⟨id, fuel, level, schema, hfound, hexpands, hhere, hagrees, hleads⟩ :=
    hc.stands_in_document hshown (by rw [ObjectNode.kind, hshape]; rfl)
  obtain ⟨arm, rfl, inner, accepts, hinner, hanswer, hverdict, hopposite⟩ :=
    Translation.opposes_level hplain hfound hshape hexpands fun other hmentioned =>
      hc.resolves (hplain root (TypeGraph.mem_objects hc.found)) (hleads other hmentioned)
  have hown : compiled.document.AnswersNull schema.toJson (!accepts) := hagrees.answersNull ((hopposite _).2 rfl)
  refine ⟨schema.toJson, arm.toJson, hhere, ?_, inner, accepts, hinner, hanswer, hverdict, fun other =>
    ⟨fun hverdict' => hverdict'.unique hown, fun hsame => hsame ▸ hown⟩⟩
  rw [Json.at?_append, hhere, Option.bind_some, Schema.toJson, Json.at?_key, hagrees "oneOf" (by decide)]
  rfl

/-- A value that may be null comes out so whenever it is compiled on the way to a document, also where it is then left out
of it. -/
theorem nullable_runs (hc : Compilation graph request options compiled root outcome table)
    (hplain : ∀ node ∈ graph.objects, node.kind ≠ .override) {id element : ObjectId} {node : ObjectNode}
    (hfound : graph.get? id = some node) (hshape : node.shape = .nullable element) {room : Nat} {walk after : Walk}
    {level : Schema}
    (hruns : Walk.run (Shape.shape (rootSetting graph options root) room node) walk = (.ok (some level), after))
    (hkept : ∀ identity, after.definitions.contains identity = true → identity ∈ Members.keys compiled.defs) :
    ∃ arm, level = Shape.nullableSchema arm ∧
      compiled.Opposes graph options.dictionaryKeys element level.toJson arm.toJson := by
  obtain ⟨-, hexpands, hknown⟩ := shape_runs (rootSetting graph options root) id room hfound .refl hruns
  refine Translation.opposes_level hplain hfound hshape hexpands fun target hmentioned => ?_
  have hleads : compiled.LeadsTo (rootSetting graph options root) target.identity :=
    (hknown rfl target hmentioned).imp_right (hkept target.identity)
  exact hc.resolves (hplain root (TypeGraph.mem_objects hc.found)) hleads

end Compilation

/-- **Null.** Let a build of a graph without raw schemas succeed. At the place of every value that may be null stands a
schema that accepts null if and only if its first arm, the schema of the element, does not. That schema accepts null if the
element is a map that is refused for its keys, or again a value that may be null, of an element whose schema rejects null,
and else it rejects null. Each definition of the document is that of a type, so its places are among those that are looked
at. The same holds of what is compiled at any time and left out of the document later, if the definitions that are there by
then are in it, as they are in a build. -/
theorem nullable_answers {graph : TypeGraph} {request : RootRequest} {options : CompileOptions}
    {compiled : CompiledSchema} (h : build graph request options = .ok compiled)
    (hplain : ∀ node ∈ graph.objects, node.kind ≠ .override) :
    ∃ root, graph.get? request.root = some root ∧
      (∀ key ∈ Members.keys compiled.defs, ∃ node, node.kind.isDefined = true ∧ node.identity = key ∧
        compiled.Shows (rootSetting graph options root) root [.key Reference.definitionsKeyword, .key key] node) ∧
      (∀ path node element, compiled.Shows (rootSetting graph options root) root path node →
        node.shape = .nullable element → ∃ schema arm, compiled.document.at? path = some schema ∧
          compiled.document.at? (path ++ [.key "oneOf", .index 0]) = some arm ∧
          compiled.Opposes graph options.dictionaryKeys element schema arm) ∧
      ∀ id node element, graph.get? id = some node → node.shape = .nullable element → ∀ room walk level after,
        Walk.run (Shape.shape (rootSetting graph options root) room node) walk = (.ok (some level), after) →
        (∀ identity, after.definitions.contains identity = true → identity ∈ Members.keys compiled.defs) →
        ∃ arm, level = Shape.nullableSchema arm ∧
          compiled.Opposes graph options.dictionaryKeys element level.toJson arm.toJson := by
  obtain ⟨root, outcome, table, hc⟩ := compilation_of_build h
  refine ⟨root, hc.found, fun key => hc.shows_definition (hplain root (TypeGraph.mem_objects hc.found)), ?_, ?_⟩
  · exact fun path node element hshown hshape => hc.nullable_at_place hplain hshown hshape
  · exact fun id node element hfound hshape room walk level after hruns hkept =>
      hc.nullable_runs hplain hfound hshape hruns hkept

/-! ## Values that may be null -/

/-- a type with a text that may be missing, one that may be missing twice over, and an index by number that may be missing -/
def optionals : ObjectNode where
  identity := "Optionals"
  shape := .custom [Property.custom "text" ⟨1⟩, Property.custom "twice" ⟨2⟩, Property.custom "index" ⟨5⟩] []

def optionalTypes : TypeGraph := ⟨[
  { identity := "string", shape := .system .string },
  { identity := "string?", shape := .nullable ⟨0⟩ },
  { identity := "string??", shape := .nullable ⟨1⟩ },
  { identity := "int", shape := .system .int32 },
  { identity := "Index", shape := .map "Dictionary" ⟨3⟩ ⟨0⟩ },
  { identity := "Index?", shape := .nullable ⟨4⟩ },
  optionals]⟩

/-- how a walk from that type goes under strict keys -/
def strictOptionals : Setting := rootSetting optionalTypes { dictionaryKeys := .strict } optionals

/-- What stands inside the level of the type stands in every document of it. -/
theorem shows_optionals (compiled : CompiledSchema) {i : Nat} {path : Path} {node : ObjectNode}
    (hplace : (Translation.places strictOptionals 5 optionals)[i]? = some (path, node)) :
    compiled.Shows strictOptionals optionals path node := by
  obtain ⟨level, hexpands⟩ : ∃ level, Translation.expand strictOptionals 5 optionals = some (some level) := ⟨_, rfl⟩
  exact .body hexpands (List.mem_of_getElem? hplace)

theorem optionalTypes_builds : ∃ compiled,
    build optionalTypes { root := ⟨6⟩ } { dictionaryKeys := .strict } = .ok compiled :=
  exists_ok_of_isOk (by decide +kernel)

/-- The schema of the text accepts null. -/
theorem nullable_answers_optionals : ∃ compiled schema,
    build optionalTypes { root := ⟨6⟩ } { dictionaryKeys := .strict } = .ok compiled ∧
      compiled.document.at? [.key "properties", .key "text"] = some schema ∧
      compiled.document.AnswersNull schema true := by
  obtain ⟨compiled, hbuilt⟩ := optionalTypes_builds
  obtain ⟨root, hfound, -, hanswers, -⟩ := nullable_answers hbuilt (by decide)
  obtain rfl : optionals = root := Option.some.inj hfound
  have hshown := shows_optionals compiled (i := 1) rfl
  obtain ⟨schema, _, hhere, -, inner, accepts, helement, hanswer, -, hiff⟩ := hanswers _ _ ⟨0⟩ hshown rfl
  cases helement
  refine ⟨compiled, schema, hbuilt, hhere, (hiff true).2 ?_⟩
  cases hanswer with
  | other _ _ => rfl
  | nullable hshape _ _ | refused hshape _ => cases hshape

/-- **Null may be rejected.** The schema of a text that may be missing twice over rejects null, since both arms accept it,
and under strict keys so does that of an index by number, since a marker accepts it. -/
theorem nullable_rejects : ∃ compiled, build optionalTypes { root := ⟨6⟩ } { dictionaryKeys := .strict } = .ok compiled ∧
    optionalTypes.get? ⟨6⟩ = some optionals ∧ ∀ name ∈ ["twice", "index"], ∃ node schema,
      compiled.Shows strictOptionals optionals [.key "properties", .key name] node ∧ node.kind = .nullable ∧
        compiled.document.at? [.key "properties", .key name] = some schema ∧
        ¬ compiled.document.AnswersNull schema true := by
  obtain ⟨compiled, hbuilt⟩ := optionalTypes_builds
  have hverdicts : ∀ name ∈ ["twice", "index"],
      ((build optionalTypes { root := ⟨6⟩ } { dictionaryKeys := .strict }).toOption.bind fun compiled =>
        (compiled.document.at? [.key "properties", .key name]).bind (compiled.document.nullVerdict 6)) = some false := by
    decide +kernel
  have hrejects {name : String} (hmem : name ∈ ["twice", "index"]) : ∃ schema,
      compiled.document.at? [.key "properties", .key name] = some schema ∧
        ¬ compiled.document.AnswersNull schema true := by
    have hverdict := hverdicts name hmem
    rw [hbuilt, Except.toOption, Option.bind_some] at hverdict
    obtain ⟨schema, hhere, hverdict⟩ := Option.bind_eq_some_iff.1 hverdict
    exact ⟨schema, hhere, fun haccepts => Bool.noConfusion (haccepts.unique ⟨6, hverdict⟩)⟩
  refine ⟨compiled, hbuilt, rfl, fun name hmem => ?_⟩
  obtain ⟨schema, hhere, hrejects⟩ := hrejects hmem
  rcases List.mem_cons.1 hmem with rfl | hmem
  · exact ⟨_, schema, shows_optionals compiled (i := 3) rfl, rfl, hhere, hrejects⟩
  · cases List.mem_singleton.1 hmem
    exact ⟨_, schema, shows_optionals compiled (i := 6) rfl, rfl, hhere, hrejects⟩

end GraphSchema
