import Mathlib.Data.List.Forall2
import GraphSchema.Proofs.Document

/-!
Two walks in step.

- `Shape.Compositional` : a view of values for which compilation is compositional. What it shows of a schema depends on
  what it shows of the schemas inside, and on nothing else of them.
- `ObjectNode.Alike` relates two nodes that agree in all but their metadata, and in these as far as a relation asks.
- `Walk.InStep` says of two steps: from states that look alike, where the first one succeeds, so does the second one,
  and what they come to looks alike. Where errors count, they fail with one error as well.
- `Shape.shape_inStep` : nodes that are alike compile in step, also where the second walk has more levels.
- `build_inStep` : so do builds, and their documents look alike part by part (`CompiledSchema.Agrees`).
-/

namespace GraphSchema

variable {β : Type}

/-! ## Views -/

/-- what a view shows of a schema -/
def Schema.seen (view : Json → β) (schema : Schema) : β := view schema.toJson

namespace Shape

/-- what a view shows of a compiled property -/
def entrySeen (view : Json → β) (entry : Property × Schema) : String × Nullability × β :=
  (entry.1.name, entry.1.nullability, entry.2.seen view)

/-- What the view shows of each schema that compilation writes depends on what it shows of the schemas inside. Metadata
may differ as far as `M` allows, and the view shows no difference. -/
structure Compositional (view : Json → β) (M : Option Metadata → Option Metadata → Prop) : Prop where
  nullable : ∀ {s t : Schema}, s.seen view = t.seen view → (nullableSchema s).seen view = (nullableSchema t).seen view
  array : ∀ {s t : Schema}, s.seen view = t.seen view → (arraySchema s).seen view = (arraySchema t).seen view
  map : ∀ {s t : Schema}, s.seen view = t.seen view → (mapSchema s).seen view = (mapSchema t).seen view
  comment : ∀ {s t : Schema} (text : String), s.seen view = t.seen view →
    (s.comment text).seen view = (t.comment text).seen view
  union : ∀ {as bs : List Json}, as.map view = bs.map view →
    (Translation.unionSchema as).seen view = (Translation.unionSchema bs).seen view
  object : ∀ {ps qs : List (Property × Schema)}, ps.map (entrySeen view) = qs.map (entrySeen view) →
    (objectSchema ps).seen view = (objectSchema qs).seen view
  tuple : ∀ {as bs : List Json}, as.map view = bs.map view → (tupleSchema as).seen view = (tupleSchema bs).seen view
  annotate : ∀ {s t : Schema} {m n : Option Metadata}, M m n → s.seen view = t.seen view →
    (s.annotate m).seen view = (t.annotate n).seen view
  default : ∀ {s t : Schema} (default : Option String), s.seen view = t.seen view →
    (Translation.withDefault s default).seen view = (Translation.withDefault t default).seen view

end Shape

/-! ## Nodes that differ in their metadata -/

section

variable (M : Option Metadata → Option Metadata → Prop)

/-- two properties that differ in their metadata only -/
structure Property.Alike (p q : Property) : Prop where
  name : p.name = q.name
  metadata : M p.metadata q.metadata
  nullability : p.nullability = q.nullability
  shape : p.shape = q.shape

/-- two shapes that differ in the metadata of properties only -/
inductive ObjectShape.Alike : ObjectShape → ObjectShape → Prop
  | same (shape : ObjectShape) (hother : shape.kind ≠ .custom) : Alike shape shape
  | custom {ps qs : List Property} (implements : List ObjectId) (hproperties : List.Forall₂ (Property.Alike M) ps qs) :
    Alike (.custom ps implements) (.custom qs implements)

/-- two nodes that differ in their metadata only -/
structure ObjectNode.Alike (m n : ObjectNode) : Prop where
  identity : m.identity = n.identity
  metadata : M m.metadata n.metadata
  shape : m.shape.Alike M n.shape

/-- two graphs whose nodes, one by one, differ in their metadata only -/
def TypeGraph.Alike (graph other : TypeGraph) : Prop :=
  List.Forall₂ (ObjectNode.Alike M) graph.objects other.objects

end

variable {view : Json → β} {M : Option Metadata → Option Metadata → Prop}

theorem ObjectNode.Alike.kind {m n : ObjectNode} (h : m.Alike M n) : m.kind = n.kind := by
  obtain ⟨_, _, s⟩ := m
  obtain ⟨_, _, t⟩ := n
  cases h.shape <;> rfl

theorem ObjectNode.Alike.hasStringKeys {m n : ObjectNode} (h : m.Alike M n) :
    Shape.hasStringKeys m = Shape.hasStringKeys n := by
  obtain ⟨_, _, s⟩ := m
  obtain ⟨_, _, t⟩ := n
  cases h.shape <;> rfl

theorem ObjectNode.Alike.refl (hM : ∀ m, M m m) (node : ObjectNode) : node.Alike M node := by
  obtain ⟨identity, metadata, shape⟩ := node
  refine ⟨rfl, hM _, ?_⟩
  cases shape with
  | custom properties implements =>
    exact .custom implements (List.forall₂_same.2 fun p _ => ⟨rfl, hM _, rfl, rfl⟩)
  | _ => exact .same _ (by simp [ObjectShape.kind])

theorem TypeGraph.Alike.refl (hM : ∀ m, M m m) (graph : TypeGraph) : graph.Alike M graph :=
  List.forall₂_same.2 fun node _ => ObjectNode.Alike.refl hM node

/-- At each position, both graphs have nodes that are alike, or both have none. -/
theorem TypeGraph.Alike.get? {graph other : TypeGraph} (h : graph.Alike M other) (id : ObjectId) :
    (graph.get? id = none ∧ other.get? id = none) ∨
      ∃ m n, graph.get? id = some m ∧ other.get? id = some n ∧ m.Alike M n := by
  by_cases hid : id.index < graph.objects.length
  · have hid' : id.index < other.objects.length := h.length_eq ▸ hid
    refine Or.inr ⟨_, _, List.getElem?_eq_getElem hid, List.getElem?_eq_getElem hid', ?_⟩
    exact (List.forall₂_iff_get.1 h).2 id.index hid hid'
  · have hid' : ¬ id.index < other.objects.length := h.length_eq ▸ hid
    exact Or.inl ⟨List.getElem?_eq_none (Nat.le_of_not_lt hid), List.getElem?_eq_none (Nat.le_of_not_lt hid')⟩

/-! ## States that look alike -/

namespace Definitions

variable {table : Definitions}

/-- what a view shows of the table: the schema of each slot that has one -/
def seen (view : Json → β) (table : Definitions) : Members (Option β) :=
  table.slots.mapValues fun slot => slot.schema?.map view

theorem seen_insert (view : Json → β) (table : Definitions) (key : String) (slot : Slot) :
    Definitions.seen view ⟨Members.insert table.slots key slot⟩ =
      Members.insert (table.seen view) key (slot.schema?.map view) :=
  Members.mapValues_insert _ table.slots key slot

theorem contains_seen (view : Json → β) (table : Definitions) (key : String) :
    Members.contains (table.seen view) key = table.contains key :=
  Members.contains_mapValues _ table.slots key

theorem isSome_get?_seen (view : Json → β) (table : Definitions) (key : String) :
    (Members.get? (table.seen view) key).join.isSome = (table.get? key).isSome := by
  rw [seen, Members.get?_mapValues, get?]
  cases Members.get? table.slots key with
  | none => rfl
  | some slot => cases slot <;> rfl

theorem seen_fill (view : Json → β) (table : Definitions) (key : String) (schema : Json) :
    (table.fill key schema).seen view =
      if (Members.get? (table.seen view) key).join.isSome then table.seen view
      else Members.insert (table.seen view) key (some (view schema)) := by
  rw [fill, isSome_get?_seen view]
  split_ifs
  · rfl
  · exact seen_insert view table key (.built schema)

/-- What a view shows of the entries in their order is seen from the table. -/
theorem mapValues_sorted {other : Definitions} (h : table.seen view = other.seen view) :
    table.sorted.mapValues view = other.sorted.mapValues view := by
  have hbuilt : ∀ table : Definitions, table.built.mapValues view =
      (table.seen view).filterMap fun (key, shown) => shown.map (key, ·) := by
    intro table
    rw [built, seen, Members.mapValues, Members.mapValues, List.map_filterMap, List.filterMap_map]
    refine List.filterMap_congr fun entry _ => ?_
    simp only [Option.map_map, Function.comp_def]
  rw [sorted, sorted, Members.mapValues_sortedByKey, Members.mapValues_sortedByKey, hbuilt, hbuilt, h]

end Definitions

namespace Walk

variable {α α' γ γ' : Type} {strict : Prop}

/-- Two states look alike: what is seen of the tables is the same, and so are the diagnostics. -/
structure Alike (view : Json → β) (v w : Walk) : Prop where
  definitions : v.definitions.seen view = w.definitions.seen view
  diagnostics : v.diagnostics = w.diagnostics

theorem Alike.contains {v w : Walk} (h : v.Alike view w) (key : String) :
    v.definitions.contains key = w.definitions.contains key := by
  rw [← Definitions.contains_seen view, h.definitions, Definitions.contains_seen]

theorem Alike.note {v w : Walk} (h : v.Alike view w) (d : Diagnostic) :
    Alike view { v with diagnostics := v.diagnostics ++ [d] } { w with diagnostics := w.diagnostics ++ [d] } :=
  ⟨h.definitions, congrArg (· ++ [d]) h.diagnostics⟩

theorem Alike.fill {v w : Walk} (h : v.Alike view w) {key : String} {schema schema' : Json}
    (hs : view schema = view schema') :
    Alike view { v with definitions := v.definitions.fill key schema }
      { w with definitions := w.definitions.fill key schema' } := by
  refine ⟨?_, h.diagnostics⟩
  rw [Definitions.seen_fill, Definitions.seen_fill, h.definitions, hs]

/-- From states that look alike, where the first step succeeds, so does the second one, with related outcomes and
states that look alike. Where errors count, the second step fails as the first one does. -/
def InStep (view : Json → β) (strict : Prop) (Q : α → α' → Prop) (x : WalkM α) (y : WalkM α') : Prop :=
  ∀ v w, Alike view v w →
    (∀ a v', run x v = (.ok a, v') → ∃ b w', run y w = (.ok b, w') ∧ Q a b ∧ Alike view v' w') ∧
    (strict → ∀ e v', run x v = (.error e, v') → ∃ w', run y w = (.error e, w'))

namespace InStep

variable {Q : α → α' → Prop} {Q' : γ → γ' → Prop} {x : WalkM α} {y : WalkM α'}

theorem pure {a : α} {b : α'} (h : Q a b) : InStep view strict Q (pure a) (pure b) := by
  intro v w hvw
  refine ⟨fun c v' hrun => ?_, fun _ e v' hrun => ?_⟩
  · obtain ⟨rfl, rfl⟩ := run_pure_ok hrun
    exact ⟨b, w, rfl, h, hvw⟩
  · exact (run_pure_not_error hrun).elim

theorem bind {next : α → WalkM γ} {next' : α' → WalkM γ'} (h : InStep view strict Q x y)
    (hnext : ∀ a b, Q a b → InStep view strict Q' (next a) (next' b)) :
    InStep view strict Q' (x >>= next) (y >>= next') := by
  intro v w hvw
  obtain ⟨hok, herror⟩ := h v w hvw
  refine ⟨fun c v' hrun => ?_, fun hstrict e v' hrun => ?_⟩
  · obtain ⟨a, mid, hx, hn⟩ := run_bind_ok hrun
    obtain ⟨b, mid', hy, hab, hmid⟩ := hok a mid hx
    obtain ⟨d, w', hn', hcd, hlast⟩ := (hnext a b hab mid mid' hmid).1 c v' hn
    exact ⟨d, w', by rw [run_bind, hy]; exact hn', hcd, hlast⟩
  · rcases run_bind_error hrun with hx | ⟨a, mid, hx, hn⟩
    · obtain ⟨w', hy⟩ := herror hstrict e v' hx
      exact ⟨w', by rw [run_bind, hy]⟩
    · obtain ⟨b, mid', hy, hab, hmid⟩ := hok a mid hx
      obtain ⟨w', hn'⟩ := (hnext a b hab mid mid' hmid).2 hstrict e v' hn
      exact ⟨w', by rw [run_bind, hy]; exact hn'⟩

theorem map {f : α → γ} {g : α' → γ'} (h : InStep view strict Q x y) (hfg : ∀ a b, Q a b → Q' (f a) (g b)) :
    InStep view strict Q' (f <$> x) (g <$> y) := by
  rw [map_eq_pure_bind, map_eq_pure_bind]
  exact h.bind fun a b hab => pure (hfg a b hab)

theorem mono {P : α → α' → Prop} (h : InStep view strict Q x y) (hQ : ∀ a b, Q a b → P a b) :
    InStep view strict P x y := by
  intro v w hvw
  obtain ⟨hok, herror⟩ := h v w hvw
  refine ⟨fun a v' hrun => ?_, herror⟩
  obtain ⟨b, w', hy, hab, hafter⟩ := hok a v' hrun
  exact ⟨b, w', hy, hQ a b hab, hafter⟩

theorem throw {e e' : GraphError} (h : strict → e = e') :
    InStep view strict Q (throw e : WalkM α) (throw e' : WalkM α') := by
  intro v w _
  refine ⟨fun a v' hrun => ?_, fun hstrict f v' hrun => ?_⟩
  · rw [run_throw] at hrun
    cases hrun
  · rw [run_throw] at hrun
    cases hrun
    exact ⟨w, by rw [h hstrict, run_throw]⟩

theorem note (identity message : String) :
    InStep view strict (fun _ _ => True) (note identity message) (note identity message) := by
  intro v w hvw
  refine ⟨fun a v' hrun => ?_, fun _ e v' hrun => ?_⟩
  · rw [run_note] at hrun
    cases hrun
    exact ⟨_, _, run_note .., trivial, hvw.note _⟩
  · rw [run_note] at hrun
    cases hrun

theorem unsupported (identity message : String) :
    InStep view strict Eq (unsupported identity message) (unsupported identity message) :=
  (note identity message).bind fun _ _ _ => pure rfl

/-- At one position of graphs that are alike, both steps find nodes that are alike, or both fail. -/
theorem node {a b : Setting} (h : a.graph.Alike M b.graph) (id : ObjectId) :
    InStep view strict (ObjectNode.Alike M) (node a id) (node b id) := by
  unfold Walk.node TypeGraph.get
  rcases h.get? id with ⟨hm, hn⟩ | ⟨m, n, hm, hn, halike⟩
  · rw [hm, hn]
    exact throw fun _ => rfl
  · rw [hm, hn]
    exact pure halike

theorem deeper (h : InStep view strict Q x y) : InStep view strict Q (deeper x) (deeper y) := by
  intro v w hvw
  have hbelow : Alike view { v with depth := v.depth + 1 } { w with depth := w.depth + 1 } :=
    ⟨hvw.definitions, hvw.diagnostics⟩
  obtain ⟨hok, herror⟩ := h _ _ hbelow
  rw [run_deeper, run_deeper]
  refine ⟨fun a v' hrun => ?_, fun hstrict e v' hrun => ?_⟩
  · obtain ⟨hx, rfl⟩ := Prod.mk.inj hrun
    obtain ⟨b, w', hy, hab, hafter⟩ := hok a _ (Prod.ext hx rfl)
    refine ⟨b, { w' with depth := w'.depth - 1 }, by rw [hy], hab, ?_⟩
    exact ⟨hafter.definitions, hafter.diagnostics⟩
  · obtain ⟨hx, rfl⟩ := Prod.mk.inj hrun
    obtain ⟨w', hy⟩ := herror hstrict e _ (Prod.ext hx rfl)
    exact ⟨{ w' with depth := w'.depth - 1 }, by rw [hy]⟩

end InStep

end Walk

/-! ## Compiling nodes in step -/

namespace Shape

open Walk (InStep)

variable {strict : Prop}

/-- two outcomes that look alike: schemas of which the same is seen, or none -/
abbrev SeenAlike (view : Json → β) : Option Schema → Option Schema → Prop :=
  Option.Rel fun s t => s.seen view = t.seen view

theorem rel_map {α α' γ γ' : Type} {R : α → α' → Prop} {R' : γ → γ' → Prop} {o : Option α} {o' : Option α'}
    (h : Option.Rel R o o') {f : α → γ} {g : α' → γ'} (hfg : ∀ a b, R a b → R' (f a) (g b)) :
    Option.Rel R' (o.map f) (o'.map g) := by
  cases h with
  | none => exact .none
  | some h => exact .some (hfg _ _ h)

/-- A marker is the same on both sides. -/
theorem marker_inStep (identity message : String) :
    InStep view strict (SeenAlike view) (some <$> Walk.unsupported identity message)
      (some <$> Walk.unsupported identity message) := by
  refine (InStep.unsupported identity message).map ?_
  rintro s _ rfl
  exact .some rfl

section Children

variable {compile compile' : Compiler ObjectId}

theorem elements_inStep (hchildren : ∀ id, InStep view strict (SeenAlike view) (compile id) (compile' id))
    (ids : List ObjectId) : InStep view strict (Option.Rel fun as bs : List Json => as.map view = bs.map view)
      (elements compile ids) (elements compile' ids) := by
  induction ids with
  | nil => exact InStep.pure (.some rfl)
  | cons id rest ih =>
    refine (hchildren id).bind fun o o' ho => ?_
    cases ho with
    | none => exact InStep.pure .none
    | @some s t hst =>
      refine ih.bind fun os os' hos => ?_
      have hjson : view s.toJson = view t.toJson := hst
      cases hos with
      | none => exact InStep.pure .none
      | some hrest =>
        refine InStep.pure (.some ?_)
        simp only [List.map_cons, hjson, hrest]

theorem arms_inStep (hchildren : ∀ id, InStep view strict (SeenAlike view) (compile id) (compile' id))
    (ids : List ObjectId) : InStep view strict (fun as bs : List Json => as.map view = bs.map view)
      (arms compile ids) (arms compile' ids) := by
  induction ids with
  | nil => exact InStep.pure rfl
  | cons id rest ih =>
    refine (hchildren id).bind fun o o' ho => ih.bind fun as bs has => InStep.pure ?_
    cases ho with
    | none => exact has
    | @some s t hst =>
      have hjson : view s.toJson = view t.toJson := hst
      simp only [Option.map_some, Option.toList_some, List.cons_append, List.nil_append, List.map_cons, hjson, has]

theorem union_inStep (hcompat : Compositional view M)
    (hchildren : ∀ id, InStep view strict (SeenAlike view) (compile id) (compile' id)) (ids : List ObjectId) :
    InStep view strict (fun s t : Schema => s.seen view = t.seen view) (union compile ids) (union compile' ids) :=
  (arms_inStep hchildren ids).bind fun _ _ has => InStep.pure (hcompat.union has)

/-- The schema of a property is seen as the schema of its member is. A raw schema is the same on both sides. -/
theorem property_inStep (hcompat : Compositional view M)
    (hchildren : ∀ id, InStep view strict (SeenAlike view) (compile id) (compile' id)) (owner : String)
    {p q : Property} (h : p.Alike M q) :
    InStep view strict (SeenAlike view) (property compile owner p) (property compile' owner q) := by
  obtain ⟨name, metadata, nullability, shape⟩ := p
  obtain ⟨_, metadata', _, _⟩ := q
  obtain ⟨rfl, hmetadata, rfl, rfl⟩ := h
  unfold property
  cases shape with
  | override fragment =>
    dsimp only
    cases Schema.ofFragment fragment with
    | ok schema => exact InStep.pure (.some rfl)
    | error error => exact marker_inStep _ _
  | custom member default =>
    refine (hchildren member).bind fun o o' ho => ?_
    cases ho with
    | none => exact InStep.pure .none
    | some hst =>
      refine InStep.pure (.some ?_)
      have hdressed := hcompat.default default (hcompat.annotate hmetadata hst)
      cases default <;> exact hdressed

theorem properties_inStep (hcompat : Compositional view M)
    (hchildren : ∀ id, InStep view strict (SeenAlike view) (compile id) (compile' id)) (owner : String)
    {ps qs : List Property} (h : List.Forall₂ (Property.Alike M) ps qs) :
    InStep view strict
      (fun as bs : List (Property × Schema) => as.map (entrySeen view) = bs.map (entrySeen view))
      (properties compile owner ps) (properties compile' owner qs) := by
  induction h with
  | nil => exact InStep.pure rfl
  | @cons p q _ _ hpq _ ih =>
    refine (property_inStep hcompat hchildren owner hpq).bind fun o o' ho => ih.bind fun as bs has => InStep.pure ?_
    cases ho with
    | none => exact has
    | @some s t hst =>
      have hentry : entrySeen view (p, s) = entrySeen view (q, t) := by
        simp only [entrySeen, hpq.name, hpq.nullability, hst]
      simp only [Option.map_some, Option.toList_some, List.cons_append, List.nil_append, List.map_cons, hentry, has]

/-- Two modes under which maps look alike: one mode, or with and without a comment that the view does not show. -/
def ModesAlike (view : Json → β) (mode other : KeyMode) : Prop :=
  mode = other ∨
    (mode = .loose ∧ other = .silent ∧ ∀ (s : Schema) (text : String), (s.comment text).seen view = s.seen view)

variable {a b : Setting}

/-- Two settings for walks in step: graphs that are alike, one root, modes under which maps look alike, and one limit if
errors count. -/
structure SettingsAlike (view : Json → β) (M : Option Metadata → Option Metadata → Prop) (strict : Prop)
    (a b : Setting) : Prop where
  graph : a.graph.Alike M b.graph
  root : a.rootIdentity = b.rootIdentity
  keys : ModesAlike view a.options.dictionaryKeys b.options.dictionaryKeys
  limit : strict → a.options.maxDepth = b.options.maxDepth

theorem map_inStep (hcompat : Compositional view M) (hsettings : SettingsAlike view M strict a b)
    (hchildren : ∀ id, InStep view strict (SeenAlike view) (compile id) (compile' id)) {m n : ObjectNode}
    (h : m.Alike M n) (key value : ObjectId) :
    InStep view strict (SeenAlike view) (map a compile m key value) (map b compile' n key value) := by
  have hvalues : InStep view strict (SeenAlike view) ((·.map mapSchema) <$> compile value)
      ((·.map mapSchema) <$> compile' value) :=
    (hchildren value).map fun _ _ ho => rel_map ho fun _ _ hst => hcompat.map hst
  unfold map
  refine (InStep.node hsettings.graph key).bind fun k l hkl => ?_
  have hcomment : keyComment m k = keyComment n l := by
    unfold keyComment
    rw [h.identity, hkl.identity]
  have hrefusal : keyRefusal m k = keyRefusal n l := by
    unfold keyRefusal
    rw [h.identity, hkl.identity]
  dsimp only
  rw [hkl.hasStringKeys, hcomment, hrefusal, h.identity]
  split_ifs
  · exact hvalues
  · rcases hsettings.keys with hsame | ⟨hloose, hsilent, hhidden⟩
    · rw [hsame]
      cases b.options.dictionaryKeys with
      | loose => exact hvalues.map fun _ _ ho => rel_map ho fun _ _ hst => hcompat.comment _ hst
      | strict => exact marker_inStep _ _
      | silent => exact hvalues
      | skip => exact InStep.pure .none
    · rw [hloose, hsilent]
      -- only the first walk writes a comment
      have hplain : InStep view strict (SeenAlike view)
          ((·.map fun schema => schema.comment (keyComment n l)) <$> (·.map mapSchema) <$> compile value)
          (id <$> (·.map mapSchema) <$> compile' value) := by
        refine hvalues.map fun o o' ho => ?_
        have hshown : SeenAlike view (o.map fun schema => schema.comment (keyComment n l)) (o'.map id) :=
          rel_map ho fun s t hst => (hhidden s _).trans hst
        rwa [Option.map_id] at hshown
      rwa [id_map] at hplain

/-- **One level.** The layers of nodes that are alike go in step when those of their children do. -/
theorem layer_inStep (hcompat : Compositional view M) (hsettings : SettingsAlike view M strict a b)
    (hchildren : ∀ id, InStep view strict (SeenAlike view) (compile id) (compile' id)) {m n : ObjectNode}
    (h : m.Alike M n) : InStep view strict (SeenAlike view) (layer a compile m) (layer b compile' n) := by
  obtain ⟨identity, metadata, shape⟩ := m
  obtain ⟨_, metadata', shape'⟩ := n
  have halike := h
  obtain ⟨rfl, -, hshape⟩ := h
  unfold layer
  cases hshape with
  | custom implements hproperties =>
    refine (properties_inStep hcompat hchildren identity hproperties).bind fun as bs has => ?_
    exact InStep.pure (.some (hcompat.object has))
  | same _ hother =>
    cases shape with
    | system primitive => exact InStep.pure (.some rfl)
    | override fragment =>
      dsimp only
      cases Schema.ofFragment fragment with
      | ok schema => exact InStep.pure (.some rfl)
      | error error => exact marker_inStep _ _
    | nullable element => exact (hchildren element).map fun _ _ ho => rel_map ho fun _ _ hst => hcompat.nullable hst
    | array base element => exact (hchildren element).map fun _ _ ho => rel_map ho fun _ _ hst => hcompat.array hst
    | map base key value => exact map_inStep hcompat hsettings hchildren halike key value
    | generic base arguments => exact (InStep.note _ _).bind fun _ _ _ => InStep.pure (.some rfl)
    | abstract implementations =>
      exact (union_inStep hcompat hchildren implementations).map fun s t hst => .some hst
    | custom properties implements => exact absurd rfl hother
    | tuple ids => exact (elements_inStep hchildren ids).map fun _ _ ho => rel_map ho fun _ _ has => hcompat.tuple has

end Children

/-! ## Nodes, definitions and references in step -/

section Nodes

variable {shape shape' : Compiler ObjectNode} {a b : Setting} {m n : ObjectNode}

theorem annotated_inStep (hcompat : Compositional view M) (h : m.Alike M n)
    (hs : InStep view strict (SeenAlike view) (shape m) (shape' n)) :
    InStep view strict (SeenAlike view) (annotated shape m) (annotated shape' n) :=
  hs.map fun _ _ ho => rel_map ho fun _ _ hst => hcompat.annotate h.metadata hst

theorem definition_inStep (hcompat : Compositional view M) (h : m.Alike M n)
    (hs : InStep view strict (SeenAlike view) (shape m) (shape' n)) :
    InStep view strict (fun s t => s.seen view = t.seen view) (definition shape m) (definition shape' n) := by
  unfold definition
  refine (annotated_inStep hcompat h hs).bind fun o o' ho => ?_
  cases ho with
  | none =>
    dsimp only
    rw [h.identity]
    refine (InStep.unsupported _ _).mono ?_
    rintro s _ rfl
    rfl
  | some hst => exact InStep.pure hst

/-- A reference is the same on both sides. What it stores on the way looks alike. -/
theorem reference_inStep (hcompat : Compositional view M) (hsettings : SettingsAlike view M strict a b)
    (h : m.Alike M n) (hs : InStep view strict (SeenAlike view) (shape m) (shape' n)) :
    InStep view strict Eq (reference a shape m) (reference b shape' n) := by
  intro v w hvw
  have hreserving : Walk.Alike view (reserving m v) (reserving n w) := by
    refine ⟨?_, hvw.diagnostics⟩
    simp only [reserving, Definitions.seen_insert, h.identity, hvw.definitions]
  have hlink : Translation.reference a m.identity = Translation.reference b n.identity := by
    rw [Translation.reference, Translation.reference, Translation.link, Translation.link, hsettings.root, h.identity]
  obtain ⟨hok, herror⟩ := definition_inStep hcompat h hs _ _ hreserving
  rw [run_reference, run_reference, hlink, hsettings.root, h.identity, hvw.contains]
  split_ifs
  · refine ⟨fun s v' hrun => ?_, fun _ e v' hrun => ?_⟩
    · cases hrun
      exact ⟨_, w, rfl, rfl, hvw⟩
    · cases hrun
  · rcases hm : Walk.run (definition shape m) (reserving m v) with ⟨x | stored, mid⟩
    · refine ⟨fun s v' hrun => ?_, fun hstrict e v' hrun => ?_⟩
      · cases hrun
      · cases hrun
        obtain ⟨w', hn⟩ := herror hstrict _ _ hm
        exact ⟨w', by rw [hn]⟩
    · obtain ⟨stored', mid', hn, hstored, hmid⟩ := hok _ _ hm
      rw [hn]
      refine ⟨fun s v' hrun => ?_, fun _ e v' hrun => ?_⟩
      · cases hrun
        exact ⟨_, _, rfl, rfl, hmid.fill hstored⟩
      · cases hrun

theorem object_inStep (hcompat : Compositional view M) (hsettings : SettingsAlike view M strict a b)
    (hs : ∀ {m n : ObjectNode}, m.Alike M n → InStep view strict (SeenAlike view) (shape m) (shape' n))
    (id : ObjectId) : InStep view strict (SeenAlike view) (object a shape id) (object b shape' id) := by
  refine (InStep.node hsettings.graph id).bind fun m n h => ?_
  rw [h.kind]
  split_ifs
  · refine (reference_inStep hcompat hsettings h (hs h)).map ?_
    rintro s _ rfl
    exact .some rfl
  · exact annotated_inStep hcompat h (hs h)

end Nodes

/-- **Nodes in step.** Nodes that are alike compile in step, also where the second walk has more levels left. -/
theorem shape_inStep (hcompat : Compositional view M) {a b : Setting} (hsettings : SettingsAlike view M strict a b)
    {room more : Nat} (hroom : room ≤ more) (hsame : strict → room = more) {m n : ObjectNode} (h : m.Alike M n) :
    InStep view strict (SeenAlike view) (shape a room m) (shape b more n) := by
  induction room generalizing more m n with
  | zero =>
    intro v w _
    refine ⟨fun o v' hrun => ?_, fun hstrict e v' hrun => ?_⟩
    · cases hrun
    · cases hrun
      have hmore : more = 0 := (hsame hstrict).symm
      exact ⟨w, by rw [hmore, shape, Walk.run_throw, hsettings.limit hstrict, h.identity]⟩
  | succ room ih =>
    cases more with
    | zero => exact absurd hroom (Nat.not_succ_le_zero room)
    | succ more =>
      have hchildren : ∀ id, InStep view strict (SeenAlike view) (object a (shape a room) id)
          (object b (shape b more) id) :=
        object_inStep hcompat hsettings fun hmn =>
          ih (Nat.le_of_succ_le_succ hroom) (fun hstrict => Nat.succ.inj (hsame hstrict)) hmn
      exact (layer_inStep hcompat hsettings hchildren h).deeper

end Shape

/-! ## Builds in step -/

theorem compileRoot_inStep {strict : Prop} (hcompat : Shape.Compositional view M) {a b : Setting}
    (hsettings : Shape.SettingsAlike view M strict a b) (hlimit : a.options.maxDepth ≤ b.options.maxDepth)
    {m n : ObjectNode} (h : m.Alike M n) :
    Walk.InStep view strict (fun s t => s.seen view = t.seen view) (compileRoot a m) (compileRoot b n) := by
  unfold compileRoot
  refine (Shape.shape_inStep hcompat hsettings hlimit hsettings.limit h).bind fun o o' ho => ?_
  cases ho with
  | none =>
    dsimp only
    rw [h.identity]
    refine (Walk.InStep.unsupported _ _).mono ?_
    rintro s _ rfl
    rfl
  | some hst => exact Walk.InStep.pure hst

/-- A view shows the same of two builds: of their roots, and of their definitions under the same keys. All else that
they hold is equal. -/
structure CompiledSchema.Agrees (view : Json → β) (c d : CompiledSchema) : Prop where
  fileName : c.fileName = d.fileName
  diagnostics : c.diagnostics = d.diagnostics
  defs : c.defs.mapValues view = d.defs.mapValues view
  body : ∃ s t : Schema, s.seen view = t.seen view ∧ c.body = s.body ∧ d.body = t.body
  document : ∃ front, c.document = .obj (front ++ c.body ++ definitionMember c.defs) ∧
    d.document = .obj (front ++ d.body ++ definitionMember d.defs)

theorem CompiledSchema.Agrees.keys {view : Json → β} {c d : CompiledSchema} (h : c.Agrees view d) :
    Members.keys c.defs = Members.keys d.defs := by
  rw [← Members.keys_mapValues view c.defs, h.defs, Members.keys_mapValues]

/-- what two builds have in common that are to go in step -/
structure BuildsAlike (view : Json → β) (M : Option Metadata → Option Metadata → Prop) (strict : Prop)
    (graph other : TypeGraph) (request request' : RootRequest) (options options' : CompileOptions) : Prop where
  graphs : graph.Alike M other
  valid : graph.validate = other.validate
  root : request.root = request'.root
  id : request.id = request'.id
  fileName : request.fileName = request'.fileName
  metadata : ∀ m n : ObjectNode, M m.metadata n.metadata → M (rootMetadata m request) (rootMetadata n request')
  dialect : options.dialect = options'.dialect
  keys : Shape.ModesAlike view options.dictionaryKeys options'.dictionaryKeys
  limit : options.maxDepth ≤ options'.maxDepth
  sameLimit : strict → options.maxDepth = options'.maxDepth

variable {strict : Prop} {graph other : TypeGraph} {request request' : RootRequest} {options options' : CompileOptions}

theorem BuildsAlike.settings (h : BuildsAlike view M strict graph other request request' options options')
    {m n : ObjectNode} (hmn : m.Alike M n) :
    Shape.SettingsAlike view M strict (rootSetting graph options m) (rootSetting other options' n) := by
  refine ⟨h.graphs, ?_, h.keys, h.sameLimit⟩
  unfold rootSetting
  rw [hmn.kind, hmn.identity]

/-- Builds of one graph and one request, that may differ in the mode and in the limit. -/
theorem BuildsAlike.of_options (graph : TypeGraph) (request : RootRequest)
    (hdialect : options.dialect = options'.dialect)
    (hkeys : Shape.ModesAlike view options.dictionaryKeys options'.dictionaryKeys)
    (hlimit : options.maxDepth ≤ options'.maxDepth) (hsameLimit : strict → options.maxDepth = options'.maxDepth) :
    BuildsAlike view Eq strict graph graph request request options options' where
  graphs := .refl (fun _ => rfl) graph
  valid := rfl
  root := rfl
  id := rfl
  fileName := rfl
  metadata m n h := by rw [rootMetadata, rootMetadata, h]
  dialect := hdialect
  keys := hkeys
  limit := hlimit
  sameLimit := hsameLimit

/-- The level of a raw schema is what is read from its text. -/
theorem Translates.of_override {setting : Setting} {node : ObjectNode} {outcome : Option Schema} {fragment : String}
    (h : Translates setting node outcome) (hs : node.shape = .override fragment) :
    outcome = some (Translation.rawSchema fragment (Shape.overrideMessage node.identity)) := by
  have hone : Translates setting node
      (some (Translation.rawSchema fragment (Shape.overrideMessage node.identity))) := by
    refine ⟨1, ?_⟩
    simp only [Translation.expand, Translation.layer, hs]
  exact h.unique hone

/-- Roots that are alike bring the same definitions of their own. -/
theorem Compilation.carried_eq {c d : CompiledSchema} {m n : ObjectNode} {o o' : Option Schema}
    {table table' : Definitions} (h : m.Alike M n) (hc : Compilation graph request options c m o table)
    (hd : Compilation other request' options' d n o' table') :
    (rootSchema m request o).carried = (rootSchema n request' o').carried := by
  by_cases hraw : m.kind = .override
  · obtain ⟨identity, metadata, shape⟩ := m
    obtain ⟨_, metadata', shape'⟩ := n
    obtain ⟨rfl, -, hshape⟩ := h
    cases hshape with
    | custom => cases hraw
    | same shape =>
      cases shape with
      | override fragment =>
        have hkeyword : Reference.definitionsKeyword ∉ Schema.annotationKeywords := by decide
        rw [hc.translated.of_override rfl, hd.translated.of_override rfl]
        simp only [Schema.carried, rootSchema, Option.getD_some, Schema.get?_annotate hkeyword]
      | _ => cases hraw
  · rw [hc.carried_eq_nil hraw, hd.carried_eq_nil (h.kind ▸ hraw)]

/-- **Builds in step.** Where the first of two such builds succeeds, so does the second one, and the view shows the
same of both. Where errors count, the second one fails as the first one does. -/
theorem build_inStep (hcompat : Shape.Compositional view M)
    (h : BuildsAlike view M strict graph other request request' options options') :
    (∀ c, build graph request options = .ok c → ∃ d, build other request' options' = .ok d ∧ c.Agrees view d) ∧
      (strict → ∀ e, build graph request options = .error e → build other request' options' = .error e) := by
  cases hv : graph.validate with
  | error x =>
    have hother : other.validate = .error x := h.valid ▸ hv
    rw [build_of_invalid hv, build_of_invalid hother]
    exact ⟨fun c hc => (by cases hc), fun _ e he => he⟩
  | ok u =>
    have hother : other.validate = .ok () := h.valid ▸ hv
    rcases h.graphs.get? request.root with ⟨hm, hn⟩ | ⟨m, n, hm, hn, hmn⟩
    · rw [h.root] at hn
      rw [build_of_missing hv hm, build_of_missing hother hn, h.root]
      exact ⟨fun c hc => (by cases hc), fun _ e he => he⟩
    · rw [h.root] at hn
      rw [build_eq hv hm, build_eq hother hn]
      have hstart : Walk.Alike view ({} : Walk) {} := ⟨rfl, rfl⟩
      obtain ⟨hok, herror⟩ := compileRoot_inStep hcompat (h.settings hmn) h.limit hmn _ _ hstart
      rcases hrun : Walk.run (compileRoot (rootSetting graph options m) m) {} with ⟨x | schema, walk⟩
      · refine ⟨fun c hc => ?_, fun hstrict e he => ?_⟩
        · cases hc
        · cases he
          obtain ⟨w', hrun'⟩ := herror hstrict _ _ hrun
          rw [hrun']
      · obtain ⟨schema', walk', hrun', hseen, hafter⟩ := hok _ _ hrun
        rw [hrun']
        refine ⟨fun c hc => ?_, fun _ e he => ?_⟩
        · cases hc
          refine ⟨_, rfl, ?_⟩
          obtain ⟨o, rfl, hcompilation⟩ := compilation_of_run hv hm hrun
          obtain ⟨o', rfl, hcompilation'⟩ := compilation_of_run hother hn hrun'
          have hfound := Definitions.mapValues_sorted hafter.definitions
          refine ⟨h.fileName, hafter.diagnostics, ?_, ?_, ?_⟩
          · rw [hcompilation.defs_eq, hcompilation'.defs_eq, Members.mapValues_sortedByKey,
              Members.mapValues_sortedByKey]
            refine congrArg _ (mapValues_joinDefinitions ?_ hfound)
            rw [hcompilation.carried_eq hmn hcompilation']
          · have hannotated := hcompat.annotate (h.metadata _ _ hmn.metadata) hseen
            exact ⟨_, _, hannotated, hcompilation.body_eq, hcompilation'.body_eq⟩
          · refine ⟨opening options.dialect request.id, hcompilation.document_split, ?_⟩
            rw [h.dialect, h.id]
            exact hcompilation'.document_split
        · cases he

/-- Two results end alike: both are one error, or both are values that are related. -/
inductive EndAlike {ε α α' : Type} (Q : α → α' → Prop) : Except ε α → Except ε α' → Prop
  | error (e : ε) : EndAlike Q (.error e) (.error e)
  | ok {a : α} {b : α'} (hrelated : Q a b) : EndAlike Q (.ok a) (.ok b)

theorem EndAlike.mono {ε α α' : Type} {P Q : α → α' → Prop} {x : Except ε α} {y : Except ε α'} (h : EndAlike Q x y)
    (hQ : ∀ a b, Q a b → P a b) : EndAlike P x y := by
  cases h with
  | error e => exact .error e
  | ok hrelated => exact .ok (hQ _ _ hrelated)

/-- Where errors count, builds in step end alike. -/
theorem build_endAlike (hcompat : Shape.Compositional view M)
    (h : BuildsAlike view M True graph other request request' options options') :
    EndAlike (CompiledSchema.Agrees view) (build graph request options) (build other request' options') := by
  obtain ⟨hok, herror⟩ := build_inStep hcompat h
  cases hb : build graph request options with
  | error e =>
    rw [herror trivial e hb]
    exact .error e
  | ok c =>
    obtain ⟨d, hd, hagrees⟩ := hok c hb
    rw [hd]
    exact .ok hagrees

end GraphSchema
