import GraphSchema.Proofs.Translation

/-!
What the compilation of one node does, given what the compilation of its children does.

- `Walk.run_bind_ok`, `Walk.run_bind_error` take a run of one step after another apart.
- `Shape.layer_ok`: a successful layer follows its edges, and its outcome is the translation's. What its children
  keep of the state, it keeps; what they leave behind is there at its end.
- `Shape.layer_error`: a layer fails only where a child fails.
-/

namespace GraphSchema

/-! ## Taking runs apart -/

theorem exists_ok_of_isOk {ε α : Type} {outcome : Except ε α} (h : outcome.isOk = true) :
    ∃ a, outcome = .ok a := by
  cases outcome with
  | error e => cases h
  | ok a => exact ⟨a, rfl⟩

namespace Walk

variable {α β : Type}

theorem run_bind_ok {step : WalkM α} {next : α → WalkM β} {walk after : Walk} {b : β}
    (h : run (step >>= next) walk = (.ok b, after)) :
    ∃ a mid, run step walk = (.ok a, mid) ∧ run (next a) mid = (.ok b, after) := by
  rw [run_bind] at h
  rcases hs : run step walk with ⟨e | a, mid⟩
  · rw [hs] at h; cases h
  · rw [hs] at h
    exact ⟨a, mid, rfl, h⟩

theorem run_bind_error {step : WalkM α} {next : α → WalkM β} {walk after : Walk} {e : GraphError}
    (h : run (step >>= next) walk = (.error e, after)) :
    run step walk = (.error e, after) ∨
      ∃ a mid, run step walk = (.ok a, mid) ∧ run (next a) mid = (.error e, after) := by
  rw [run_bind] at h
  rcases hs : run step walk with ⟨x | a, mid⟩
  · rw [hs] at h
    cases h
    exact Or.inl rfl
  · rw [hs] at h
    exact Or.inr ⟨a, mid, rfl, h⟩

theorem run_pure_ok {a b : α} {walk after : Walk} (h : run (pure a) walk = (.ok b, after)) :
    b = a ∧ after = walk := by
  rw [run_pure] at h
  cases h
  exact ⟨rfl, rfl⟩

theorem run_pure_not_error {a : α} {walk after : Walk} {e : GraphError}
    (h : run (pure a) walk = (.error e, after)) : False := by
  rw [run_pure] at h
  cases h

theorem run_map_ok {step : WalkM α} {f : α → β} {walk after : Walk} {b : β}
    (h : run (f <$> step) walk = (.ok b, after)) : ∃ a, run step walk = (.ok a, after) ∧ b = f a := by
  rw [map_eq_pure_bind] at h
  obtain ⟨a, mid, hs, hp⟩ := run_bind_ok h
  obtain ⟨rfl, rfl⟩ := run_pure_ok hp
  exact ⟨a, hs, rfl⟩

theorem run_map_error {step : WalkM α} {f : α → β} {walk after : Walk} {e : GraphError}
    (h : run (f <$> step) walk = (.error e, after)) : run step walk = (.error e, after) := by
  rw [map_eq_pure_bind] at h
  rcases run_bind_error h with hs | ⟨a, mid, -, hp⟩
  · exact hs
  · exact (run_pure_not_error hp).elim

theorem run_node_ok {setting : Setting} {id : ObjectId} {walk after : Walk} {node : ObjectNode}
    (h : run (Walk.node setting id) walk = (.ok node, after)) :
    setting.graph.get? id = some node ∧ after = walk := by
  rw [run_node] at h
  obtain ⟨hn, rfl⟩ := Prod.mk.inj h
  exact ⟨TypeGraph.get_eq_ok_iff.1 hn, rfl⟩

@[simp] theorem run_unsupported (identity message : String) (walk : Walk) :
    run (unsupported identity message) walk = (.ok (Schema.unsupported message),
      { walk with diagnostics := walk.diagnostics ++ [⟨identity, message⟩] }) := rfl

end Walk

namespace Shape

open Walk (run run_bind_ok run_bind_error run_map_ok run_map_error run_pure_ok run_pure_not_error)

/-- `I` relates the states before and after steps, and `Done` says of a child that something about it stands
in a state: a diagnostic does not disturb them, steps compose, and what is done stays done. -/
structure Tracks (I : Walk → Walk → Prop) (Done : ObjectId → Walk → Prop) : Prop where
  refl : ∀ walk, I walk walk
  trans : ∀ {a b c}, I a b → I b c → I a c
  note : ∀ walk d, I walk { walk with diagnostics := walk.diagnostics ++ [d] }
  stays : ∀ {id a b}, I a b → Done id a → Done id b

/-- Whenever a child compiles, the states are related, the outcome is its meaning, and it is done. -/
def Visits (I : Walk → Walk → Prop) (Done : ObjectId → Walk → Prop)
    (meaning : ObjectId → Option (Option Schema)) (compile : Compiler ObjectId) (id : ObjectId) : Prop :=
  ∀ walk outcome after, run (compile id) walk = (.ok outcome, after) →
    I walk after ∧ meaning id = some outcome ∧ Done id after

/-- One of the children fails, in a state that the visits before it lead to. -/
def FailsAt (I : Walk → Walk → Prop) (compile : Compiler ObjectId) (ids : List ObjectId) (walk : Walk)
    (e : GraphError) (after : Walk) : Prop :=
  ∃ id ∈ ids, ∃ mid, I walk mid ∧ run (compile id) mid = (.error e, after)

variable {I : Walk → Walk → Prop} {Done : ObjectId → Walk → Prop}
  {meaning : ObjectId → Option (Option Schema)} {compile : Compiler ObjectId} {walk after : Walk}
  {e : GraphError}

theorem FailsAt.of_subset {ids more : List ObjectId} (h : FailsAt I compile ids walk e after)
    (hs : ids ⊆ more) : FailsAt I compile more walk e after := by
  obtain ⟨id, hm, mid, hi, hr⟩ := h
  exact ⟨id, hs hm, mid, hi, hr⟩

theorem FailsAt.after_visit (hI : Tracks I Done) {ids : List ObjectId} {mid : Walk} (hi : I walk mid)
    (h : FailsAt I compile ids mid e after) : FailsAt I compile ids walk e after := by
  obtain ⟨id, hm, mid', hi', hr⟩ := h
  exact ⟨id, hm, mid', hI.trans hi hi', hr⟩

/-! ## Tuples -/

theorem elements_ok (hI : Tracks I Done) {ids : List ObjectId}
    (hv : ∀ id ∈ ids, Visits I Done meaning compile id) {outcome : Option (List Json)}
    (h : run (elements compile ids) walk = (.ok outcome, after)) :
    I walk after ∧ Translation.elements meaning ids = some outcome ∧
      (outcome.isSome = true → ∀ id ∈ ids, Done id after) := by
  induction ids generalizing walk after outcome with
  | nil =>
    obtain ⟨rfl, rfl⟩ := run_pure_ok h
    exact ⟨hI.refl _, rfl, fun _ => by simp⟩
  | cons id rest ih =>
    obtain ⟨first, mid, hf, h⟩ := run_bind_ok h
    obtain ⟨hi, hm, hd⟩ := hv id List.mem_cons_self _ _ _ hf
    cases first with
    | none =>
      obtain ⟨rfl, rfl⟩ := run_pure_ok h
      exact ⟨hi, Option.bind_eq_some_iff.2 ⟨none, hm, rfl⟩, fun hs => by simp at hs⟩
    | some schema =>
      obtain ⟨others, last, ho, h⟩ := run_bind_ok h
      obtain ⟨hi', hm', hd'⟩ := ih (fun id hid => hv id (List.mem_cons_of_mem _ hid)) ho
      have hafter : last = after := by cases others <;> exact (run_pure_ok h).2.symm
      have hout : outcome = others.map (schema.toJson :: ·) := by cases others <;> exact (run_pure_ok h).1
      subst hafter hout
      refine ⟨hI.trans hi hi', ?_, fun hs => ?_⟩
      · exact Option.bind_eq_some_iff.2 ⟨some schema, hm, Option.map_eq_some_iff.2 ⟨others, hm', rfl⟩⟩
      · exact List.forall_mem_cons.2 ⟨hI.stays hi' hd, hd' (by simpa using hs)⟩

theorem elements_error (hI : Tracks I Done) {ids : List ObjectId}
    (hv : ∀ id ∈ ids, Visits I Done meaning compile id)
    (h : run (elements compile ids) walk = (.error e, after)) : FailsAt I compile ids walk e after := by
  induction ids generalizing walk with
  | nil => exact (run_pure_not_error h).elim
  | cons id rest ih =>
    rcases run_bind_error h with hf | ⟨first, mid, hf, h⟩
    · exact ⟨id, List.mem_cons_self, walk, hI.refl walk, hf⟩
    · have hi := (hv id List.mem_cons_self _ _ _ hf).1
      cases first with
      | none => exact (run_pure_not_error h).elim
      | some schema =>
        rcases run_bind_error h with ho | ⟨others, last, -, h⟩
        · have hrest := ih (fun id hid => hv id (List.mem_cons_of_mem _ hid)) ho
          exact (hrest.after_visit hI hi).of_subset (List.subset_cons_self _ _)
        · cases others <;> exact (run_pure_not_error h).elim

/-! ## Unions -/

theorem arms_ok (hI : Tracks I Done) {ids : List ObjectId}
    (hv : ∀ id ∈ ids, Visits I Done meaning compile id) {schemas : List Json}
    (h : run (arms compile ids) walk = (.ok schemas, after)) :
    I walk after ∧ Translation.arms meaning ids = some schemas ∧ ∀ id ∈ ids, Done id after := by
  induction ids generalizing walk schemas with
  | nil =>
    obtain ⟨rfl, rfl⟩ := run_pure_ok h
    exact ⟨hI.refl _, rfl, by simp⟩
  | cons id rest ih =>
    obtain ⟨first, mid, hf, h⟩ := run_bind_ok h
    obtain ⟨others, last, ho, h⟩ := run_bind_ok h
    obtain ⟨rfl, rfl⟩ := run_pure_ok h
    obtain ⟨hi, hm, hd⟩ := hv id List.mem_cons_self _ _ _ hf
    obtain ⟨hi', hm', hd'⟩ := ih (fun id hid => hv id (List.mem_cons_of_mem _ hid)) ho
    refine ⟨hI.trans hi hi', ?_, List.forall_mem_cons.2 ⟨hI.stays hi' hd, hd'⟩⟩
    exact Option.bind_eq_some_iff.2 ⟨first, hm, Option.map_eq_some_iff.2 ⟨others, hm', rfl⟩⟩

theorem arms_error (hI : Tracks I Done) {ids : List ObjectId}
    (hv : ∀ id ∈ ids, Visits I Done meaning compile id)
    (h : run (arms compile ids) walk = (.error e, after)) : FailsAt I compile ids walk e after := by
  induction ids generalizing walk with
  | nil => exact (run_pure_not_error h).elim
  | cons id rest ih =>
    rcases run_bind_error h with hf | ⟨first, mid, hf, h⟩
    · exact ⟨id, List.mem_cons_self, walk, hI.refl walk, hf⟩
    · rcases run_bind_error h with ho | ⟨others, last, -, h⟩
      · have hi := (hv id List.mem_cons_self _ _ _ hf).1
        have hrest := ih (fun id hid => hv id (List.mem_cons_of_mem _ hid)) ho
        exact (hrest.after_visit hI hi).of_subset (List.subset_cons_self _ _)
      · exact (run_pure_not_error h).elim

theorem union_ok (hI : Tracks I Done) {ids : List ObjectId}
    (hv : ∀ id ∈ ids, Visits I Done meaning compile id) {schema : Schema}
    (h : run (union compile ids) walk = (.ok schema, after)) :
    I walk after ∧ (∃ schemas, Translation.arms meaning ids = some schemas ∧
      schema = Translation.unionSchema schemas) ∧ ∀ id ∈ ids, Done id after := by
  obtain ⟨schemas, mid, ha, h⟩ := run_bind_ok h
  obtain ⟨rfl, rfl⟩ := run_pure_ok h
  obtain ⟨hi, hm, hd⟩ := arms_ok hI hv ha
  exact ⟨hi, ⟨schemas, hm, rfl⟩, hd⟩

/-! ## Properties -/

theorem property_ok (hI : Tracks I Done) {owner : String} {p : Property}
    (hv : ∀ id ∈ p.member?, Visits I Done meaning compile id) {outcome : Option Schema}
    (h : run (property compile owner p) walk = (.ok outcome, after)) :
    I walk after ∧ Translation.property meaning p = some outcome ∧ ∀ id ∈ p.member?, Done id after := by
  unfold property at h
  unfold Translation.property
  unfold Property.member? at hv ⊢
  cases hs : p.shape with
  | override fragment =>
    simp only [hs] at h ⊢
    unfold Translation.rawSchema
    cases hf : Schema.ofFragment fragment with
    | ok schema =>
      simp only [hf] at h ⊢
      obtain ⟨rfl, rfl⟩ := run_pure_ok h
      exact ⟨hI.refl _, rfl, by simp⟩
    | error x =>
      simp only [hf] at h ⊢
      obtain ⟨schema, hu, rfl⟩ := run_map_ok h
      rw [Walk.run_unsupported] at hu
      cases hu
      exact ⟨hI.note _ _, rfl, by simp⟩
  | custom member default =>
    simp only [hs] at h hv ⊢
    obtain ⟨first, mid, hf, h⟩ := run_bind_ok h
    obtain ⟨hi, hm, hd⟩ := hv member rfl _ _ _ hf
    have hdone : ∀ id ∈ some member, Done id mid := fun id hid => Option.mem_some_iff.1 hid ▸ hd
    cases first with
    | none =>
      obtain ⟨rfl, rfl⟩ := run_pure_ok h
      exact ⟨hi, Option.map_eq_some_iff.2 ⟨none, hm, rfl⟩, hdone⟩
    | some schema =>
      obtain ⟨rfl, rfl⟩ := run_pure_ok h
      refine ⟨hi, Option.map_eq_some_iff.2 ⟨some schema, hm, ?_⟩, hdone⟩
      cases default <;> rfl

theorem property_error {owner : String} {p : Property} (hI : Tracks I Done)
    (h : run (property compile owner p) walk = (.error e, after)) :
    FailsAt I compile p.member?.toList walk e after := by
  unfold property at h
  unfold Property.member?
  cases hs : p.shape with
  | override fragment =>
    simp only [hs] at h
    cases hf : Schema.ofFragment fragment with
    | ok schema => simp only [hf] at h; exact (run_pure_not_error h).elim
    | error x =>
      simp only [hf] at h
      have hu := run_map_error h
      rw [Walk.run_unsupported] at hu
      cases hu
  | custom member default =>
    simp only [hs] at h
    rcases run_bind_error h with hf | ⟨first, mid, -, h⟩
    · exact ⟨member, by simp, walk, hI.refl walk, hf⟩
    · cases first <;> exact (run_pure_not_error h).elim

theorem properties_ok (hI : Tracks I Done) {owner : String} {props : List Property}
    (hv : ∀ id ∈ props.filterMap Property.member?, Visits I Done meaning compile id)
    {compiled : List (Property × Schema)}
    (h : run (properties compile owner props) walk = (.ok compiled, after)) :
    I walk after ∧ Translation.properties meaning props = some compiled ∧
      ∀ id ∈ props.filterMap Property.member?, Done id after := by
  induction props generalizing walk compiled with
  | nil =>
    obtain ⟨rfl, rfl⟩ := run_pure_ok h
    exact ⟨hI.refl _, rfl, by simp⟩
  | cons p rest ih =>
    have hsplit : ∀ id, id ∈ (p :: rest).filterMap Property.member? ↔
        id ∈ p.member? ∨ id ∈ rest.filterMap Property.member? := by
      intro id
      rw [List.filterMap_cons]
      cases p.member? <;> simp [eq_comm]
    obtain ⟨first, mid, hf, h⟩ := run_bind_ok h
    obtain ⟨others, last, ho, h⟩ := run_bind_ok h
    obtain ⟨rfl, rfl⟩ := run_pure_ok h
    obtain ⟨hi, hm, hd⟩ := property_ok hI (fun id hid => hv id ((hsplit id).2 (Or.inl hid))) hf
    obtain ⟨hi', hm', hd'⟩ := ih (fun id hid => hv id ((hsplit id).2 (Or.inr hid))) ho
    refine ⟨hI.trans hi hi', ?_, fun id hid => ?_⟩
    · exact Option.bind_eq_some_iff.2 ⟨first, hm, Option.map_eq_some_iff.2 ⟨others, hm', rfl⟩⟩
    · rcases (hsplit id).1 hid with hid | hid
      · exact hI.stays hi' (hd id hid)
      · exact hd' id hid

theorem properties_error (hI : Tracks I Done) {owner : String} {props : List Property}
    (hv : ∀ id ∈ props.filterMap Property.member?, Visits I Done meaning compile id)
    (h : run (properties compile owner props) walk = (.error e, after)) :
    FailsAt I compile (props.filterMap Property.member?) walk e after := by
  induction props generalizing walk with
  | nil => exact (run_pure_not_error h).elim
  | cons p rest ih =>
    have hhead : p.member?.toList ⊆ (p :: rest).filterMap Property.member? := by
      rw [List.filterMap_cons]
      cases p.member? <;> simp
    have htail : rest.filterMap Property.member? ⊆ (p :: rest).filterMap Property.member? := by
      rw [List.filterMap_cons]
      cases p.member? <;> simp
    rcases run_bind_error h with hf | ⟨first, mid, hf, h⟩
    · exact (property_error hI hf).of_subset hhead
    · rcases run_bind_error h with ho | ⟨others, last, -, h⟩
      · have hi := (property_ok hI (fun id hid => hv id (hhead (by simpa using hid))) hf).1
        have hrest := ih (fun id hid => hv id (htail hid)) ho
        exact (hrest.after_visit hI hi).of_subset htail
      · exact (run_pure_not_error h).elim

/-! ## Maps and wrapped children -/

theorem mapped_ok {id : ObjectId} (hv : Visits I Done meaning compile id) {f : Option Schema → Option Schema}
    {outcome : Option Schema} (h : run (f <$> compile id) walk = (.ok outcome, after)) :
    I walk after ∧ (meaning id).map f = some outcome ∧ Done id after := by
  obtain ⟨inner, hc, rfl⟩ := run_map_ok h
  obtain ⟨hi, hm, hd⟩ := hv _ _ _ hc
  exact ⟨hi, Option.map_eq_some_iff.2 ⟨inner, hm, rfl⟩, hd⟩

theorem mapped_error (hI : Tracks I Done) {id : ObjectId} {f : Option Schema → Option Schema}
    (h : run (f <$> compile id) walk = (.error e, after)) : FailsAt I compile [id] walk e after :=
  ⟨id, List.mem_singleton_self id, walk, hI.refl walk, run_map_error h⟩

theorem map_ok (hI : Tracks I Done) {setting : Setting} {node : ObjectNode} {key value : ObjectId}
    (hv : setting.graph.acceptsKey setting.options.dictionaryKeys key = true →
      Visits I Done meaning compile value) {outcome : Option Schema}
    (h : run (map setting compile node key value) walk = (.ok outcome, after)) :
    I walk after ∧
      (∃ keyNode, setting.graph.get? key = some keyNode ∧
        Translation.map meaning setting node keyNode value = some outcome) ∧
      (setting.graph.acceptsKey setting.options.dictionaryKeys key = true → Done value after) := by
  obtain ⟨keyNode, mid, hk, hr⟩ := run_bind_ok h
  obtain ⟨hkey, rfl⟩ := Walk.run_node_ok hk
  rw [TypeGraph.acceptsKey_eq hkey] at hv ⊢
  cases hs : hasStringKeys keyNode with
  | true =>
    simp only [hs, if_true] at hr
    obtain ⟨hi, hm, hd⟩ := mapped_ok (hv (by simp [hs])) hr
    exact ⟨hi, ⟨keyNode, hkey, by simpa [Translation.map, hs] using hm⟩, fun _ => hd⟩
  | false =>
    simp only [hs, Bool.false_eq_true, if_false] at hr
    cases hmode : setting.options.dictionaryKeys with
    | loose =>
      simp only [hmode] at hr
      obtain ⟨inner, hc, rfl⟩ := run_map_ok hr
      obtain ⟨hi, hm, hd⟩ := mapped_ok (hv (by simp [hmode, KeyMode.acceptsAnyKey])) hc
      refine ⟨hi, ⟨keyNode, hkey, ?_⟩, fun _ => hd⟩
      obtain ⟨schema, hsch, rfl⟩ := Option.map_eq_some_iff.1 hm
      simp [Translation.map, hs, hmode, hsch, Function.comp_def]
    | strict =>
      simp only [hmode] at hr
      obtain ⟨schema, hu, rfl⟩ := run_map_ok hr
      rw [Walk.run_unsupported] at hu
      cases hu
      exact ⟨hI.note _ _, ⟨keyNode, hkey, by simp [Translation.map, hs, hmode]⟩,
        fun hf => by simp [KeyMode.acceptsAnyKey] at hf⟩
    | silent =>
      simp only [hmode] at hr
      obtain ⟨hi, hm, hd⟩ := mapped_ok (hv (by simp [hmode, KeyMode.acceptsAnyKey])) hr
      exact ⟨hi, ⟨keyNode, hkey, by simpa [Translation.map, hs, hmode] using hm⟩, fun _ => hd⟩
    | skip =>
      simp only [hmode] at hr
      obtain ⟨rfl, rfl⟩ := run_pure_ok hr
      exact ⟨hI.refl _, ⟨keyNode, hkey, by simp [Translation.map, hs, hmode]⟩,
        fun hf => by simp [KeyMode.acceptsAnyKey] at hf⟩

theorem map_error (hI : Tracks I Done) {setting : Setting} {node : ObjectNode} {key value : ObjectId}
    (hkey : setting.graph.Contains key)
    (h : run (map setting compile node key value) walk = (.error e, after)) :
    setting.graph.acceptsKey setting.options.dictionaryKeys key = true ∧
      FailsAt I compile [value] walk e after := by
  obtain ⟨keyNode, hget⟩ := TypeGraph.get?_of_contains hkey
  rw [TypeGraph.acceptsKey_eq hget]
  rcases run_bind_error h with hk | ⟨found, mid, hk, hr⟩
  · rw [Walk.run_node, TypeGraph.get_eq_ok_iff.2 hget] at hk
    cases hk
  · obtain ⟨hfound, rfl⟩ := Walk.run_node_ok hk
    cases hget.symm.trans hfound
    cases hs : hasStringKeys keyNode with
    | true =>
      simp only [hs, if_true] at hr
      exact ⟨rfl, mapped_error hI hr⟩
    | false =>
      simp only [hs, Bool.false_eq_true, if_false] at hr
      cases hmode : setting.options.dictionaryKeys with
      | loose =>
        simp only [hmode] at hr
        exact ⟨rfl, mapped_error hI (run_map_error hr)⟩
      | strict =>
        simp only [hmode] at hr
        have hu := run_map_error hr
        rw [Walk.run_unsupported] at hu
        cases hu
      | silent =>
        simp only [hmode] at hr
        exact ⟨rfl, mapped_error hI hr⟩
      | skip =>
        simp only [hmode] at hr
        exact (run_pure_not_error hr).elim

/-! ## Layers -/

/-- **One level.** A layer that succeeds keeps what its children keep, gives what the translation gives for the
meanings of its children, and, unless it is dropped, has visited all the children that its edges go to. -/
theorem layer_ok (hI : Tracks I Done) {setting : Setting} {node : ObjectNode}
    (hv : ∀ id ∈ setting.graph.followed setting.options.dictionaryKeys node, Visits I Done meaning compile id)
    {outcome : Option Schema} (h : run (layer setting compile node) walk = (.ok outcome, after)) :
    I walk after ∧ Translation.layer meaning setting node = some outcome ∧
      (outcome.isSome = true →
        ∀ id ∈ setting.graph.followed setting.options.dictionaryKeys node, Done id after) := by
  unfold layer at h
  unfold TypeGraph.followed at hv ⊢
  unfold Translation.layer
  cases hs : node.shape with
  | system primitive =>
    simp only [hs] at h ⊢
    obtain ⟨rfl, rfl⟩ := run_pure_ok h
    exact ⟨hI.refl _, rfl, by simp⟩
  | override fragment =>
    simp only [hs] at h ⊢
    unfold Translation.rawSchema
    cases hf : Schema.ofFragment fragment with
    | ok schema =>
      simp only [hf] at h ⊢
      obtain ⟨rfl, rfl⟩ := run_pure_ok h
      exact ⟨hI.refl _, rfl, by simp⟩
    | error x =>
      simp only [hf] at h ⊢
      obtain ⟨schema, hu, rfl⟩ := run_map_ok h
      rw [Walk.run_unsupported] at hu
      cases hu
      exact ⟨hI.note _ _, rfl, by simp⟩
  | nullable element =>
    simp only [hs] at h hv ⊢
    obtain ⟨hi, hm, hd⟩ := mapped_ok (hv element (List.mem_singleton_self _)) h
    exact ⟨hi, hm, fun _ => by simpa using hd⟩
  | generic base arguments =>
    simp only [hs] at h ⊢
    obtain ⟨u, mid, hn, h⟩ := run_bind_ok h
    obtain ⟨rfl, rfl⟩ := run_pure_ok h
    rw [Walk.run_note] at hn
    cases hn
    exact ⟨hI.note _ _, rfl, by simp⟩
  | map base key value =>
    simp only [hs] at h hv ⊢
    obtain ⟨hi, ⟨keyNode, hkey, hm⟩, hd⟩ := map_ok hI (fun hacc => hv value (by simp [hacc])) h
    refine ⟨hi, Option.bind_eq_some_iff.2 ⟨keyNode, hkey, hm⟩, fun _ id hid => ?_⟩
    split_ifs at hid with hacc
    · exact List.mem_singleton.1 hid ▸ hd hacc
    · simp at hid
  | array base element =>
    simp only [hs] at h hv ⊢
    obtain ⟨hi, hm, hd⟩ := mapped_ok (hv element (List.mem_singleton_self _)) h
    exact ⟨hi, hm, fun _ => by simpa using hd⟩
  | abstract implementations =>
    simp only [hs] at h hv ⊢
    obtain ⟨schema, hu, rfl⟩ := run_map_ok h
    obtain ⟨hi, ⟨schemas, hm, rfl⟩, hd⟩ := union_ok hI hv hu
    exact ⟨hi, Option.map_eq_some_iff.2 ⟨schemas, hm, rfl⟩, fun _ => hd⟩
  | custom props implements =>
    simp only [hs] at h hv ⊢
    obtain ⟨compiled, mid, hp, h⟩ := run_bind_ok h
    obtain ⟨rfl, rfl⟩ := run_pure_ok h
    obtain ⟨hi, hm, hd⟩ := properties_ok hI hv hp
    exact ⟨hi, Option.map_eq_some_iff.2 ⟨compiled, hm, rfl⟩, fun _ => hd⟩
  | tuple ids =>
    simp only [hs] at h hv ⊢
    obtain ⟨items, he, rfl⟩ := run_map_ok h
    obtain ⟨hi, hm, hd⟩ := elements_ok hI hv he
    exact ⟨hi, Option.map_eq_some_iff.2 ⟨items, hm, rfl⟩, fun hsome => hd (by simpa using hsome)⟩

/-- **Only children fail.** A layer whose node has all its children in the graph fails only where an edge leads
to a child that fails, in a state that the visits before it lead to. -/
theorem layer_error (hI : Tracks I Done) {setting : Setting} {node : ObjectNode}
    (hchildren : ∀ id ∈ node.children, setting.graph.Contains id)
    (hv : ∀ id ∈ setting.graph.followed setting.options.dictionaryKeys node, Visits I Done meaning compile id)
    (h : run (layer setting compile node) walk = (.error e, after)) :
    FailsAt I compile (setting.graph.followed setting.options.dictionaryKeys node) walk e after := by
  unfold layer at h
  unfold ObjectNode.children ObjectShape.children at hchildren
  unfold TypeGraph.followed at hv ⊢
  cases hs : node.shape with
  | system primitive =>
    simp only [hs] at h
    exact (run_pure_not_error h).elim
  | override fragment =>
    simp only [hs] at h
    cases hf : Schema.ofFragment fragment with
    | ok schema => simp only [hf] at h; exact (run_pure_not_error h).elim
    | error x =>
      simp only [hf] at h
      have hu := run_map_error h
      rw [Walk.run_unsupported] at hu
      cases hu
  | nullable element => simp only [hs] at h ⊢; exact mapped_error hI h
  | generic base arguments =>
    simp only [hs] at h
    rcases run_bind_error h with hn | ⟨u, mid, -, h⟩
    · rw [Walk.run_note] at hn
      cases hn
    · exact (run_pure_not_error h).elim
  | map base key value =>
    simp only [hs] at h hchildren ⊢
    obtain ⟨hacc, hf⟩ := map_error hI (hchildren key (by simp [ObjectShape.parts])) h
    rw [if_pos hacc]
    exact hf
  | array base element => simp only [hs] at h ⊢; exact mapped_error hI h
  | abstract implementations =>
    simp only [hs] at h hv ⊢
    rcases run_bind_error (run_map_error h) with ha | ⟨schemas, mid, -, h⟩
    · exact arms_error hI hv ha
    · exact (run_pure_not_error h).elim
  | custom props implements =>
    simp only [hs] at h hv ⊢
    rcases run_bind_error h with hp | ⟨compiled, mid, -, h⟩
    · exact properties_error hI hv hp
    · exact (run_pure_not_error h).elim
  | tuple ids => simp only [hs] at h hv ⊢; exact elements_error hI hv (run_map_error h)

/-! ## Nodes, definitions and references -/

theorem shape_succ {setting : Setting} {room : Nat} {node : ObjectNode} {walk after : Walk}
    {result : Except GraphError (Option Schema)} (h : run (shape setting (room + 1) node) walk = (result, after)) :
    ∃ last, run (layer setting (object setting (shape setting room)) node) { walk with depth := walk.depth + 1 } =
      (result, last) ∧ after = { last with depth := last.depth - 1 } := by
  rw [shape, Walk.run_deeper] at h
  obtain ⟨hr, ha⟩ := Prod.mk.inj h
  exact ⟨_, Prod.ext hr rfl, ha.symm⟩

theorem annotated_ok {compile : Compiler ObjectNode} {node : ObjectNode} {outcome : Option Schema}
    (h : run (annotated compile node) walk = (.ok outcome, after)) :
    ∃ inner, run (compile node) walk = (.ok inner, after) ∧ outcome = inner.map (·.annotate node.metadata) :=
  run_map_ok h

/-- The step with which a reference starts a definition. -/
def reserving (node : ObjectNode) (walk : Walk) : Walk :=
  { walk with definitions := ⟨Members.insert walk.definitions.slots node.identity .reserved⟩ }

theorem run_reference {setting : Setting} {compile : Compiler ObjectNode} {node : ObjectNode} (walk : Walk) :
    run (reference setting compile node) walk =
      if setting.rootIdentity = some node.identity ∨ walk.definitions.contains node.identity = true then
        (.ok (Translation.reference setting node.identity), walk)
      else
        match run (definition compile node) (reserving node walk) with
        | (.ok schema, mid) => (.ok (Translation.reference setting node.identity),
            { mid with definitions := mid.definitions.fill node.identity schema.toJson })
        | (.error e, mid) => (.error e, mid) := by
  unfold reference Translation.reference Translation.link
  by_cases hroot : setting.rootIdentity = some node.identity
  · simp [hroot]
  cases hc : walk.definitions.contains node.identity with
  | true => simp [hroot, Definitions.reserve, hc]
  | false =>
    simp only [hroot, hc, Definitions.reserve, if_false, Walk.run_bind, Walk.run_get, Walk.run_set,
      Bool.false_eq_true, or_self, reserving]
    rcases run (definition compile node) _ with ⟨e | schema, mid⟩ <;> rfl

theorem definition_ok {compile : Compiler ObjectNode} {node : ObjectNode} {schema : Schema}
    (h : run (definition compile node) walk = (.ok schema, after)) :
    ∃ outcome mid, run (compile node) walk = (.ok outcome, mid) ∧ after.definitions = mid.definitions ∧
      ∀ level, outcome = some level → schema = level.annotate node.metadata ∧ after = mid := by
  obtain ⟨outcome, mid, ha, h⟩ := run_bind_ok h
  obtain ⟨inner, hc, rfl⟩ := annotated_ok ha
  refine ⟨inner, mid, hc, ?_⟩
  cases inner with
  | none =>
    rw [Option.map_none, Walk.run_unsupported] at h
    cases h
    exact ⟨rfl, fun level hl => by cases hl⟩
  | some level =>
    obtain ⟨rfl, rfl⟩ := run_pure_ok h
    exact ⟨rfl, fun level' hl => by cases hl; exact ⟨rfl, rfl⟩⟩

theorem definition_error {compile : Compiler ObjectNode} {node : ObjectNode}
    (h : run (definition compile node) walk = (.error e, after)) :
    run (compile node) walk = (.error e, after) := by
  rcases run_bind_error h with ha | ⟨outcome, mid, -, h⟩
  · exact run_map_error ha
  · cases outcome with
    | none =>
      rw [Walk.run_unsupported] at h
      cases h
    | some level => exact (run_pure_not_error h).elim

theorem object_ok {setting : Setting} {compile : Compiler ObjectNode} {id : ObjectId} {outcome : Option Schema}
    (h : run (object setting compile id) walk = (.ok outcome, after)) :
    ∃ node, setting.graph.get? id = some node ∧
      ((node.kind.isDefined = true ∧ ∃ schema, outcome = some schema ∧
          run (reference setting compile node) walk = (.ok schema, after)) ∨
        (node.kind.isDefined = false ∧ ∃ inner, run (compile node) walk = (.ok inner, after) ∧
          outcome = inner.map (·.annotate node.metadata))) := by
  obtain ⟨node, mid, hn, hr⟩ := run_bind_ok h
  obtain ⟨hget, rfl⟩ := Walk.run_node_ok hn
  refine ⟨node, hget, ?_⟩
  cases hd : node.kind.isDefined with
  | true =>
    rw [hd, if_pos rfl] at hr
    obtain ⟨schema, href, rfl⟩ := run_map_ok hr
    exact Or.inl ⟨rfl, schema, rfl, href⟩
  | false =>
    rw [hd, if_neg Bool.false_ne_true] at hr
    exact Or.inr ⟨rfl, annotated_ok hr⟩

theorem object_error {setting : Setting} {compile : Compiler ObjectNode} {id : ObjectId} {node : ObjectNode}
    (hget : setting.graph.get? id = some node)
    (h : run (object setting compile id) walk = (.error e, after)) :
    (node.kind.isDefined = true ∧ run (reference setting compile node) walk = (.error e, after)) ∨
      (node.kind.isDefined = false ∧ run (compile node) walk = (.error e, after)) := by
  rcases run_bind_error h with hn | ⟨found, mid, hn, hr⟩
  · rw [Walk.run_node, TypeGraph.get_eq_ok_iff.2 hget] at hn
    cases hn
  · obtain ⟨hfound, rfl⟩ := Walk.run_node_ok hn
    cases hget.symm.trans hfound
    cases hd : node.kind.isDefined with
    | true =>
      rw [hd, if_pos rfl] at hr
      exact Or.inl ⟨rfl, run_map_error hr⟩
    | false =>
      rw [hd, if_neg Bool.false_ne_true] at hr
      exact Or.inr ⟨rfl, run_map_error hr⟩

end Shape

end GraphSchema
