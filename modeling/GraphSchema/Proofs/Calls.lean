import GraphSchema.Proofs.Drops

/-!
The calls that one layer makes.

- `Shape.Calls` : the tables before and after children were compiled, one by one and in order.
- `Shape.layer_calls` : a layer that succeeds calls the children that its edges go to, each in its turn, unless one of
  them is dropped.
- `Shape.object_kept` : only one mode drops anything.
-/

namespace GraphSchema.Shape

open Walk (run run_bind_ok run_map_ok run_pure_ok)

/-- The tables before and after children were compiled, one by one. In between, only diagnostics were recorded. -/
inductive Calls (compile : Compiler ObjectId) : List ObjectId → Definitions → Definitions → Prop
  | nil (table : Definitions) : Calls compile [] table table
  | cons {id : ObjectId} {rest : List ObjectId} {walk after : Walk} {outcome : Option Schema} {table : Definitions}
    (hcall : run (compile id) walk = (.ok outcome, after)) (hothers : Calls compile rest after.definitions table) :
    Calls compile (id :: rest) walk.definitions table

variable {compile : Compiler ObjectId} {walk after : Walk}

theorem Calls.append {front back : List ObjectId} {a b c : Definitions} (h : Calls compile front a b)
    (hback : Calls compile back b c) : Calls compile (front ++ back) a c := by
  induction h with
  | nil => exact hback
  | cons hcall _ ih => exact .cons hcall (ih hback)

theorem Calls.single {id : ObjectId} {outcome : Option Schema}
    (h : run (compile id) walk = (.ok outcome, after)) : Calls compile [id] walk.definitions after.definitions :=
  .cons h (.nil _)

theorem Calls.mapped {id : ObjectId} {f : Option Schema → Option Schema} {outcome : Option Schema}
    (h : run (f <$> compile id) walk = (.ok outcome, after)) :
    Calls compile [id] walk.definitions after.definitions := by
  obtain ⟨inner, hcall, -⟩ := run_map_ok h
  exact .single hcall

/-- A marker is made without a call. -/
theorem Calls.marker {identity message : String} {outcome : Option Schema}
    (h : run (some <$> Walk.unsupported identity message) walk = (.ok outcome, after)) :
    Calls compile [] walk.definitions after.definitions := by
  obtain ⟨schema, hu, -⟩ := run_map_ok h
  rw [Walk.run_unsupported] at hu
  cases hu
  exact .nil _

/-- What the calls one by one keep of the table, they keep together. -/
theorem Calls.keep {I : Definitions → Definitions → Prop} (hrefl : ∀ table, I table table)
    (htrans : ∀ {a b c}, I a b → I b c → I a c) {ids : List ObjectId} {a b : Definitions} (h : Calls compile ids a b)
    (hcall : ∀ id ∈ ids, ∀ walk outcome after, run (compile id) walk = (.ok outcome, after) →
      I walk.definitions after.definitions) : I a b := by
  induction h with
  | nil => exact hrefl _
  | cons hfirstCall _ ih =>
    have hfirst := hcall _ List.mem_cons_self _ _ _ hfirstCall
    exact htrans hfirst (ih fun id hid => hcall id (List.mem_cons_of_mem _ hid))

/-- A child is kept if no call of it comes to nothing. -/
def Kept (compile : Compiler ObjectId) (id : ObjectId) : Prop :=
  ∀ walk after, run (compile id) walk ≠ (.ok none, after)

theorem elements_calls {ids : List ObjectId} (hkept : ∀ id ∈ ids, Kept compile id) {outcome : Option (List Json)}
    (h : run (elements compile ids) walk = (.ok outcome, after)) :
    Calls compile ids walk.definitions after.definitions := by
  induction ids generalizing walk after outcome with
  | nil =>
    obtain ⟨-, rfl⟩ := run_pure_ok h
    exact .nil _
  | cons id rest ih =>
    obtain ⟨first, mid, hfirst, h⟩ := run_bind_ok h
    cases first with
    | none => exact absurd hfirst (hkept id List.mem_cons_self _ _)
    | some schema =>
      obtain ⟨others, last, hothers, h⟩ := run_bind_ok h
      have hafter : after = last := by cases others <;> exact (run_pure_ok h).2
      subst hafter
      exact .cons hfirst (ih (fun id hid => hkept id (List.mem_cons_of_mem _ hid)) hothers)

theorem arms_calls {ids : List ObjectId} {schemas : List Json}
    (h : run (arms compile ids) walk = (.ok schemas, after)) :
    Calls compile ids walk.definitions after.definitions := by
  induction ids generalizing walk schemas with
  | nil =>
    obtain ⟨-, rfl⟩ := run_pure_ok h
    exact .nil _
  | cons id rest ih =>
    obtain ⟨first, mid, hfirst, h⟩ := run_bind_ok h
    obtain ⟨others, last, hothers, h⟩ := run_bind_ok h
    obtain ⟨-, rfl⟩ := run_pure_ok h
    exact .cons hfirst (ih hothers)

theorem property_calls {owner : String} {p : Property} {outcome : Option Schema}
    (h : run (property compile owner p) walk = (.ok outcome, after)) :
    Calls compile p.member?.toList walk.definitions after.definitions := by
  unfold property at h
  unfold Property.member?
  cases hs : p.shape with
  | override fragment =>
    simp only [hs] at h
    cases hf : Schema.ofFragment fragment with
    | ok schema =>
      simp only [hf] at h
      obtain ⟨-, rfl⟩ := run_pure_ok h
      exact .nil _
    | error x =>
      simp only [hf] at h
      exact .marker h
  | custom member default =>
    simp only [hs] at h
    obtain ⟨first, mid, hfirst, h⟩ := run_bind_ok h
    have hafter : after = mid := by cases first <;> exact (run_pure_ok h).2
    subst hafter
    exact .single hfirst

theorem properties_calls {owner : String} {props : List Property} {compiled : List (Property × Schema)}
    (h : run (properties compile owner props) walk = (.ok compiled, after)) :
    Calls compile (props.filterMap Property.member?) walk.definitions after.definitions := by
  induction props generalizing walk compiled with
  | nil =>
    obtain ⟨-, rfl⟩ := run_pure_ok h
    exact .nil _
  | cons p rest ih =>
    obtain ⟨first, mid, hfirst, h⟩ := run_bind_ok h
    obtain ⟨others, last, hothers, h⟩ := run_bind_ok h
    obtain ⟨-, rfl⟩ := run_pure_ok h
    have hsplit : (p :: rest).filterMap Property.member? = p.member?.toList ++ rest.filterMap Property.member? := by
      rw [List.filterMap_cons]
      cases p.member? <;> rfl
    rw [hsplit]
    exact (property_calls hfirst).append (ih hothers)

theorem map_calls {setting : Setting} {node : ObjectNode} {key value : ObjectId} {outcome : Option Schema}
    (h : run (map setting compile node key value) walk = (.ok outcome, after)) :
    Calls compile (if setting.graph.acceptsKey setting.options.dictionaryKeys key then [value] else [])
      walk.definitions after.definitions := by
  obtain ⟨keyNode, mid, hnode, hrest⟩ := run_bind_ok h
  obtain ⟨hget, rfl⟩ := Walk.run_node_ok hnode
  rw [TypeGraph.acceptsKey_eq hget]
  cases hs : hasStringKeys keyNode with
  | true =>
    simp only [hs, if_true] at hrest
    exact .mapped hrest
  | false =>
    simp only [hs, Bool.false_eq_true, if_false] at hrest
    cases hmode : setting.options.dictionaryKeys with
    | loose =>
      simp only [hmode] at hrest
      obtain ⟨inner, hplain, -⟩ := run_map_ok hrest
      exact .mapped hplain
    | strict =>
      simp only [hmode] at hrest
      exact .marker hrest
    | silent =>
      simp only [hmode] at hrest
      exact .mapped hrest
    | skip =>
      simp only [hmode] at hrest
      obtain ⟨-, rfl⟩ := run_pure_ok hrest
      exact .nil _

/-- **Calls.** A layer that succeeds calls the children that its edges go to, each in its turn, and does no more to the
table, unless one of them is dropped. -/
theorem layer_calls {setting : Setting} {node : ObjectNode}
    (hkept : ∀ id ∈ setting.graph.followed setting.options.dictionaryKeys node, Kept compile id)
    {outcome : Option Schema} (h : run (layer setting compile node) walk = (.ok outcome, after)) :
    Calls compile (setting.graph.followed setting.options.dictionaryKeys node) walk.definitions after.definitions := by
  unfold layer at h
  unfold TypeGraph.followed at hkept ⊢
  cases hs : node.shape with
  | system primitive =>
    simp only [hs] at h ⊢
    obtain ⟨-, rfl⟩ := run_pure_ok h
    exact .nil _
  | override fragment =>
    simp only [hs] at h ⊢
    cases hf : Schema.ofFragment fragment with
    | ok schema =>
      simp only [hf] at h
      obtain ⟨-, rfl⟩ := run_pure_ok h
      exact .nil _
    | error x =>
      simp only [hf] at h
      exact .marker h
  | nullable element =>
    simp only [hs] at h ⊢
    exact .mapped h
  | array base element =>
    simp only [hs] at h ⊢
    exact .mapped h
  | generic base arguments =>
    simp only [hs] at h ⊢
    obtain ⟨u, mid, hn, h⟩ := run_bind_ok h
    obtain ⟨-, rfl⟩ := run_pure_ok h
    rw [Walk.run_note] at hn
    cases hn
    exact .nil _
  | map base key value =>
    simp only [hs] at h ⊢
    exact map_calls h
  | abstract implementations =>
    simp only [hs] at h ⊢
    obtain ⟨schema, hu, -⟩ := run_map_ok h
    obtain ⟨schemas, mid, ha, h⟩ := run_bind_ok hu
    obtain ⟨-, rfl⟩ := run_pure_ok h
    exact arms_calls ha
  | custom props implements =>
    simp only [hs] at h ⊢
    obtain ⟨compiled, mid, hp, h⟩ := run_bind_ok h
    obtain ⟨-, rfl⟩ := run_pure_ok h
    exact properties_calls hp
  | tuple ids =>
    simp only [hs] at h hkept ⊢
    obtain ⟨items, he, -⟩ := run_map_ok h
    exact elements_calls hkept he

/-- Only one mode drops anything. -/
theorem object_kept {setting : Setting} (hmode : setting.options.dictionaryKeys ≠ .skip) (room : Nat) (id : ObjectId) :
    Kept (object setting (shape setting room)) id := by
  intro walk after h
  exact hmode ((object_dropped_iff h).1 rfl).1

end GraphSchema.Shape
