import Mathlib.Data.List.Forall2
import GraphSchema.Proofs.HashParts

/-!
Hashers abreast: the same calls in a family of graphs.

What a node says of itself, and what its hash comes to, decides nothing on the way of a hasher. So in graphs whose nodes
have the same identities and the same parts all hashers do the same steps, and only the values differ.

- `TypeGraph.Parallel` : such a family.
- `Hasher.Together` says of a family of steps that they all succeed with values of some kind, or all fail with one
  error.
- `Hasher.Carries` : what is known of the values of nodes carries over from the parts of a node to the node.
- `structuralHash_together` : then the hashes of a root go together, and so much is known of their values.
-/

namespace GraphSchema

variable {ι : Type}

/-- a family of graphs in which a position is that of a node in all or in none, with one identity and the same parts -/
def TypeGraph.Parallel (graphs : ι → TypeGraph) : Prop :=
  ∀ id, (∀ i, (graphs i).get? id = none) ∨ ∃ (nodes : ι → ObjectNode) (identity : String) (parts : List ObjectId),
    ∀ i, (graphs i).get? id = some (nodes i) ∧ (nodes i).identity = identity ∧ (nodes i).shape.parts = parts

/-- In lists that are related, each item of the first one has its counterpart. -/
theorem forall₂_right {α β : Type} {R : α → β → Prop} {as : List α} {bs : List β} (h : List.Forall₂ R as bs) {i : Nat}
    {a : α} (ha : as[i]? = some a) : ∃ b, bs[i]? = some b ∧ R a b := by
  obtain ⟨hlt, rfl⟩ := List.getElem?_eq_some_iff.1 ha
  have hlt' : i < bs.length := h.length_eq ▸ hlt
  exact ⟨bs[i], List.getElem?_eq_getElem hlt', (List.forall₂_iff_get.1 h).2 i hlt hlt'⟩

theorem forall₂_left {α β : Type} {R : α → β → Prop} {as : List α} {bs : List β} (h : List.Forall₂ R as bs) {i : Nat}
    {b : β} (hb : bs[i]? = some b) : ∃ a, as[i]? = some a ∧ R a b :=
  forall₂_right (R := flip R) h.flip hb

namespace Hasher

variable {α β κ : Type} {T : (ι → Hasher) → Prop}

/-! ## Steps together -/

/-- From states with `T`, all steps succeed with values that have `V`, or all fail with one error, and they leave states
with `T` behind. -/
def Together (T : (ι → Hasher) → Prop) (steps : ι → HashM α) (V : (ι → α) → Prop) : Prop :=
  ∀ s, T s → ∃ t, T t ∧ ((∃ a, V a ∧ ∀ i, run (steps i) (s i) = (.ok (a i), t i)) ∨
    ∃ e, ∀ i, run (steps i) (s i) = (.error e, t i))

namespace Together

variable {V : (ι → α) → Prop}

theorem pure {a : ι → α} (h : V a) : Together T (fun i => pure (a i)) V :=
  fun s hs => ⟨s, hs, Or.inl ⟨a, h, fun _ => rfl⟩⟩

theorem bind {W : (ι → β) → Prop} {steps : ι → HashM α} {next : ι → α → HashM β} (h : Together T steps V)
    (hnext : ∀ a, V a → Together T (fun i => next i (a i)) W) : Together T (fun i => steps i >>= next i) W := by
  intro s hs
  obtain ⟨t, ht, ⟨a, ha, hrun⟩ | ⟨e, hrun⟩⟩ := h s hs
  · obtain ⟨u, hu, ⟨b, hb, hnextRun⟩ | ⟨e, hnextRun⟩⟩ := hnext a ha t ht
    · refine ⟨u, hu, Or.inl ⟨b, hb, fun i => ?_⟩⟩
      rw [run_bind, hrun i]
      exact hnextRun i
    · refine ⟨u, hu, Or.inr ⟨e, fun i => ?_⟩⟩
      rw [run_bind, hrun i]
      exact hnextRun i
  · refine ⟨t, ht, Or.inr ⟨e, fun i => ?_⟩⟩
    rw [run_bind, hrun i]

theorem map {W : (ι → β) → Prop} {steps : ι → HashM α} (f : ι → α → β) (h : Together T steps V)
    (hf : ∀ a, V a → W fun i => f i (a i)) : Together T (fun i => f i <$> steps i) W := by
  simp only [map_eq_pure_bind]
  exact h.bind fun a ha => pure (hf a ha)

/-- Steps for the items of one list. The values of the family form a column for each item. -/
theorem mapM {f : ι → κ → HashM β} {V : κ → (ι → β) → Prop} {items : List κ}
    (h : ∀ a ∈ items, Together T (fun i => f i a) (V a)) :
    Together T (fun i => items.mapM (f i)) fun rows =>
      ∃ columns, List.Forall₂ V items columns ∧ ∀ i, rows i = columns.map fun column => column i := by
  induction items with
  | nil => exact pure ⟨[], .nil, fun _ => rfl⟩
  | cons a rest ih =>
    simp only [List.mapM_cons]
    refine (h a List.mem_cons_self).bind fun column hcolumn => ?_
    refine (ih fun a ha => h a (List.mem_cons_of_mem _ ha)).bind fun rows hrows => ?_
    obtain ⟨columns, hcolumns, hrow⟩ := hrows
    exact pure ⟨column :: columns, .cons hcolumn hcolumns, fun i => congrArg (column i :: ·) (hrow i)⟩

end Together

/-! ## Calls together -/

/-- hashers that are inside of the same nodes and remember the same others, of each a family of values with `G` -/
structure Abreast (G : ObjectId → (ι → UInt64) → Prop) (active : List ObjectId) (s : ι → Hasher) : Prop where
  marks : ∀ i, (s i).active = active
  memory : ∀ id, (∀ i, List.lookup id (s i).finished = none) ∨
    (id ∉ active ∧ ∃ values, G id values ∧ ∀ i, List.lookup id (s i).finished = some (values i))

/-- What a call answers: for a node that it is inside of, one value in all graphs. -/
def Answer (G : ObjectId → (ι → UInt64) → Prop) (active : List ObjectId) (id : ObjectId) (values : ι → UInt64) : Prop :=
  (id ∈ active ∧ ∃ value, ∀ i, values i = value) ∨ (id ∉ active ∧ G id values)

variable {graphs : ι → TypeGraph} {G : ObjectId → (ι → UInt64) → Prop} {active : List ObjectId} {s : ι → Hasher}
  {id : ObjectId}

theorem Abreast.fresh (G : ObjectId → (ι → UInt64) → Prop) : Abreast G [] fun _ => {} :=
  ⟨fun _ => rfl, fun _ => Or.inl fun _ => rfl⟩

/-- A node that is not remembered can be entered. -/
theorem Abreast.enter (h : Abreast G active s) (hnew : ∀ i, List.lookup id (s i).finished = none) [Nonempty ι] :
    Abreast G (id :: active) fun i => { s i with active := id :: (s i).active, depth := (s i).depth + 1 } := by
  refine ⟨fun i => congrArg (id :: ·) (h.marks i), fun other => ?_⟩
  rcases h.memory other with hnone | ⟨houtside, values, hvalues, hfound⟩
  · exact Or.inl hnone
  · refine Or.inr ⟨fun hmem => ?_, values, hvalues, hfound⟩
    rcases List.mem_cons.1 hmem with rfl | hmem
    · obtain ⟨i⟩ := ‹Nonempty ι›
      exact absurd ((hnew i).symm.trans (hfound i)) (Option.some_ne_none _).symm
    · exact houtside hmem

/-- A node that was entered is left again. -/
theorem Abreast.leave (h : Abreast G (id :: active) s) :
    Abreast G active fun i => { s i with active := (s i).active.erase id, depth := (s i).depth - 1 } := by
  refine ⟨fun i => ?_, fun other => (h.memory other).imp_right ?_⟩
  · dsimp only
    rw [h.marks i, List.erase_cons_head]
  · rintro ⟨houtside, hvalues⟩
    exact ⟨fun hmem => houtside (List.mem_cons_of_mem _ hmem), hvalues⟩

theorem Abreast.store (h : Abreast G active s) (houtside : id ∉ active) {values : ι → UInt64} (hvalues : G id values) :
    Abreast G active fun i => { s i with finished := (id, values i) :: (s i).finished } := by
  refine ⟨h.marks, fun other => ?_⟩
  by_cases heq : other = id
  · subst heq
    exact Or.inr ⟨houtside, values, hvalues, fun i => by rw [List.lookup_cons_self]⟩
  · have hlookup : ∀ i, List.lookup other ((id, values i) :: (s i).finished) = List.lookup other (s i).finished := by
      intro i
      rw [List.lookup_cons, beq_eq_false_iff_ne.2 heq]
    simp only [hlookup]
    exact h.memory other

/-- What is known of the values of nodes carries over from parts to nodes. `C` says of the nodes that a call is inside of
how they lead to the one that it comes to. -/
structure Carries (graphs : ι → TypeGraph) (C : List ObjectId → ObjectId → Prop) (G : ObjectId → (ι → UInt64) → Prop) :
    Prop where
  parallel : TypeGraph.Parallel graphs
  down : ∀ active id (nodes : ι → ObjectNode) part, C active id → id ∉ active →
    (∀ i, (graphs i).get? id = some (nodes i)) → (∀ i, part ∈ (nodes i).shape.parts) → C (id :: active) part
  node : ∀ active id (nodes : ι → ObjectNode) parts columns, C active id → id ∉ active →
    (∀ i, (graphs i).get? id = some (nodes i)) → (∀ i, (nodes i).shape.parts = parts) →
    List.Forall₂ (Answer G (id :: active)) parts columns →
    G id fun i => (nodes i).combine (columns.map fun column => column i)

/-- The parts of a node are hashed in order, and its value is made of their answers. -/
theorem node_together {C : List ObjectId → ObjectId → Prop} (hcarries : Carries graphs C G) {nodes : ι → ObjectNode}
    {parts : List ObjectId} (h : C active id) (hnew : id ∉ active) (hget : ∀ i, (graphs i).get? id = some (nodes i))
    (hparts : ∀ i, (nodes i).shape.parts = parts) {hash : ι → ObjectId → HashM UInt64}
    (hhash : ∀ part ∈ parts, C (id :: active) part →
      Together (Abreast G (id :: active)) (fun i => hash i part) (Answer G (id :: active) part)) :
    Together (Abreast G (id :: active)) (fun i => node (hash i) (nodes i)) (G id) := by
  simp only [node_eq, hparts]
  refine (Together.mapM (V := Answer G (id :: active)) fun part hpart => ?_).map (fun i => (nodes i).combine) ?_
  · refine hhash part hpart (hcarries.down active id nodes part h hnew hget fun i => ?_)
    rwa [hparts i]
  · rintro rows ⟨columns, hcolumns, hrow⟩
    simp only [hrow]
    exact hcarries.node active id nodes parts columns h hnew hget hparts hcolumns

/-- If the steps of a node go together, so do calls that enter it. -/
theorem inside_together [Nonempty ι] {nodes : ι → ObjectNode} {limit room : Nat} (hs : Abreast G active s)
    (hnone : ∀ i, List.lookup id (s i).finished = none) (hget : ∀ i, (graphs i).get? id = some (nodes i))
    (hnew : id ∉ active)
    (hnode : Together (Abreast G (id :: active)) (fun i => node (object (graphs i) limit room) (nodes i)) (G id)) :
    ∃ t, Abreast G active t ∧
      ((∃ values, G id values ∧ ∀ i, run (object (graphs i) limit (room + 1) id) (s i) = (.ok (values i), t i)) ∨
        ∃ e, ∀ i, run (object (graphs i) limit (room + 1) id) (s i) = (.error e, t i)) := by
  have hrun := fun i => run_object_inside limit room (hnone i) (hget i) (hs.marks i ▸ hnew)
  obtain ⟨t, ht, ⟨values, hvalues, hinner⟩ | ⟨e, hinner⟩⟩ := hnode _ (hs.enter hnone)
  · refine ⟨_, ht.leave.store hnew hvalues, Or.inl ⟨values, hvalues, fun i => ?_⟩⟩
    have hentered := hinner i
    dsimp only at hentered
    rw [hrun i, run_inside]
    dsimp only
    rw [hentered]
  · refine ⟨_, ht.leave, Or.inr ⟨e, fun i => ?_⟩⟩
    have hentered := hinner i
    dsimp only at hentered
    rw [hrun i, run_inside]
    dsimp only
    rw [hentered]

/-- **Together.** Calls for one node in graphs of a family all answer, or all fail with one error. -/
theorem object_together [Nonempty ι] {C : List ObjectId → ObjectId → Prop} (hcarries : Carries graphs C G)
    (limit room : Nat) (h : C active id) :
    Together (Abreast G active) (fun i => object (graphs i) limit room id) (Answer G active id) := by
  induction room generalizing id active with
  | zero =>
    intro s hs
    rcases hs.memory id with hnone | ⟨houtside, values, hvalues, hfound⟩
    · rcases hcarries.parallel id with hmissing | ⟨nodes, identity, parts, hnodes⟩
      · exact ⟨s, hs, Or.inr ⟨.danglingNode "<graph>" id, fun i => by rw [run_object, hnone i, hmissing i]⟩⟩
      · refine ⟨s, hs, Or.inr ⟨.depthExceeded limit identity, fun i => ?_⟩⟩
        rw [run_object, hnone i, (hnodes i).1, ← (hnodes i).2.1]
    · exact ⟨s, hs, Or.inl ⟨values, Or.inr ⟨houtside, hvalues⟩, fun i => by rw [run_object, hfound i]⟩⟩
  | succ room ih =>
    intro s hs
    rcases hs.memory id with hnone | ⟨houtside, values, hvalues, hfound⟩
    · rcases hcarries.parallel id with hmissing | ⟨nodes, identity, parts, hnodes⟩
      · exact ⟨s, hs, Or.inr ⟨.danglingNode "<graph>" id, fun i => by rw [run_object, hnone i, hmissing i]⟩⟩
      · have hget : ∀ i, (graphs i).get? id = some (nodes i) := fun i => (hnodes i).1
        -- all hashers are inside of the same nodes, so either all count the node by its identity or all enter it
        by_cases hactive : id ∈ active
        · refine ⟨s, hs, Or.inl ⟨fun _ => cycleHash identity, Or.inl ⟨hactive, _, fun _ => rfl⟩, fun i => ?_⟩⟩
          rw [run_object, hnone i, hget i]
          dsimp only
          rw [if_pos (by rwa [hs.marks i, List.contains_iff_mem]), (hnodes i).2.1]
        · have hnode := node_together hcarries h hactive hget (fun i => (hnodes i).2.2) fun part _ hpart => ih hpart
          obtain ⟨t, ht, hruns⟩ := inside_together hs hnone hget hactive hnode
          exact ⟨t, ht, hruns.imp_left fun ⟨values, hvalues, hrun⟩ => ⟨values, Or.inr ⟨hactive, hvalues⟩, hrun⟩⟩
    · exact ⟨s, hs, Or.inl ⟨values, Or.inr ⟨houtside, hvalues⟩, fun i => by rw [run_object, hfound i]⟩⟩

end Hasher

/-- The hashes of a root, in a family of graphs: all are there, with what is known of the values of nodes, or all fail
with one error. -/
theorem structuralHash_together [Nonempty ι] {graphs : ι → TypeGraph} {C : List ObjectId → ObjectId → Prop}
    {G : ObjectId → (ι → UInt64) → Prop} (h : Hasher.Carries graphs C G) {root : ObjectId} (hroot : C [] root)
    (limit : Nat) :
    (∃ values, G root values ∧ ∀ i, (graphs i).structuralHash root limit = .ok (values i)) ∨
      ∃ e, ∀ i, (graphs i).structuralHash root limit = .error e := by
  have hrun : ∀ i, (graphs i).structuralHash root limit =
      (Hasher.run (Hasher.object (graphs i) limit limit root) {}).1 := by
    intro i
    rw [TypeGraph.structuralHash, Hasher.run_hashObject rfl]
  obtain ⟨t, -, ⟨values, hanswer, hvalues⟩ | ⟨e, herror⟩⟩ :=
    Hasher.object_together h limit limit hroot _ (Hasher.Abreast.fresh G)
  · refine Or.inl ⟨values, ?_, fun i => by rw [hrun i, hvalues i]⟩
    exact hanswer.elim (fun hactive => absurd hactive.1 List.not_mem_nil) (·.2)
  · exact Or.inr ⟨e, fun i => by rw [hrun i, herror i]⟩

end GraphSchema
