import Mathlib
import GraphSchema.Proofs.Abreast
import GraphSchema.Proofs.Annotations
import GraphSchema.Proofs.Restoring
import GraphSchema.Proofs.Weights

/-!
Equal graphs and their hashes.

Values are equal whatever the order of their members, but examples are hashed by their texts, and these keep the order. So
equality decides a hash but for what it overlooks in examples: the order of members and the sign of zero.

- `Json.inOrder` : the rest of equality. `Json.eq_of_alike` : nothing else is overlooked.
- `Metadata.structuralHash_eq_iff` : of equal records, the texts of the examples decide.
- `equal_graphs_hash` : equal graphs fail with one error; where the examples that are reached are in order, they have one
  hash. `equal_graphs_differ` : where they are not, they may have two.
-/

namespace GraphSchema

/-! ## What equality of values overlooks -/

/-- whether both are the positive zero, or neither is -/
def Number.sameZero : Number → Number → Bool
  | .real x, .real y => decide (x = 0) == decide (y = 0)
  | _, _ => true

theorem Number.eq_of_alike {a b : Number} (h : a.alike b = true) (hzero : a.sameZero b = true) : a = b := by
  cases a with
  | int m =>
    cases b with
    | int n => exact congrArg _ (beq_iff_eq.1 h)
    | real y => cases h
  | real x =>
    cases b with
    | int n => cases h
    | real y =>
      obtain ⟨-, -, heq | ⟨hx, hy⟩ | ⟨hx, hy⟩⟩ := Float.beq_iff_ne_nan_and_eq.1 h
      · exact congrArg _ heq
      · subst hx hy
        exact absurd hzero (by decide +kernel)
      · subst hx hy
        exact absurd hzero (by decide +kernel)

namespace Json

mutual

/-- Whether two values write their members in the same order, and zeros with the same sign, at every depth. -/
def inOrder : Json → Json → Bool
  | .num a, .num b => a.sameZero b
  | .arr as, .arr bs => inOrderItems as bs
  | .obj as, .obj bs => inOrderMembers as bs
  | _, _ => true

def inOrderItems : List Json → List Json → Bool
  | a :: as, b :: bs => inOrder a b && inOrderItems as bs
  | _, _ => true

def inOrderMembers : List (String × Json) → List (String × Json) → Bool
  | [], [] => true
  | (key, a) :: as, (other, b) :: bs => key == other && inOrder a b && inOrderMembers as bs
  | _, _ => false

end

theorem Collapsed.item {items : List Json} (h : (Json.arr items).Collapsed) {item : Json} (hmem : item ∈ items) :
    item.Collapsed := by
  rw [Collapsed, collapse, Json.arr.injEq] at h
  exact collapsed_items items item (h.symm ▸ hmem)

theorem Collapsed.nodup_keys {members : List (String × Json)} (h : (Json.obj members).Collapsed) :
    (Members.keys members).Nodup := by
  rw [Collapsed, collapse, Json.obj.injEq] at h
  exact h ▸ Members.nodup_keys_ofList _

theorem Collapsed.member {members : List (String × Json)} (h : (Json.obj members).Collapsed) {entry : String × Json}
    (hmem : entry ∈ members) : entry.2.Collapsed := by
  rw [Collapsed, collapse, Json.obj.injEq] at h
  rw [← h] at hmem
  rcases Members.mem_insertAll hmem with hnone | hmem
  · cases hnone
  · exact collapsed_members members entry hmem

mutual

/-- **Equality and order.** Equal values whose members are in the same order are the same, if no key is repeated. -/
theorem eq_of_alike {a b : Json} (h : a.alike b = true) (horder : a.inOrder b = true) (hb : b.Collapsed) : a = b := by
  match a, b with
  | .null, .null => rfl
  | .bool x, .bool y => exact congrArg _ (beq_iff_eq.1 h)
  | .str x, .str y => exact congrArg _ (beq_iff_eq.1 h)
  | .num x, .num y => exact congrArg _ (Number.eq_of_alike h horder)
  | .arr as, .arr bs => exact congrArg _ (eq_of_alikeItems h horder fun item hitem => hb.item hitem)
  | .obj as, .obj bs =>
    have halike := (Bool.and_eq_true_iff.1 h).2
    exact congrArg _ (eq_of_alikeMembers hb.nodup_keys halike horder (fun _ hmem => hmem) fun _ hmem => hb.member hmem)

theorem eq_of_alikeItems {as bs : List Json} (h : alikeItems as bs = true) (horder : inOrderItems as bs = true)
    (hbs : ∀ b ∈ bs, b.Collapsed) : as = bs := by
  match as, bs with
  | [], [] => rfl
  | a :: as, b :: bs =>
    obtain ⟨ha, has⟩ := Bool.and_eq_true_iff.1 h
    obtain ⟨hfirst, hrest⟩ := Bool.and_eq_true_iff.1 horder
    obtain ⟨hb, hbs⟩ := List.forall_mem_cons.1 hbs
    rw [eq_of_alike ha hfirst hb, eq_of_alikeItems has hrest hbs]

/-- Members have their counterparts among all members of the other object, and these are where the order says. -/
theorem eq_of_alikeMembers {as bs all : List (String × Json)} (hall : (Members.keys all).Nodup)
    (h : alikeMembers as all = true) (horder : inOrderMembers as bs = true) (hbs : ∀ entry ∈ bs, entry ∈ all)
    (hcollapsed : ∀ entry ∈ bs, entry.2.Collapsed) : as = bs := by
  match as, bs with
  | [], [] => rfl
  | (key, a) :: as, (other, b) :: bs =>
    obtain ⟨ha, has⟩ := Bool.and_eq_true_iff.1 h
    obtain ⟨hfirst, hrest⟩ := Bool.and_eq_true_iff.1 horder
    obtain ⟨hkey, hvalue⟩ := Bool.and_eq_true_iff.1 hfirst
    obtain rfl := beq_iff_eq.1 hkey
    obtain ⟨hmem, hbs⟩ := List.forall_mem_cons.1 hbs
    obtain ⟨hb, hcollapsed⟩ := List.forall_mem_cons.1 hcollapsed
    -- no key is repeated, so the counterpart that equality found under the key is the member in this place
    rw [(Members.get?_eq_some_iff hall).2 hmem] at ha
    rw [eq_of_alike ha hvalue hb, eq_of_alikeMembers hall has hrest hbs hcollapsed]

end

end Json

/-! ## Records -/

namespace Metadata

/-- equality of records, under which values are equal whatever the order of their members -/
def alike (a b : Metadata) : Bool :=
  a.title == b.title && a.description == b.description && Json.alikeItems a.examples b.examples &&
    a.comment == b.comment && a.deprecated == b.deprecated

/-- equality of records that may be missing -/
abbrev Equal : Option Metadata → Option Metadata → Prop :=
  Option.Rel fun a b => a.alike b = true

/-- what equality overlooks, of records that may be missing -/
abbrev InOrder : Option Metadata → Option Metadata → Prop :=
  Option.Rel fun a b => Json.inOrderItems a.examples b.examples = true

/-- the hashes of the texts of the examples -/
def exampleHashes (m : Metadata) : List UInt64 :=
  m.examples.map fun value => Hash.ofText value.compact

variable {a b : Metadata}

/-- Of equal records, the texts of the examples decide whether the hashes are equal. -/
theorem structuralHash_eq_iff (h : a.alike b = true) :
    a.structuralHash = b.structuralHash ↔ Hash.ofOrdered a.exampleHashes = Hash.ofOrdered b.exampleHashes := by
  simp only [alike, Bool.and_eq_true, beq_iff_eq] at h
  obtain ⟨⟨⟨⟨htitle, hdescription⟩, -⟩, hcomment⟩, hdeprecated⟩ := h
  unfold structuralHash
  rw [htitle, hdescription, hcomment, hdeprecated]
  exact Hash.ofOrdered_eq_iff [_, _] [_, _] _ _

theorem structuralHash_eq (h : a.alike b = true) (horder : Json.inOrderItems a.examples b.examples = true)
    (hb : ∀ value ∈ b.examples, value.Collapsed) : a.structuralHash = b.structuralHash := by
  refine (structuralHash_eq_iff h).2 ?_
  simp only [alike, Bool.and_eq_true] at h
  rw [exampleHashes, exampleHashes, Json.eq_of_alikeItems h.1.1.2 horder hb]

end Metadata

/-! ## Nodes -/

section Nodes

variable {M N K : Option Metadata → Option Metadata → Prop} {m n : ObjectNode}

/-- Where metadata are related in two ways, they are so in a third way, if the examples of the second node allow. -/
theorem ObjectNode.Alike.join (h : m.Alike M n) (h' : m.Alike N n)
    (hK : ∀ a b, Metadata.examplesOf b ⊆ n.examples → M a b → N a b → K a b) : m.Alike K n := by
  obtain ⟨identity, metadata, shape⟩ := m
  obtain ⟨identity', metadata', shape'⟩ := n
  refine ⟨h.identity, hK _ _ (List.subset_append_left ..) h.metadata h'.metadata, ?_⟩
  cases h.shape with
  | same shape hother => exact .same shape hother
  | @custom ps qs implements hproperties =>
    cases h'.shape with
    | same shape hother => exact absurd rfl hother
    | custom implements hproperties' =>
      refine .custom implements (List.forall₂_iff_get.2 ⟨hproperties.length_eq, fun i hi hj => ?_⟩)
      have hleft := (List.forall₂_iff_get.1 hproperties).2 i hi hj
      have hright := (List.forall₂_iff_get.1 hproperties').2 i hi hj
      have hexamples : Metadata.examplesOf (qs.get ⟨i, hj⟩).metadata ⊆ (ObjectShape.custom qs implements).examples :=
        fun value hvalue => List.mem_flatMap.2 ⟨_, List.get_mem qs ⟨i, hj⟩, hvalue⟩
      refine ⟨hleft.name, hK _ _ ?_ hleft.metadata hright.metadata, hleft.nullability, hleft.shape⟩
      exact List.Subset.trans hexamples (List.subset_append_right ..)

/-- two records, of which any may be missing, with one hash -/
def Metadata.SameHash (a b : Option Metadata) : Prop :=
  structuralHash? a = structuralHash? b

theorem Property.Alike.combine {p q : Property} (h : p.Alike Metadata.SameHash q) : p.combine = q.combine := by
  have hmetadata : Metadata.structuralHash? p.metadata = Metadata.structuralHash? q.metadata := h.metadata
  funext member
  unfold Property.combine
  rw [h.name, hmetadata, h.nullability, h.shape]

theorem Property.combineAll_congr {ps qs : List Property} (h : List.Forall₂ (Property.Alike Metadata.SameHash) ps qs)
    (parts : List UInt64) : combineAll ps parts = combineAll qs parts := by
  induction h generalizing parts with
  | nil => rfl
  | @cons p q _ _ hpq _ ih =>
    have hmember : p.member? = q.member? := by
      unfold member?
      rw [hpq.shape]
    unfold combineAll
    rw [hmember, hpq.combine]
    cases q.member? with
    | none => exact congrArg _ (ih parts)
    | some member => exact congrArg _ (ih parts.tail)

theorem ObjectShape.Alike.combine {s t : ObjectShape} (h : s.Alike Metadata.SameHash t) (parts : List UInt64) :
    s.combine parts = t.combine parts := by
  cases h with
  | same shape hother => rfl
  | custom implements hproperties => exact congrArg Hash.ofOrdered (Property.combineAll_congr hproperties parts)

/-- Metadata stand in the hash of a node with their own hash only. -/
theorem ObjectNode.Alike.combine (h : m.Alike Metadata.SameHash n) : m.combine = n.combine := by
  have hmetadata : Metadata.structuralHash? m.metadata = Metadata.structuralHash? n.metadata := h.metadata
  funext parts
  unfold ObjectNode.combine
  rw [h.kind, h.identity, hmetadata, h.shape.combine]

/-- Equal nodes whose examples are in order have the same hash, given those of their parts. -/
theorem ObjectNode.Alike.combine_inOrder (h : m.Alike Metadata.Equal n) (horder : m.Alike Metadata.InOrder n)
    (hcollapsed : ∀ value ∈ n.examples, value.Collapsed) : m.combine = n.combine := by
  refine (h.join horder fun a b hexamples hequal hinOrder => ?_).combine
  cases hequal with
  | none => rfl
  | some hequal =>
    cases hinOrder with
    | some hinOrder =>
      have hhash := Metadata.structuralHash_eq hequal hinOrder fun value hvalue => hcollapsed value (hexamples hvalue)
      unfold Metadata.SameHash Metadata.structuralHash?
      rw [Option.map_some, Option.map_some, hhash]

end Nodes

/-! ## Graphs -/

section Graphs

variable {graph other : TypeGraph}

/-- the two graphs as a family -/
def TypeGraph.both (graph other : TypeGraph) : Bool → TypeGraph
  | false => graph
  | true => other

theorem TypeGraph.Alike.parallel {M : Option Metadata → Option Metadata → Prop} (h : graph.Alike M other) :
    TypeGraph.Parallel (graph.both other) := by
  intro id
  rcases h.get? id with ⟨hm, hn⟩ | ⟨m, n, hm, hn, hmn⟩
  · refine Or.inl fun i => ?_
    cases i with
    | false => exact hm
    | true => exact hn
  · refine Or.inr ⟨fun i => bif i then n else m, m.identity, m.shape.parts, fun i => ?_⟩
    cases i with
    | false => exact ⟨hm, rfl, rfl⟩
    | true => exact ⟨hn, hmn.identity.symm, hmn.parts.symm⟩

/-- Under `P`, nodes that are reached have the same hash in both graphs, given those of their parts. Then so has the root,
and errors are the same in any case. -/
theorem TypeGraph.Alike.structuralHash {M : Option Metadata → Option Metadata → Prop} (h : graph.Alike M other)
    (root : ObjectId) {P : Prop} (hP : P → ∀ id m n, graph.ReachesPart root id → graph.get? id = some m →
      other.get? id = some n → m.combine = n.combine) (limit : Nat) :
    (∃ x y, graph.structuralHash root limit = .ok x ∧ other.structuralHash root limit = .ok y ∧ (P → x = y)) ∨
      ∃ e, graph.structuralHash root limit = .error e ∧ other.structuralHash root limit = .error e := by
  have hcarries : Hasher.Carries (graph.both other) (fun _ id => graph.ReachesPart root id)
      (fun _ values => P → values false = values true) := by
    refine ⟨h.parallel, fun active id nodes part hreach _ hnodes hpart => ?_, ?_⟩
    · exact hreach.tail ⟨_, hnodes false, hpart false⟩
    · intro active id nodes parts columns hreach _ hnodes _ hcolumns hp
      have hcombine := hP hp id _ _ hreach (hnodes false) (hnodes true)
      have hsame : (columns.map fun column => column false) = columns.map fun column => column true := by
        refine List.map_congr_left fun column hcolumn => ?_
        obtain ⟨i, hi⟩ := List.mem_iff_getElem?.1 hcolumn
        obtain ⟨part, -, hanswer⟩ := forall₂_left hcolumns hi
        rcases hanswer with ⟨-, value, hvalue⟩ | ⟨-, hvalues⟩
        · rw [hvalue, hvalue]
        · exact hvalues hp
      dsimp only
      rw [hcombine, hsame]
  rcases structuralHash_together hcarries .refl limit with ⟨values, hvalues, hhash⟩ | ⟨e, he⟩
  · exact Or.inl ⟨_, _, hhash false, hhash true, hvalues⟩
  · exact Or.inr ⟨e, he false, he true⟩

end Graphs

/-- **Equal graphs.** Hashers of equal graphs fail with one error or both answer. If the examples of the nodes that are
reached are in order, the answers are one hash. Of equal records, the texts of the examples decide whether they have one
hash, and they have one if the examples are in order. No example repeats a key, like all values that a reader keeps. -/
theorem equal_graphs_hash {graph other : TypeGraph} (h : graph.Alike Metadata.Equal other)
    (hcollapsed : ∀ value ∈ other.examples, value.Collapsed) (root : ObjectId) (limit : Nat) :
    (∀ e, graph.structuralHash root limit = .error e ↔ other.structuralHash root limit = .error e) ∧
    ((∀ id m n, graph.ReachesPart root id → graph.get? id = some m → other.get? id = some n →
        m.Alike Metadata.InOrder n) →
      graph.structuralHash root limit = other.structuralHash root limit) ∧
    ∀ a b : Metadata, a.alike b = true →
      (a.structuralHash = b.structuralHash ↔ Hash.ofOrdered a.exampleHashes = Hash.ofOrdered b.exampleHashes) ∧
      (Json.inOrderItems a.examples b.examples = true → (∀ value ∈ b.examples, value.Collapsed) →
        a.structuralHash = b.structuralHash) := by
  refine ⟨?_, ?_, fun a b hab => ⟨Metadata.structuralHash_eq_iff hab, Metadata.structuralHash_eq hab⟩⟩
  · have hends := h.structuralHash root (P := False) (fun hfalse => hfalse.elim) limit
    intro e
    rcases hends with ⟨x, y, hx, hy, -⟩ | ⟨e', he, he'⟩
    · rw [hx, hy]
      exact ⟨fun he => (by cases he), fun he => (by cases he)⟩
    · rw [he, he']
  · intro horder
    have hcombine : ∀ id m n, graph.ReachesPart root id → graph.get? id = some m → other.get? id = some n →
        m.combine = n.combine := by
      intro id m n hreach hm hn
      rcases h.get? id with ⟨hnone, -⟩ | ⟨m', n', hm', hn', hmn⟩
      · cases hnone.symm.trans hm
      · cases hm'.symm.trans hm
        cases hn'.symm.trans hn
        refine hmn.combine_inOrder (horder id m n hreach hm hn) fun value hvalue => hcollapsed value ?_
        exact List.mem_flatMap.2 ⟨n, TypeGraph.mem_objects hn, hvalue⟩
    rcases h.structuralHash root (P := True) (fun _ => hcombine) limit with ⟨x, y, hx, hy, hxy⟩ | ⟨e, he, he'⟩
    · rw [hx, hy, hxy trivial]
    · rw [he, he']

/-! ## Examples that are equal and not in order -/

/-- a string, and a type that may be one, with an example -/
def exampled (value : Json) : TypeGraph := ⟨[
  { identity := "string", shape := .system .string },
  { identity := "string?", metadata := some { examples := [value] }, shape := .nullable ⟨0⟩ }]⟩

theorem exampled_alike {a b : Json} (h : a.alike b = true) : (exampled a).Alike Metadata.Equal (exampled b) := by
  have hequal : Metadata.alike { examples := [a] } { examples := [b] } = true := by
    simp [Metadata.alike, Json.alikeItems, h]
  exact .cons ⟨rfl, .none, .same _ (by decide)⟩ (.cons ⟨rfl, .some hequal, .same _ (by simp [ObjectShape.kind])⟩ .nil)

/-- that graph, and beside it a type that it does not reach, with an example of its own -/
def exampledBeside (value aside : Json) : TypeGraph :=
  ⟨(exampled value).objects ++
    [{ identity := "date", metadata := some { examples := [aside] }, shape := .system .string }]⟩

theorem exampledBeside_alike {value a b : Json} (hvalue : value.alike value = true) (h : a.alike b = true) :
    (exampledBeside value a).Alike Metadata.Equal (exampledBeside value b) := by
  have haside : Metadata.alike { examples := [a] } { examples := [b] } = true := by
    simp [Metadata.alike, Json.alikeItems, h]
  exact List.rel_append (exampled_alike hvalue) (.cons ⟨rfl, .some haside, .same _ (by simp [ObjectShape.kind])⟩ .nil)

/-- The root has an example, which is the same in both graphs. The one whose members change places is not reached. -/
theorem equal_graphs_hash_exampled :
    let a := Json.obj [("x", .nat 1), ("y", .nat 2)]
    let b := Json.obj [("y", .nat 2), ("x", .nat 1)]
    (exampledBeside a a).Alike Metadata.Equal (exampledBeside a b) ∧
      (∀ value ∈ (exampledBeside a b).examples, value.Collapsed) ∧
      (∀ id m n, (exampledBeside a a).ReachesPart ⟨1⟩ id → (exampledBeside a a).get? id = some m →
        (exampledBeside a b).get? id = some n → m.Alike Metadata.InOrder n) ∧
      ((exampledBeside a a).structuralHash ⟨1⟩ 8).isOk = true ∧
      (exampledBeside a a).structuralHash ⟨1⟩ 8 = (exampledBeside a b).structuralHash ⟨1⟩ 8 := by
  intro a b
  have halike : (exampledBeside a a).Alike Metadata.Equal (exampledBeside a b) :=
    exampledBeside_alike (by decide +kernel) (by decide +kernel)
  have hcollapsed : ∀ value ∈ (exampledBeside a b).examples, value.Collapsed := by
    intro value hvalue
    have hone : value ∈ [a, b] := hvalue
    rcases List.mem_pair.1 hone with rfl | rfl <;> rfl
  have horder : ∀ id m n, (exampledBeside a a).ReachesPart ⟨1⟩ id → (exampledBeside a a).get? id = some m →
      (exampledBeside a b).get? id = some n → m.Alike Metadata.InOrder n := by
    intro id m n hreach hm hn
    rcases hreach.cases_head with rfl | ⟨part, ⟨node, hnode, hpart⟩, hrest⟩
    · cases hm
      cases hn
      exact ⟨rfl, .some (by decide +kernel), .same _ (by simp [ObjectShape.kind])⟩
    · cases hnode
      obtain rfl := List.mem_singleton.1 hpart
      rcases hrest.cases_head with rfl | ⟨part, ⟨node, hnode, hpart⟩, -⟩
      · cases hm
        cases hn
        exact ⟨rfl, .none, .same _ (by decide)⟩
      · cases hnode
        cases hpart
  exact ⟨halike, hcollapsed, horder, by decide +kernel, (equal_graphs_hash halike hcollapsed ⟨1⟩ 8).2.1 horder⟩

/-- **One value, two hashes.** Two examples are equal, and differ in the order of their members, or they are zeros of two
signs. Records and graphs with them are equal and have different hashes. -/
theorem equal_graphs_differ :
    let a := Json.obj [("x", .nat 1), ("y", .nat 2)]
    let b := Json.obj [("y", .nat 2), ("x", .nat 1)]
    ((exampled a).Alike Metadata.Equal (exampled b) ∧
      ((exampled a).structuralHash ⟨1⟩ 8).isOk = true ∧ ((exampled b).structuralHash ⟨1⟩ 8).isOk = true ∧
      (exampled a).structuralHash ⟨1⟩ 8 ≠ (exampled b).structuralHash ⟨1⟩ 8) ∧
    (Metadata.alike { examples := [a] } { examples := [b] } = true ∧
      Metadata.structuralHash { examples := [a] } ≠ Metadata.structuralHash { examples := [b] }) ∧
    Metadata.alike { examples := [.real 0] } { examples := [.real (-0)] } = true ∧
      Metadata.structuralHash { examples := [.real 0] } ≠ Metadata.structuralHash { examples := [.real (-0)] } := by
  refine ⟨⟨exampled_alike (by decide +kernel), ?_⟩, ?_⟩
  · decide +kernel
  · decide +kernel

end GraphSchema
