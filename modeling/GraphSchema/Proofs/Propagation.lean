import GraphSchema.Proofs.Routes
import GraphSchema.Proofs.Runs
import GraphSchema.Proofs.Weights

/-!
A change of one node, seen from the root.

Where no node is part of itself, a hash is that of the plain recursion, and a node is a sum of what its parts weigh. So
a change that is seen at one place is seen from every node that comes to this place by one route.

- `TypeGraph.SoleChange` : two graphs that differ in the record of one node, to which one route leads.
- `Hasher.object_contains` : a call that answers has found all that its node consists of.
- `TypeGraph.treeHash_eq_iff` : the roots have one tree hash exactly if the node has.
- `change_reaches_root` : so it is with the answers of hashers, and with a single property, and with a single item of a
  list.
-/

namespace GraphSchema

open Relation (TransGen)

namespace TypeGraph

/-- No node of which the root consists is part of itself. -/
def AcyclicFrom (graph : TypeGraph) (root : ObjectId) : Prop :=
  ∀ part, graph.ReachesPart root part → ¬ TransGen graph.HasPart part part

theorem AcyclicFrom.part {graph : TypeGraph} {a b : ObjectId} (h : graph.AcyclicFrom a) (hpart : graph.HasPart a b) :
    graph.AcyclicFrom b :=
  fun part hb => h part (.head hpart hb)

/-- Two graphs that differ in the record of one node at most. In both of them no node below the root is part of itself,
and the root comes to the node by one route of slots. -/
structure SoleChange (graph other : TypeGraph) (root changed : ObjectId) : Prop where
  same : ∀ id, id ≠ changed → graph.get? id = other.get? id
  acyclic : graph.AcyclicFrom root
  acyclicOther : other.AcyclicFrom root
  route : ∃! route, graph.Route root route changed

/-- the hash of a property, in a graph where its member is -/
def propertyHash (graph : TypeGraph) (p : Property) (limit : Nat) : Except GraphError UInt64 :=
  (Hasher.run (Hasher.property (Hasher.hashObject graph limit) p) {}).1

end TypeGraph

/-! ## What answers tell -/

namespace Hasher

variable {α β : Type} {P : Hasher → Prop} {E : GraphError → Prop} {graph : TypeGraph} {active : List ObjectId}

theorem Ensures.map {body : HashM α} {Q : α → Prop} {Q' : β → Prop} (h : Ensures P body Q E) (f : α → β)
    (hf : ∀ a, Q a → Q' (f a)) : Ensures P (f <$> body) Q' E := by
  rw [map_eq_pure_bind]
  exact h.bind fun a ha => .pure (hf a ha)

/-- What each call for an item tells of it, calls for all items tell of all of them. -/
theorem Ensures.forall_mapM {f : α → HashM β} {D : α → Prop} {items : List α}
    (h : ∀ a ∈ items, Ensures P (f a) (fun _ => D a) E) :
    Ensures P (items.mapM f) (fun _ => ∀ a ∈ items, D a) E := by
  induction items with
  | nil => exact .pure (List.forall_mem_nil _)
  | cons a rest ih =>
    rw [List.mapM_cons]
    refine (h a List.mem_cons_self).bind fun _ ha => ?_
    refine (ih fun a ha => h a (List.mem_cons_of_mem _ ha)).bind fun _ hrest => ?_
    exact .pure (List.forall_mem_cons.2 ⟨ha, hrest⟩)

/-- All that a node consists of is in the graph, unless some of it is part of itself. -/
def Whole (graph : TypeGraph) (id : ObjectId) : Prop :=
  graph.AcyclicFrom id → ∀ part, graph.ReachesPart id part → graph.Contains part

/-- **Found.** A call that answers has found all that its node consists of, unless it has met a cycle. -/
theorem object_contains (graph : TypeGraph) (limit room : Nat) {id : ObjectId}
    (hway : ∀ a ∈ active, TransGen graph.HasPart a id) :
    Ensures (Stands (fun memory => ∀ id h, List.lookup id memory = some h → Whole graph id) active)
      (object graph limit room id) (fun _ => Whole graph id) (fun _ => True) := by
  induction room using Nat.strong_induction_on generalizing id active with
  | h room ih =>
    refine object_ensures (fun memory h hm hl => hm id h hl) (fun _ => trivial) (fun _ _ _ => trivial) ?_ ?_ ?_
    · exact fun _ _ hactive hacyclic => absurd (hway id hactive) (hacyclic id .refl)
    · intro n below hget hroom _
      have hparts : ∀ a ∈ n.shape.parts, Ensures
          (Stands (fun memory => ∀ id h, List.lookup id memory = some h → Whole graph id) (id :: active))
          (object graph limit below a) (fun _ => Whole graph a) fun _ => True := by
        intro a ha
        have hpart : graph.HasPart id a := ⟨n, hget, ha⟩
        exact ih below (by omega)
          (List.forall_mem_cons.2 ⟨.single hpart, fun b hb => (hway b hb).tail hpart⟩)
      rw [node_eq]
      refine (Ensures.forall_mapM hparts).map _ fun _ hwhole hacyclic part hp => ?_
      rcases Relation.ReflTransGen.cases_head hp with rfl | ⟨a, hpart, ha⟩
      · exact TypeGraph.contains_of_get? hget
      · obtain ⟨node, hnode, hmem⟩ := hpart
        cases hget.symm.trans hnode
        exact hwhole a hmem (hacyclic.part ⟨n, hget, hmem⟩) part ha
    · intro memory h hm hh i x hl
      rw [List.lookup_cons] at hl
      split at hl
      · rename_i heq
        exact beq_iff_eq.1 heq ▸ hh
      · exact hm i x hl

/-- A fresh hasher's answer is the tree hash, where no node is part of itself. -/
theorem treeHash_of_run {limit : Nat} {id : ObjectId} (hacyclic : graph.AcyclicFrom id) {h : UInt64}
    (hrun : (run (hashObject graph limit id) {}).1 = .ok h) : graph.TreeHash id h := by
  rw [run_hashObject rfl] at hrun
  have hfresh : Stands (fun memory => ∀ id h, List.lookup id memory = some h → Whole graph id) [] {} :=
    ⟨rfl, rfl, fun _ _ hl => by cases hl⟩
  have hsound : Stands (Sound graph) [] {} := ⟨rfl, rfl, fun _ _ hl => by cases hl⟩
  obtain ⟨-, hwhole, -⟩ := object_contains graph limit limit (by simp) {} hfresh
  obtain ⟨-, htree, -⟩ := object_treeHash graph limit limit (by simp) {} hsound
  exact htree h hrun ⟨hwhole h hrun hacyclic, hacyclic⟩

end Hasher

namespace TypeGraph

variable {graph other : TypeGraph} {root changed : ObjectId}

theorem treeHash_of_structuralHash (hacyclic : graph.AcyclicFrom root) {limit : Nat} {h : UInt64}
    (hrun : graph.structuralHash root limit = .ok h) : graph.TreeHash root h :=
  Hasher.treeHash_of_run hacyclic hrun

/-- The hash of a property is that of the plain recursion for its member. -/
theorem propertyHash_eq {p : Property} (hacyclic : ∀ member ∈ p.member?, graph.AcyclicFrom member) {limit : Nat}
    {y : UInt64} (hrun : graph.propertyHash p limit = .ok y) {f : ObjectId → UInt64}
    (hf : ∀ member ∈ p.member?, graph.TreeHash member (f member)) : y = p.hashFrom f := by
  unfold propertyHash Hasher.property at hrun
  unfold Property.hashFrom
  unfold Property.member? at hacyclic hf
  cases hs : p.shape with
  | override schema =>
    rw [hs] at hrun
    cases hrun
    rfl
  | custom member default =>
    rw [hs] at hrun hacyclic hf
    dsimp only at hrun ⊢
    rw [Hasher.run_bind] at hrun
    rcases hmember : Hasher.run (Hasher.hashObject graph limit member) {} with ⟨e | h, after⟩
    · rw [hmember] at hrun
      cases hrun
    · rw [hmember] at hrun
      have htree : graph.TreeHash member h := Hasher.treeHash_of_run (hacyclic member rfl) (by rw [hmember])
      cases hrun
      rw [htree.unique (hf member rfl)]

/-! ## From the node to the root -/

/-- What does not consist of the changed node has its hash in the other graph. -/
theorem TreeHash.of_same (hsame : ∀ id, id ≠ changed → graph.get? id = other.get? id) {id : ObjectId} {y : UInt64}
    (h : graph.TreeHash id y) (hapart : ¬ graph.ReachesPart id changed) : other.TreeHash id y := by
  induction h with
  | @node id n f hfound hparts ih =>
    have hid : id ≠ changed := fun he => hapart (he ▸ .refl)
    refine .node ((hsame id hid).symm.trans hfound) fun a ha => ih a ha fun hreach => ?_
    exact hapart (.head ⟨n, hfound, ha⟩ hreach)

theorem TreeHash.of_route {route : List (ObjectId × Nat)} (hroute : graph.Route root route changed) {r : UInt64}
    (h : graph.TreeHash root r) : ∃ x, graph.TreeHash changed x := by
  induction hroute generalizing r with
  | nil => exact ⟨r, h⟩
  | cons hfound hpart _ ih =>
    cases h with
    | node hfound' hparts =>
      cases hfound.symm.trans hfound'
      exact ih (hparts _ (List.mem_of_getElem? hpart))

/-- No node on a route to the changed one is the changed one itself, so the route is there in the other graph too. -/
theorem Route.of_same (hsame : ∀ id, id ≠ changed → graph.get? id = other.get? id) {route : List (ObjectId × Nat)}
    (h : graph.Route root route changed) (hacyclic : graph.AcyclicFrom root) : other.Route root route changed := by
  induction h with
  | nil id => exact .nil id
  | @cons a b changed node slot route hfound hatSlot hrest ih =>
    have hpart : graph.HasPart a b := ⟨node, hfound, List.mem_of_getElem? hatSlot⟩
    have hne : a ≠ changed := by
      rintro rfl
      exact hacyclic a .refl (.head' hpart hrest.reaches)
    exact .cons ((hsame a hne).symm.trans hfound) hatSlot (ih hsame (hacyclic.part hpart))

/-- Where one route leads from a node to another one, no other slot of it does. -/
theorem Route.only_slot {a b : ObjectId} {node : ObjectNode} {slot : Nat} {route : List (ObjectId × Nat)}
    (hfound : graph.get? a = some node)
    (honly : ∀ way, graph.Route a way changed → way = (a, slot) :: route) {i : Nat} (hi : i ≠ slot)
    (hpart : node.shape.parts[i]? = some b) : ¬ graph.ReachesPart b changed := by
  intro hreach
  obtain ⟨way, hway⟩ := Route.exists_of_reaches hreach
  obtain ⟨hslot, -⟩ := List.cons.inj (honly _ (.cons hfound hpart hway))
  exact hi (congrArg Prod.snd hslot)

/-- **From the node to the root.** Where one route leads to the changed node, the roots have one tree hash exactly if
the node has. The induction is on the route: at each node on it one part differs, and the weight of a part is a power of
the factor. -/
theorem treeHash_eq_iff (hsame : ∀ id, id ≠ changed → graph.get? id = other.get? id)
    {route : List (ObjectId × Nat)} (hroute : graph.Route root route changed)
    (honly : ∀ way, graph.Route root way changed → way = route) (hacyclic : graph.AcyclicFrom root) {r r' h h' : UInt64}
    (hr : graph.TreeHash root r) (hr' : other.TreeHash root r') (hh : graph.TreeHash changed h)
    (hh' : other.TreeHash changed h') : r = r' ↔ h = h' := by
  induction hroute generalizing r r' with
  | nil => rw [hr.unique hh, hr'.unique hh']
  | @cons a b changed node slot route hfound hatSlot hrestRoute ih =>
    have hpart : graph.HasPart a b := ⟨node, hfound, List.mem_of_getElem? hatSlot⟩
    have hne : a ≠ changed := by
      rintro rfl
      exact hacyclic a .refl (.head' hpart hrestRoute.reaches)
    have hfound' : other.get? a = some node := (hsame a hne).symm.trans hfound
    cases hr with
    | @node _ _ f hfoundLeft hparts =>
      cases hfound.symm.trans hfoundLeft
      cases hr' with
      | @node _ _ f' hfoundRight hparts' =>
        cases hfound'.symm.trans hfoundRight
        have hrest : f b = f' b ↔ h = h' := by
          have honlyRest : ∀ way, graph.Route b way changed → way = route :=
            fun way hway => (List.cons.inj (honly _ (.cons hfound hatSlot hway))).2
          exact ih hsame honlyRest (hacyclic.part hpart) (hparts b (List.mem_of_getElem? hatSlot))
            (hparts' b (List.mem_of_getElem? hatSlot)) hh hh'
        have hapart : ∀ i c, i ≠ slot → node.shape.parts[i]? = some c → f c = f' c := by
          intro i c hi hc
          have hmem := List.mem_of_getElem? hc
          exact ((hparts c hmem).of_same hsame (Route.only_slot hfound honly hi hc)).unique (hparts' c hmem)
        rw [ObjectNode.hashFrom_eq_iff hatSlot hapart, hrest]

/-- **A property.** Where the changed node differs in one property only, its tree hashes are equal exactly if those of the
property are: no other property comes back to the node. -/
theorem property_eq_iff (hsame : ∀ id, id ≠ changed → graph.get? id = other.get? id)
    (hacyclic : graph.AcyclicFrom changed) (hacyclicOther : other.AcyclicFrom changed) {identity : String}
    {metadata : Option Metadata} {before after : List Property} {p q : Property} {implements : List ObjectId}
    (hget : graph.get? changed = some ⟨identity, metadata, .custom (before ++ p :: after) implements⟩)
    (hget' : other.get? changed = some ⟨identity, metadata, .custom (before ++ q :: after) implements⟩)
    {limit limit' : Nat} {h h' y y' : UInt64} (hh : graph.TreeHash changed h) (hh' : other.TreeHash changed h')
    (hy : graph.propertyHash p limit = .ok y) (hy' : other.propertyHash q limit' = .ok y') : h = h' ↔ y = y' := by
  have hmember : ∀ {b : Property} {as cs : List Property}, ∀ a ∈ b.member?,
      a ∈ (ObjectShape.custom (as ++ b :: cs) implements).parts := by
    intro b as cs a ha
    exact List.mem_filterMap.2 ⟨b, List.mem_append_right _ List.mem_cons_self, ha⟩
  cases hh with
  | @node _ _ f hfound hparts =>
    cases hget.symm.trans hfound
    cases hh' with
    | @node _ _ f' hfound' hparts' =>
      cases hget'.symm.trans hfound'
      obtain rfl : y = p.hashFrom f :=
        propertyHash_eq (fun a ha => hacyclic.part ⟨_, hget, hmember a ha⟩) hy fun a ha => hparts a (hmember a ha)
      obtain rfl : y' = q.hashFrom f' :=
        propertyHash_eq (fun a ha => hacyclicOther.part ⟨_, hget', hmember a ha⟩) hy'
          fun a ha => hparts' a (hmember a ha)
      have hothers : ∀ b, b ∈ before ∨ b ∈ after → b.hashFrom f = b.hashFrom f' := by
        intro b hb
        have hlisted : ∀ p : Property, b ∈ before ++ p :: after := fun p =>
          List.mem_append.2 (hb.imp_right (List.mem_cons_of_mem p))
        refine Property.hashFrom_congr fun a ha => ?_
        have hpart : a ∈ (ObjectShape.custom (before ++ p :: after) implements).parts :=
          List.mem_filterMap.2 ⟨b, hlisted p, ha⟩
        have hpart' : a ∈ (ObjectShape.custom (before ++ q :: after) implements).parts :=
          List.mem_filterMap.2 ⟨b, hlisted q, ha⟩
        have hapart : ¬ graph.ReachesPart a changed := fun hreach =>
          hacyclic changed .refl (.head' ⟨_, hget, hpart⟩ hreach)
        exact ((hparts a hpart).of_same hsame hapart).unique (hparts' a hpart')
      have hbefore := List.map_congr_left fun b hb => hothers b (Or.inl hb)
      have hafter := List.map_congr_left fun b hb => hothers b (Or.inr hb)
      simp only [ObjectNode.hashFrom, ObjectShape.hashFrom, List.map_append, List.map_cons, hbefore, hafter]
      rw [← Hash.sub_eq_zero_iff, ObjectNode.kind, ObjectNode.kind, ObjectShape.kind, ObjectShape.kind,
        Hash.step_sub_left, Hash.sub_eq_zero_iff, Hash.ofOrdered_eq_iff]

end TypeGraph

/-- **A change reaches the root.** Let two graphs differ in the record of one node, to which one route of slots leads
from the root, and let no node below the root be part of itself. Then the hashes of the roots, where hashers answer with
them, are equal exactly if those of the node are; and where the node is an object type that differs in one property, they
are equal exactly if the hashes of this property are. Of lists of hashes that differ in one item the same is true. -/
theorem change_reaches_root {graph other : TypeGraph} {root changed : ObjectId}
    (h : graph.SoleChange other root changed) :
    (∀ limit limit' limitAt limitAt' r r' x x',
      graph.structuralHash root limit = .ok r → other.structuralHash root limit' = .ok r' →
      graph.structuralHash changed limitAt = .ok x → other.structuralHash changed limitAt' = .ok x' →
      (r = r' ↔ x = x')) ∧
    (∀ identity metadata before p q after implements limit limit' limitAt limitAt' r r' y y',
      graph.get? changed = some ⟨identity, metadata, .custom (before ++ p :: after) implements⟩ →
      other.get? changed = some ⟨identity, metadata, .custom (before ++ q :: after) implements⟩ →
      graph.structuralHash root limit = .ok r → other.structuralHash root limit' = .ok r' →
      graph.propertyHash p limitAt = .ok y → other.propertyHash q limitAt' = .ok y' →
      (r = r' ↔ y = y')) ∧
    ∀ before after x y, Hash.ofOrdered (before ++ x :: after) = Hash.ofOrdered (before ++ y :: after) ↔ x = y := by
  obtain ⟨hsame, hacyclic, hacyclicOther, route, hroute, honly⟩ := h
  have hreach := hroute.reaches
  have hbelow : graph.AcyclicFrom changed := fun part hp => hacyclic part (hreach.trans hp)
  have hrouteOther := hroute.of_same hsame hacyclic
  have hbelowOther : other.AcyclicFrom changed := fun part hp => hacyclicOther part (hrouteOther.reaches.trans hp)
  refine ⟨?_, ?_, Hash.ofOrdered_eq_iff⟩
  · intro limit limit' limitAt limitAt' r r' x x' hr hr' hx hx'
    exact TypeGraph.treeHash_eq_iff hsame hroute honly hacyclic (TypeGraph.treeHash_of_structuralHash hacyclic hr)
      (TypeGraph.treeHash_of_structuralHash hacyclicOther hr') (TypeGraph.treeHash_of_structuralHash hbelow hx)
      (TypeGraph.treeHash_of_structuralHash hbelowOther hx')
  · intro identity metadata before p q after implements limit limit' limitAt limitAt' r r' y y' hget hget' hr hr' hy hy'
    have hr := TypeGraph.treeHash_of_structuralHash hacyclic hr
    have hr' := TypeGraph.treeHash_of_structuralHash hacyclicOther hr'
    obtain ⟨x, hx⟩ := hr.of_route hroute
    obtain ⟨x', hx'⟩ := hr'.of_route hrouteOther
    rw [TypeGraph.treeHash_eq_iff hsame hroute honly hacyclic hr hr' hx hx',
      TypeGraph.property_eq_iff hsame hbelow hbelowOther hget hget' hx hx' hy hy']

/-! ## A default that changes -/

/-- A pair of a string and of a type that has a string as well, with some default. -/
def labelledPair (default : Option String) : TypeGraph := ⟨[
  { identity := "string", shape := .system .string },
  { identity := "Tag", shape := .custom [{ name := "label", shape := .custom ⟨0⟩ default }] [] },
  { identity := "(string, Tag)", shape := .tuple [⟨0⟩, ⟨1⟩] }]⟩

theorem labelledPair_descends {default : Option String} {a b : ObjectId} (h : (labelledPair default).HasPart a b) :
    b.index < a.index := by
  obtain ⟨node, hget, hb⟩ := h
  obtain ⟨i⟩ := a
  have hi : i < 3 := (List.getElem?_eq_some_iff.1 hget).1
  obtain rfl | rfl | rfl : i = 0 ∨ i = 1 ∨ i = 2 := by omega
  · cases hget
    cases hb
  · cases hget
    obtain rfl := List.mem_singleton.1 hb
    decide
  · cases hget
    obtain rfl | rfl : b = ⟨0⟩ ∨ b = ⟨1⟩ := by simpa [ObjectShape.parts] using hb
    all_goals decide

theorem labelledPair_acyclic (default : Option String) (root : ObjectId) :
    (labelledPair default).AcyclicFrom root := by
  intro part _ hcycle
  have hless : ∀ {b}, TransGen (labelledPair default).HasPart part b → b.index < part.index := by
    intro b hb
    induction hb with
    | single hstep => exact labelledPair_descends hstep
    | tail _ hstep ih => exact Nat.lt_trans (labelledPair_descends hstep) ih
  exact Nat.lt_irrefl _ (hless hcycle)

theorem labelledPair_soleChange (default default' : Option String) :
    (labelledPair default).SoleChange (labelledPair default') ⟨2⟩ ⟨1⟩ where
  same := by
    rintro ⟨i⟩ hi
    match i with
    | 0 | 2 | _ + 3 => rfl
    | 1 => exact absurd rfl hi
  acyclic := labelledPair_acyclic default ⟨2⟩
  acyclicOther := labelledPair_acyclic default' ⟨2⟩
  route := by
    refine ⟨[(⟨2⟩, 1)], .cons rfl rfl (.nil ⟨1⟩), fun way hway => ?_⟩
    have hno : ∀ {a b : ObjectId}, (labelledPair default).ReachesPart a b → b.index ≤ a.index := by
      intro a b h
      induction h with
      | refl => exact Nat.le_refl _
      | tail _ hstep ih => exact Nat.le_trans (Nat.le_of_lt (labelledPair_descends hstep)) ih
    cases hway with
    | @cons _ b _ node slot route hfound hpart hrest =>
      cases hfound
      match slot with
      | 0 =>
        cases hpart
        exact absurd (hno hrest.reaches) (by decide)
      | 1 =>
        cases hpart
        cases hrest with
        | nil => rfl
        | @cons _ c _ node slot route hfound hpart hrest =>
          have hlt := labelledPair_descends ⟨node, hfound, List.mem_of_getElem? hpart⟩
          exact absurd (Nat.lt_of_le_of_lt (hno hrest.reaches) hlt) (by decide)
      | _ + 2 => cases hpart

/-- Another default of the tag's label gives the tag, its label and the pair another hash, each for the same reason. -/
theorem change_reaches_root_labelledPair :
    (labelledPair (some "a")).SoleChange (labelledPair (some "b")) ⟨2⟩ ⟨1⟩ ∧
    ∃ r r' x x' y y',
      (labelledPair (some "a")).structuralHash ⟨2⟩ 3 = .ok r ∧ (labelledPair (some "b")).structuralHash ⟨2⟩ 3 = .ok r' ∧
      (labelledPair (some "a")).structuralHash ⟨1⟩ 2 = .ok x ∧ (labelledPair (some "b")).structuralHash ⟨1⟩ 2 = .ok x' ∧
      (labelledPair (some "a")).propertyHash { name := "label", shape := .custom ⟨0⟩ (some "a") } 1 = .ok y ∧
      (labelledPair (some "b")).propertyHash { name := "label", shape := .custom ⟨0⟩ (some "b") } 1 = .ok y' ∧
      (r = r' ↔ x = x') ∧ (r = r' ↔ y = y') ∧ r ≠ r' := by
  have hchange := labelledPair_soleChange (some "a") (some "b")
  obtain ⟨hnode, hproperty, -⟩ := change_reaches_root hchange
  have hdiffer : (labelledPair (some "a")).structuralHash ⟨2⟩ 3 ≠ (labelledPair (some "b")).structuralHash ⟨2⟩ 3 := by
    decide +kernel
  obtain ⟨r, hr⟩ := exists_ok_of_isOk
    (by decide +kernel : ((labelledPair (some "a")).structuralHash ⟨2⟩ 3).isOk = true)
  obtain ⟨r', hr'⟩ := exists_ok_of_isOk
    (by decide +kernel : ((labelledPair (some "b")).structuralHash ⟨2⟩ 3).isOk = true)
  obtain ⟨x, hx⟩ := exists_ok_of_isOk
    (by decide +kernel : ((labelledPair (some "a")).structuralHash ⟨1⟩ 2).isOk = true)
  obtain ⟨x', hx'⟩ := exists_ok_of_isOk
    (by decide +kernel : ((labelledPair (some "b")).structuralHash ⟨1⟩ 2).isOk = true)
  obtain ⟨y, hy⟩ := exists_ok_of_isOk (by decide +kernel : ((labelledPair (some "a")).propertyHash
    { name := "label", shape := .custom ⟨0⟩ (some "a") } 1).isOk = true)
  obtain ⟨y', hy'⟩ := exists_ok_of_isOk (by decide +kernel : ((labelledPair (some "b")).propertyHash
    { name := "label", shape := .custom ⟨0⟩ (some "b") } 1).isOk = true)
  refine ⟨hchange, r, r', x, x', y, y', hr, hr', hx, hx', hy, hy', hnode 3 3 2 2 r r' x x' hr hr' hx hx',
    hproperty "Tag" none [] _ _ [] [] 3 3 1 1 r r' y y' rfl rfl hr hr' hy hy', fun heq => hdiffer ?_⟩
  rw [hr, hr', heq]

end GraphSchema
