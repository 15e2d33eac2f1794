import Mathlib.Data.Set.Card
import GraphSchema.Proofs.TreeHash

/-!
How deep hashing goes where nodes are part of themselves.

A node that is being hashed is marked, and a marked node is not entered again. So the marks on the way down belong to
different nodes of which the root consists. A level for each of these is enough, and one more for the node that is met
again, since a level is asked for before the mark is.

- `Hasher.Marks` : marks of different nodes, of all of which the root consists.
- `Hasher.object_ends` : a call answers if its levels and the marks together are more than these nodes.
- `hash_ends` : so hashing ends within one level more than the root consists of nodes, whatever cycles there are.
-/

namespace GraphSchema

/-- the nodes that a node consists of at any depth, with itself -/
def TypeGraph.content (graph : TypeGraph) (root : ObjectId) : Set ObjectId :=
  {part | graph.ReachesPart root part}

/-- whether all that a node consists of is in the graph -/
def TypeGraph.HasContent (graph : TypeGraph) (root : ObjectId) : Prop :=
  ∀ part ∈ graph.content root, graph.Contains part

theorem TypeGraph.HasContent.finite {graph : TypeGraph} {root : ObjectId} (h : graph.HasContent root) :
    (graph.content root).Finite := by
  apply ((Set.finite_lt_nat graph.size).image ObjectId.mk).subset
  intro part hpart
  exact ⟨part.index, h part hpart, rfl⟩

namespace Hasher

variable {graph : TypeGraph} {root id : ObjectId} {active : List ObjectId}

/-- Marks of different nodes, of all of which the root consists. -/
structure Marks (graph : TypeGraph) (root : ObjectId) (active : List ObjectId) : Prop where
  nodup : active.Nodup
  within : ∀ a ∈ active, a ∈ graph.content root

theorem Marks.none (graph : TypeGraph) (root : ObjectId) : Marks graph root [] :=
  ⟨List.nodup_nil, fun _ ha => absurd ha List.not_mem_nil⟩

theorem Marks.enter (h : Marks graph root active) (hnew : id ∉ active) (hid : id ∈ graph.content root) :
    Marks graph root (id :: active) :=
  ⟨List.nodup_cons.2 ⟨hnew, h.nodup⟩, List.forall_mem_cons.2 ⟨hid, h.within⟩⟩

/-- There are no more marks than nodes. -/
theorem Marks.length_le (h : Marks graph root active) (hcontent : graph.HasContent root) :
    active.length ≤ (graph.content root).ncard := by
  classical
  have hwithin : (active.toFinset : Set ObjectId) ⊆ graph.content root := by
    intro a ha
    exact h.within a (List.mem_toFinset.1 ha)
  calc active.length
      = active.toFinset.card := (List.toFinset_card_of_nodup h.nodup).symm
    _ = (active.toFinset : Set ObjectId).ncard := (Set.ncard_coe_finset _).symm
    _ ≤ (graph.content root).ncard := Set.ncard_le_ncard hwithin hcontent.finite

/-- **One call.** Inside of these marks, a call answers if the levels that are left and the marks are together more than
the nodes of which the root consists. Each node that is entered takes a level and leaves a mark, so that the sum is the
same further down. -/
theorem object_ends (hcontent : graph.HasContent root) (limit : Nat) {room : Nat} (hmarks : Marks graph root active)
    (hid : id ∈ graph.content root) (hroom : (graph.content root).ncard < room + active.length) :
    Ensures (Stands (fun _ => True) active) (object graph limit room id) (fun _ => True) (fun _ => False) := by
  induction room generalizing id active with
  | zero =>
    have hlength := hmarks.length_le hcontent
    omega
  | succ room ih =>
    apply object_ensures
    · exact fun _ _ _ _ => trivial
    · intro hnone
      obtain ⟨n, hget⟩ := TypeGraph.get?_of_contains (hcontent id hid)
      rw [hnone] at hget
      cases hget
    · intro _ _ hzero
      exact absurd hzero (Nat.succ_ne_zero room)
    · exact fun _ _ _ => trivial
    · intro n below hget hbelow hnew
      obtain rfl : below = room := by omega
      refine (node_ensures (C := fun _ => False) (f := fun _ => 0) fun a ha => ?_).mono fun _ _ => trivial
      have hpart : a ∈ graph.content root := Relation.ReflTransGen.tail hid ⟨n, hget, ha⟩
      have hsum : (graph.content root).ncard < below + (id :: active).length := by
        rw [List.length_cons]
        omega
      exact (ih (hmarks.enter hnew hid) hpart hsum).mono fun _ _ hc => hc.elim
    · exact fun _ _ _ _ => trivial

end Hasher

/-- **Hashing ends.** Let all that a node consists of be in the graph, whether or not the graph is in order otherwise and
whatever cycles it has. Then the node has a hash under every limit of at least one level more than it consists of
nodes. -/
theorem hash_ends {graph : TypeGraph} {root : ObjectId}
    (hcontent : ∀ part, graph.ReachesPart root part → graph.Contains part) {limit : Nat}
    (hlimit : {part | graph.ReachesPart root part}.ncard + 1 ≤ limit) :
    ∃ hash, graph.structuralHash root limit = .ok hash := by
  have hroom : (graph.content root).ncard < limit + ([] : List ObjectId).length := hlimit
  have hends := Hasher.object_ends hcontent limit (.none graph root) Relation.ReflTransGen.refl hroom
  obtain ⟨-, -, hnone⟩ := hends {} ⟨rfl, rfl, trivial⟩
  rw [← Hasher.run_hashObject rfl] at hnone
  unfold TypeGraph.structuralHash
  cases hresult : (Hasher.run (Hasher.hashObject graph limit root) {}).1 with
  | ok hash => exact ⟨hash, rfl⟩
  | error e => exact (hnone e hresult).elim

/-- An array, a tuple, a value that may be null, a map and a generic type, all of them parts of each other, beside an
array of something that is not there. -/
def entangled : TypeGraph := ⟨[
  { identity := "Pair[]", shape := .array "Array" ⟨1⟩ },
  { identity := "Pair", shape := .tuple [⟨2⟩, ⟨0⟩] },
  { identity := "Map?", shape := .nullable ⟨3⟩ },
  { identity := "Map", shape := .map "Dictionary" ⟨0⟩ ⟨4⟩ },
  { identity := "Lazy", shape := .generic "Lazy" [⟨4⟩, ⟨1⟩] },
  { identity := "Lost[]", shape := .array "Array" ⟨9⟩ }]⟩

theorem entangled_content {part : ObjectId} (h : entangled.ReachesPart ⟨0⟩ part) : part.index < 5 := by
  induction h with
  | refl => decide
  | @tail a b _ hstep ih =>
    obtain ⟨n, hget, hb⟩ := hstep
    have hparts : ∀ i < 5, ∀ part ∈ ((entangled.get? ⟨i⟩).map (·.shape.parts)).getD [], part.index < 5 := by decide
    refine hparts a.index ih b ?_
    rw [show entangled.get? ⟨a.index⟩ = some n from hget]
    exact hb

/-- The array consists of five nodes, and six levels are enough for it. -/
theorem hash_ends_entangled : entangled.validate = .error (.danglingNode "Lost[]" ⟨9⟩) ∧
    (∀ part, entangled.ReachesPart ⟨0⟩ part → entangled.Contains part) ∧
    {part | entangled.ReachesPart ⟨0⟩ part}.ncard + 1 ≤ 6 ∧ ∃ hash, entangled.structuralHash ⟨0⟩ 6 = .ok hash := by
  have hcontent : ∀ part, entangled.ReachesPart ⟨0⟩ part → entangled.Contains part :=
    fun part hpart => Nat.lt_trans (entangled_content hpart) (by decide)
  have hcount : {part | entangled.ReachesPart ⟨0⟩ part}.ncard ≤ 5 := by
    have hsubset : {part | entangled.ReachesPart ⟨0⟩ part} ⊆ ((Finset.range 5).image ObjectId.mk : Set ObjectId) := by
      intro part hpart
      exact Finset.mem_coe.2 (Finset.mem_image.2 ⟨part.index, Finset.mem_range.2 (entangled_content hpart), rfl⟩)
    calc {part | entangled.ReachesPart ⟨0⟩ part}.ncard
        ≤ ((Finset.range 5).image ObjectId.mk : Set ObjectId).ncard := Set.ncard_le_ncard hsubset (Finset.finite_toSet _)
      _ = ((Finset.range 5).image ObjectId.mk).card := Set.ncard_coe_finset _
      _ = 5 := by decide
  have hlimit : {part | entangled.ReachesPart ⟨0⟩ part}.ncard + 1 ≤ 6 := Nat.succ_le_succ hcount
  exact ⟨rfl, hcontent, hlimit, hash_ends hcontent hlimit⟩

/-- Five levels are not: the generic type is met again on the fifth. -/
example : entangled.structuralHash ⟨0⟩ 5 = .error (.depthExceeded 5 "Lazy") := by decide +kernel

end GraphSchema
