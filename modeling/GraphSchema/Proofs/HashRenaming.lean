import Mathlib.Data.Set.Function
import GraphSchema.Proofs.Correspondence
import GraphSchema.Proofs.TreeHash

/-!
Structural hashes depend on what nodes say, and not on where they stand.

- `TypeGraph.Renames`: a renaming under which all that a node consists of is found again in another graph.
- `Hasher.Related` says of two steps that related states give the same outcome and related states.
- `Hasher.object_related`: a call in one graph and the renamed call in the other are related, through errors and cycles.
- `structuralHash_renamed`: so both graphs give one hash, or the one error that the levels run out.
-/

namespace GraphSchema

namespace TypeGraph

variable {graph : TypeGraph}

/-- A renaming of all that `root` consists of into another graph: no two nodes get one name, and each is found under
its new name, with its parts renamed. -/
structure Renames (graph other : TypeGraph) (root : ObjectId) (rename : ObjectId → ObjectId) : Prop where
  contains : ∀ part, graph.ReachesPart root part → graph.Contains part
  injective : Set.InjOn rename {part | graph.ReachesPart root part}
  corresponds : ∀ part m, graph.ReachesPart root part → graph.get? part = some m →
    ∃ n, other.get? (rename part) = some n ∧ m.Corresponds (fun a b => b = rename a) (fun a b => b = rename a) n

/-- In a graph that is in order, all that a node consists of is there. -/
theorem contains_of_reachesPart (hvalid : graph.validate = .ok ()) {root part : ObjectId} (hroot : graph.Contains root)
    (h : graph.ReachesPart root part) : graph.Contains part := by
  cases Relation.ReflTransGen.cases_tail h with
  | inl heq => exact heq ▸ hroot
  | inr hstep =>
    obtain ⟨owner, -, node, hget, hpart⟩ := hstep
    refine contains_of_mem_children hvalid hget ?_
    unfold ObjectNode.children ObjectShape.children
    cases hs : node.shape with
    | custom properties implements =>
      rw [hs] at hpart
      exact List.mem_append_left _ hpart
    | _ =>
      rw [hs] at hpart
      exact hpart

end TypeGraph

namespace Hasher

variable {α β γ : Type} {T : Hasher → Hasher → Prop}

/-! ## Two hashers side by side -/

/-- From related states two steps have the same outcome and come to related states. -/
def Related (T : Hasher → Hasher → Prop) (x y : HashM α) : Prop :=
  ∀ s t, T s t → (run x s).1 = (run y t).1 ∧ T (run x s).2 (run y t).2

namespace Related

theorem pure (a : α) : Related T (pure a) (pure a) :=
  fun _ _ h => ⟨rfl, h⟩

theorem bind {x y : HashM α} {next next' : α → HashM β} (h : Related T x y)
    (hnext : ∀ a, Related T (next a) (next' a)) : Related T (x >>= next) (y >>= next') := by
  intro s t hst
  obtain ⟨hresult, hafter⟩ := h s t hst
  rw [run_bind, run_bind]
  rcases hx : run x s with ⟨rx, s'⟩
  rcases hy : run y t with ⟨ry, t'⟩
  rw [hx, hy] at hresult hafter
  dsimp only at hresult hafter
  subst hresult
  cases rx with
  | ok a => exact hnext a s' t' hafter
  | error e => exact ⟨rfl, hafter⟩

theorem mapM {S : α → β → Prop} {f : α → HashM γ} {g : β → HashM γ} {as : List α} {bs : List β}
    (h : List.Forall₂ S as bs) (hfg : ∀ a ∈ as, ∀ b, S a b → Related T (f a) (g b)) :
    Related T (as.mapM f) (bs.mapM g) := by
  induction h with
  | nil => exact pure []
  | cons hab _ ih =>
    rw [List.mapM_cons, List.mapM_cons]
    refine (hfg _ List.mem_cons_self _ hab).bind fun c => ?_
    exact (ih fun a ha => hfg a (List.mem_cons_of_mem _ ha)).bind fun cs => pure (c :: cs)

end Related

variable {R : ObjectId → ObjectId → Prop} {hash hash' : ObjectId → HashM UInt64}

theorem property_related {p q : Property} (h : p.Corresponds R q)
    (hparts : ∀ a ∈ p.member?, ∀ b, R a b → Related T (hash a) (hash' b)) :
    Related T (property hash p) (property hash' q) := by
  obtain ⟨name, metadata, nullability, shape⟩ := p
  obtain ⟨_, _, _, shape'⟩ := q
  obtain ⟨rfl, rfl, rfl, hshape⟩ := h
  cases hshape with
  | override schema => exact Related.pure _
  | custom default hmember => exact (hparts _ rfl _ hmember).bind fun x => Related.pure _

theorem shape_related {s t : ObjectShape} (h : s.Corresponds R R t)
    (hparts : ∀ a ∈ s.parts, ∀ b, R a b → Related T (hash a) (hash' b)) :
    Related T (shape hash s) (shape hash' t) := by
  unfold ObjectShape.parts at hparts
  cases h with
  | system primitive => exact Related.pure _
  | override schema => exact Related.pure _
  | nullable helement => exact hparts _ (List.mem_singleton_self _) _ helement
  | generic base harguments => exact (Related.mapM harguments hparts).bind fun xs => Related.pure _
  | map base hkey hvalue =>
    exact (hparts _ (by simp) _ hkey).bind fun x => (hparts _ (by simp) _ hvalue).bind fun y => Related.pure _
  | array base helement => exact (hparts _ (List.mem_singleton_self _) _ helement).bind fun x => Related.pure _
  | abstract himplementations => exact (Related.mapM himplementations hparts).bind fun xs => Related.pure _
  | custom implements others hproperties =>
    refine (Related.mapM hproperties fun p hp q hpq => ?_).bind fun xs => Related.pure _
    exact property_related hpq fun a ha => hparts a (List.mem_filterMap.2 ⟨p, hp, ha⟩)
  | tuple helements => exact (Related.mapM helements hparts).bind fun xs => Related.pure _

theorem node_related {m n : ObjectNode} (h : m.Corresponds R R n)
    (hparts : ∀ a ∈ m.shape.parts, ∀ b, R a b → Related T (hash a) (hash' b)) :
    Related T (node hash m) (node hash' n) := by
  unfold node
  rw [h.kind, h.identity, h.metadata]
  exact (shape_related h.shape hparts).bind fun x => Related.pure _

/-! ## A call and its renaming -/

variable {graph other : TypeGraph} {root : ObjectId} {rename : ObjectId → ObjectId} {active : List ObjectId}

/-- Two hashers inside of these nodes and of their renamings remember the same of all nodes that may come. -/
structure Renamed (graph : TypeGraph) (root : ObjectId) (rename : ObjectId → ObjectId) (active : List ObjectId)
    (s t : Hasher) : Prop where
  marks : s.active = active
  renamed : t.active = active.map rename
  memory : ∀ part, graph.ReachesPart root part →
    List.lookup (rename part) t.finished = List.lookup part s.finished

theorem inside_related {id : ObjectId} {x y : HashM UInt64}
    (h : Related (Renamed graph root rename (id :: active)) x y) :
    Related (Renamed graph root rename active) (inside id x) (inside (rename id) y) := by
  intro s t hst
  have hentered : Renamed graph root rename (id :: active)
      { s with active := id :: s.active, depth := s.depth + 1 }
      { t with active := rename id :: t.active, depth := t.depth + 1 } :=
    ⟨by rw [hst.marks], by rw [hst.renamed, List.map_cons], hst.memory⟩
  obtain ⟨hresult, hafter⟩ := h _ _ hentered
  rw [run_inside, run_inside]
  refine ⟨hresult, ?_, ?_, hafter.memory⟩
  · dsimp only
    rw [hafter.marks, List.erase_cons_head]
  · dsimp only
    rw [hafter.renamed, List.map_cons, List.erase_cons_head]

theorem mem_map_rename (hr : graph.Renames other root rename) {id : ObjectId} (hid : graph.ReachesPart root id)
    (hactive : ∀ a ∈ active, graph.ReachesPart root a) : rename id ∈ active.map rename ↔ id ∈ active := by
  refine ⟨fun h => ?_, List.mem_map_of_mem⟩
  obtain ⟨a, ha, heq⟩ := List.mem_map.1 h
  exact hr.injective (hactive a ha) hid heq ▸ ha

/-- What is stored for a node on one side is found for the renamed node on the other. -/
theorem Renamed.store (hr : graph.Renames other root rename) {s t : Hasher} (h : Renamed graph root rename active s t)
    {id : ObjectId} (hid : graph.ReachesPart root id) (x : UInt64) :
    Renamed graph root rename active { s with finished := (id, x) :: s.finished }
      { t with finished := (rename id, x) :: t.finished } := by
  refine ⟨h.marks, h.renamed, fun part hp => ?_⟩
  rw [List.lookup_cons, List.lookup_cons, h.memory part hp]
  by_cases heq : part = id
  · simp [heq]
  · have hne : rename part ≠ rename id := fun he => heq (hr.injective hp hid he)
    simp [beq_eq_false_iff_ne.2 heq, beq_eq_false_iff_ne.2 hne]

/-- **In lock-step.** A call for a node and the renamed call, from hashers that remember the same and are inside of
the same nodes, have one outcome and leave such hashers behind. -/
theorem object_related (hr : graph.Renames other root rename) (limit room : Nat) {id : ObjectId}
    (hid : graph.ReachesPart root id) (hactive : ∀ a ∈ active, graph.ReachesPart root a) :
    Related (Renamed graph root rename active) (object graph limit room id)
      (object other limit room (rename id)) := by
  induction room using Nat.strong_induction_on generalizing id active with
  | h room ih =>
    intro s t hst
    obtain ⟨m, hget⟩ := TypeGraph.get?_of_contains (hr.contains id hid)
    obtain ⟨n, hget', hmn⟩ := hr.corresponds id m hid hget
    rw [run_object, run_object, hst.memory id hid, hget, hget']
    cases List.lookup id s.finished with
    | some x => exact ⟨rfl, hst⟩
    | none =>
      dsimp only
      rw [hmn.identity]
      cases room with
      | zero => exact ⟨rfl, hst⟩
      | succ room =>
        dsimp only
        by_cases hmem : id ∈ active
        · rw [if_pos (by rwa [hst.marks, List.contains_iff_mem]),
            if_pos (by rwa [hst.renamed, List.contains_iff_mem, mem_map_rename hr hid hactive])]
          exact ⟨rfl, hst⟩
        · rw [if_neg (by rwa [hst.marks, List.contains_iff_mem]),
            if_neg (by rwa [hst.renamed, List.contains_iff_mem, mem_map_rename hr hid hactive])]
          have hnode : Related (Renamed graph root rename (id :: active))
              (node (object graph limit room) m) (node (object other limit room) n) := by
            refine node_related hmn fun a ha b hab => hab ▸ ?_
            exact ih room (Nat.lt_succ_self room) (hid.tail ⟨m, hget, ha⟩)
              (List.forall_mem_cons.2 ⟨hid, hactive⟩)
          obtain ⟨hresult, hafter⟩ := inside_related hnode s t hst
          rcases hx : run (inside id (node (object graph limit room) m)) s with ⟨rx, s'⟩
          rcases hy : run (inside (rename id) (node (object other limit room) n)) t with ⟨ry, t'⟩
          rw [hx, hy] at hresult hafter
          dsimp only at hresult hafter
          subst hresult
          cases rx with
          | ok x => exact ⟨rfl, hafter.store hr hid x⟩
          | error e => exact ⟨rfl, hafter⟩

/-! ## How a call fails -/

/-- Where all that a node consists of is in the graph, a call fails only because the levels run out. -/
theorem object_error_depth (limit room : Nat) {id : ObjectId}
    (hcontains : ∀ part, graph.ReachesPart id part → graph.Contains part) :
    Ensures (Stands (fun _ => True) active) (object graph limit room id) (fun _ => True)
      (fun e => ∃ identity, e = .depthExceeded limit identity) := by
  induction room using Nat.strong_induction_on generalizing id active with
  | h room ih =>
    obtain ⟨n, hget⟩ := TypeGraph.get?_of_contains (hcontains id .refl)
    refine object_ensures (fun _ _ _ _ => trivial) (fun hnone => ?_) (fun n _ _ => ⟨n.identity, rfl⟩)
      (fun _ _ _ => trivial) ?_ (fun _ _ _ _ => trivial)
    · rw [hnone] at hget
      cases hget
    · intro n below hget hroom _
      refine (node_ensures (C := fun _ => False) (f := fun _ => 0) fun a ha => ?_).mono fun _ _ => trivial
      have hpart : graph.HasPart id a := ⟨n, hget, ha⟩
      exact (ih below (by omega) fun part hp => hcontains part (.head hpart hp)).mono fun _ _ hc => hc.elim

end Hasher

/-- **Content, not position.** Where all that a node consists of is found in another graph under new names, both
graphs give the node one hash, or the one error that the levels run out, whatever the limit. The graphs may have
cycles and further nodes, and the abstract types that an object type implements do not count. -/
theorem structuralHash_renamed {graph other : TypeGraph} {root : ObjectId} {rename : ObjectId → ObjectId}
    (h : graph.Renames other root rename) (limit : Nat) :
    graph.structuralHash root limit = other.structuralHash (rename root) limit ∧
      ∀ e, graph.structuralHash root limit = .error e → ∃ identity, e = .depthExceeded limit identity := by
  have hfresh : ({} : Hasher).depth = 0 := rfl
  unfold TypeGraph.structuralHash
  rw [Hasher.run_hashObject hfresh, Hasher.run_hashObject hfresh]
  have hrenamed : Hasher.Renamed graph root rename [] {} {} := ⟨rfl, rfl, fun _ _ => rfl⟩
  have hstands : Hasher.Stands (fun _ => True) [] {} := ⟨rfl, rfl, trivial⟩
  refine ⟨?_, ?_⟩
  · exact (Hasher.object_related h limit limit .refl (by simp) {} {} hrenamed).1
  · exact (Hasher.object_error_depth limit limit h.contains {} hstands).2.2

/-! ## The list of tagged nodes, turned over -/

/-- The list of tagged nodes in the opposite order, behind an abstract type that its nodes implement. -/
def reversedList : TypeGraph := ⟨[
  { identity := "Linked", shape := .abstract [] },
  { identity := "Tag", shape := .custom [Property.custom "label" ⟨5⟩, Property.custom "parent" ⟨1⟩] [] },
  { identity := "Tag[]", shape := .array "Array" ⟨1⟩ },
  { identity := "Node?", shape := .nullable ⟨4⟩ },
  { identity := "Node", shape := .custom [Property.custom "next" ⟨3⟩, Property.custom "tags" ⟨2⟩] [⟨0⟩] },
  { identity := "string", shape := .system .string }]⟩

theorem taggedList_renames : taggedList.Renames reversedList ⟨1⟩ fun id => ⟨5 - id.index⟩ := by
  have hcontains : ∀ part, taggedList.ReachesPart ⟨1⟩ part → part.index < 5 :=
    fun part hp => TypeGraph.contains_of_reachesPart rfl (by decide) hp
  refine ⟨hcontains, ?_, ?_⟩
  · rintro ⟨i⟩ hi ⟨j⟩ hj heq
    have hi : i < 5 := hcontains ⟨i⟩ hi
    have hj : j < 5 := hcontains ⟨j⟩ hj
    simp only [ObjectId.mk.injEq] at heq ⊢
    omega
  · rintro ⟨i⟩ m hp hget
    obtain rfl | rfl | rfl | rfl | rfl : i = 0 ∨ i = 1 ∨ i = 2 ∨ i = 3 ∨ i = 4 := by
      have hi : i < 5 := hcontains ⟨i⟩ hp
      omega
    all_goals cases hget
    · exact ⟨_, rfl, rfl, rfl, .system _⟩
    · exact ⟨_, rfl, rfl, rfl, .custom _ _ (.cons (corresponds_custom _ rfl) (.cons (corresponds_custom _ rfl) .nil))⟩
    · exact ⟨_, rfl, rfl, rfl, .nullable rfl⟩
    · exact ⟨_, rfl, rfl, rfl, .array _ rfl⟩
    · exact ⟨_, rfl, rfl, rfl, .custom _ _ (.cons (corresponds_custom _ rfl) (.cons (corresponds_custom _ rfl) .nil))⟩

/-- Turned over, the list has its hash for every limit. -/
theorem structuralHash_renamed_taggedList :
    taggedList.Renames reversedList ⟨1⟩ (fun id => ⟨5 - id.index⟩) ∧
      ∀ limit, taggedList.structuralHash ⟨1⟩ limit = reversedList.structuralHash ⟨4⟩ limit :=
  ⟨taggedList_renames, fun limit => (structuralHash_renamed taggedList_renames limit).1⟩

end GraphSchema
