import GraphSchema.Proofs.TreeHash

/-!
Routes through the slots of a graph.

A node may stand in several slots of another one, as in a pair of the same type, so a route says which slots it takes.

- `TypeGraph.Route` : a route from one node to another, as the nodes that it leaves, each with the slot.
- `TypeGraph.OnlyRoute` : there is one route only that meets no node twice.
- `TypeGraph.OnlyRoute.front_eq` : then any route to a node on it that meets no node twice is the front of it.
- `TypeGraph.OnlyRoute.enters` : and its nodes are entered by its slots only.
-/

namespace GraphSchema

namespace TypeGraph

/-- a route down the slots of nodes: the nodes that it leaves, each with the slot of the part that it goes on to -/
inductive Route (graph : TypeGraph) : ObjectId → List (ObjectId × Nat) → ObjectId → Prop
  | nil (id : ObjectId) : Route graph id [] id
  | cons {a b c : ObjectId} {node : ObjectNode} {slot : Nat} {route : List (ObjectId × Nat)}
    (hfound : graph.get? a = some node) (hpart : node.shape.parts[slot]? = some b) (hrest : Route graph b route c) :
    Route graph a ((a, slot) :: route) c

/-- the nodes that a route meets, its last one included -/
def met (route : List (ObjectId × Nat)) (last : ObjectId) : List ObjectId :=
  route.map Prod.fst ++ [last]

/-- The route is the only one between its ends that meets no node twice. -/
structure OnlyRoute (graph : TypeGraph) (root : ObjectId) (route : List (ObjectId × Nat)) (last : ObjectId) : Prop where
  leads : graph.Route root route last
  simple : (met route last).Nodup
  only : ∀ other, graph.Route root other last → (met other last).Nodup → other = route

variable {graph : TypeGraph} {a b c root last : ObjectId} {route front back : List (ObjectId × Nat)}

namespace Route

theorem append (h : graph.Route a front b) (h' : graph.Route b back c) : graph.Route a (front ++ back) c := by
  induction h with
  | nil => exact h'
  | cons hfound hpart _ ih => exact .cons hfound hpart (ih h')

theorem snoc {node : ObjectNode} {slot : Nat} (h : graph.Route a route b) (hfound : graph.get? b = some node)
    (hpart : node.shape.parts[slot]? = some c) : graph.Route a (route ++ [(b, slot)]) c :=
  h.append (.cons hfound hpart (.nil c))

theorem reaches (h : graph.Route a route b) : graph.ReachesPart a b := by
  induction h with
  | nil => exact .refl
  | cons hfound hpart _ ih => exact .head ⟨_, hfound, List.mem_of_getElem? hpart⟩ ih

theorem exists_of_reaches (h : graph.ReachesPart a b) : ∃ route, graph.Route a route b := by
  induction h using Relation.ReflTransGen.head_induction_on with
  | refl => exact ⟨[], .nil b⟩
  | head hpart _ ih =>
    obtain ⟨node, hget, hmem⟩ := hpart
    obtain ⟨slot, hslot⟩ := List.mem_iff_getElem?.1 hmem
    obtain ⟨route, hroute⟩ := ih
    exact ⟨_, .cons hget hslot hroute⟩

/-- A route that goes anywhere leaves its first node. -/
theorem mem_of_ne (h : graph.Route a route b) (hne : a ≠ b) : a ∈ route.map Prod.fst := by
  cases h with
  | nil => exact absurd rfl hne
  | cons hfound hpart hrest => exact List.mem_cons_self

/-- A route is cut at a node that it leaves. -/
theorem split (h : graph.Route a route c) (hb : b ∈ route.map Prod.fst) :
    ∃ front back, route = front ++ back ∧ graph.Route a front b ∧ graph.Route b back c ∧ back ≠ [] := by
  induction h with
  | nil => cases hb
  | @cons a' b' c' node slot route hfound hpart hrestRoute ih =>
    by_cases heq : b = a'
    · subst heq
      exact ⟨[], _, rfl, .nil _, .cons hfound hpart hrestRoute, List.cons_ne_nil _ _⟩
    · have hrest : b ∈ route.map Prod.fst := (List.mem_cons.1 hb).resolve_left heq
      obtain ⟨front, back, rfl, hfront, hback, hne⟩ := ih hrest
      exact ⟨(a', slot) :: front, back, rfl, .cons hfound hpart hfront, hback, hne⟩

/-- Of the nodes that a route meets, one is the last that is among given ones, if any is. -/
theorem last_of (among : List ObjectId) (h : graph.Route a route c) (hsome : ∃ x ∈ met route c, x ∈ among) :
    ∃ front back z, route = front ++ back ∧ graph.Route a front z ∧ graph.Route z back c ∧ z ∈ among ∧
      ∀ x ∈ (met back c).tail, x ∉ among := by
  induction h with
  | nil id =>
    obtain ⟨x, hx, hmem⟩ := hsome
    obtain rfl := List.mem_singleton.1 hx
    exact ⟨[], [], x, rfl, .nil x, .nil x, hmem, fun y hy => absurd hy List.not_mem_nil⟩
  | @cons a' b' c' node slot route hfound hpart hrestRoute ih =>
    by_cases hrest : ∃ x ∈ met route c', x ∈ among
    · obtain ⟨front, back, z, rfl, hfront, hback, hz, htail⟩ := ih hrest
      exact ⟨(a', slot) :: front, back, z, rfl, .cons hfound hpart hfront, hback, hz, htail⟩
    · obtain ⟨x, hx, hmem⟩ := hsome
      rcases List.mem_cons.1 hx with rfl | hx
      · exact ⟨[], _, x, rfl, .nil x, .cons hfound hpart hrestRoute, hmem, fun y hy hy' => hrest ⟨y, hy, hy'⟩⟩
      · exact absurd ⟨x, hx, hmem⟩ hrest

end Route

theorem met_append : met (front ++ back) last = front.map Prod.fst ++ met back last := by
  rw [met, List.map_append, List.append_assoc, met]

theorem mem_met {id : ObjectId} : id ∈ met route last ↔ id ∈ route.map Prod.fst ∨ id = last := by
  rw [met, List.mem_append, List.mem_singleton]

/-- What a route meets begins with the node that it starts from. -/
theorem Route.met_eq (h : graph.Route a route c) : met route c = a :: (met route c).tail := by
  cases h <;> rfl

/-- **Fronts.** A route to a node of the only route, if it meets no node twice, is the front of that one. For the last
node of the rest that it has met, the route so far and the rest from there make a route of the same kind. -/
theorem OnlyRoute.front_eq (h : graph.OnlyRoute root (front ++ back) last) (hback : graph.Route b back last)
    (hroute : graph.Route root route b) (hsimple : (met route b).Nodup) : route = front := by
  have hb : b ∉ route.map Prod.fst := fun hmem =>
    (List.nodup_append.1 hsimple).2.2 b hmem b (List.mem_singleton_self b) rfl
  have howners : (route.map Prod.fst).Nodup := (List.nodup_append.1 hsimple).1
  have hrest : (met back last).Nodup := by
    have hall := h.simple
    rw [met_append] at hall
    exact (List.nodup_append.1 hall).2.1
  by_cases hmeets : ∃ x ∈ met back last, x ∈ route.map Prod.fst
  · -- `z` is the last node of the rest that the route has left; the route up to it and the rest from it are simple too
    obtain ⟨mid, rest, z, rfl, hmid, hz, hmem, htail⟩ := hback.last_of _ hmeets
    obtain ⟨before, after, rfl, hbefore, hafter, hne⟩ := hroute.split hmem
    have hafterOwners : z ∈ after.map Prod.fst := by
      cases hafter with
      | nil => exact absurd rfl hne
      | cons hfound hpart hrestRoute => exact List.mem_cons_self
    rw [List.map_append] at howners hb hmem htail
    obtain ⟨hbeforeNodup, -, hdisjoint⟩ := List.nodup_append.1 howners
    have hjoined : (met (before ++ rest) last).Nodup := by
      rw [met_append] at hrest
      rw [met_append]
      refine List.nodup_append.2 ⟨hbeforeNodup, (List.nodup_append.1 hrest).2.1, fun x hx y hy heq => ?_⟩
      subst heq
      rw [hz.met_eq] at hy
      rcases List.mem_cons.1 hy with rfl | hy
      · exact hdisjoint x hx x hafterOwners rfl
      · exact htail x hy (List.mem_append_left _ hx)
    have heq := h.only _ (hbefore.append hz) hjoined
    rw [← List.append_assoc, List.append_cancel_right_eq] at heq
    have hbz : b ≠ z := fun he => hb (he ▸ hmem)
    have hleft : b ∈ before.map Prod.fst := by
      rw [heq, List.map_append]
      exact List.mem_append_right _ (hmid.mem_of_ne hbz)
    exact absurd (List.mem_append_left _ hleft) hb
  · have hjoined : (met (route ++ back) last).Nodup := by
      rw [met_append]
      refine List.nodup_append.2 ⟨howners, hrest, fun x hx y hy heq => ?_⟩
      exact hmeets ⟨y, hy, heq ▸ hx⟩
    exact List.append_cancel_right (h.only _ (hroute.append hback) hjoined)

/-- Every node of the only route is where a front of it leads to. -/
theorem OnlyRoute.split (h : graph.OnlyRoute root route last) (hb : b ∈ met route last) :
    ∃ front back, route = front ++ back ∧ graph.Route root front b ∧ graph.Route b back last := by
  rcases mem_met.1 hb with hmem | rfl
  · obtain ⟨front, back, heq, hfront, hback, -⟩ := h.leads.split hmem
    exact ⟨front, back, heq, hfront, hback⟩
  · exact ⟨route, [], (List.append_nil route).symm, h.leads, .nil b⟩

/-- A part that is on the only route, and is new to a route that meets no node twice, is entered on both from the same
node and by the same slot. -/
theorem OnlyRoute.enters {node : ObjectNode} {slot : Nat} (h : graph.OnlyRoute root route last)
    (hfront : graph.Route root front a) (hsimple : (met front a).Nodup) (hfound : graph.get? a = some node)
    (hpart : node.shape.parts[slot]? = some b) (hnew : b ∉ met front a) (hb : b ∈ met route last) :
    ∃ back, route = front ++ (a, slot) :: back ∧ graph.Route b back last := by
  obtain ⟨before, back, rfl, -, hback⟩ := h.split hb
  have hmet : met (front ++ [(a, slot)]) b = met front a ++ [b] := by
    rw [met, met, List.map_append]
    rfl
  have hlonger : (met (front ++ [(a, slot)]) b).Nodup := by
    rw [hmet]
    exact hsimple.append (List.nodup_singleton b) (List.disjoint_singleton.2 hnew)
  obtain rfl := h.front_eq hback (hfront.snoc hfound hpart) hlonger
  exact ⟨back, List.append_assoc .., hback⟩

end TypeGraph

end GraphSchema
