import GraphSchema.Proofs.Abreast
import GraphSchema.Proofs.Annotations
import GraphSchema.Proofs.Routes
import GraphSchema.Proofs.Weights

/-!
Comments in a hash.

A comment is hashed as a text, and then it is one summand of the record, the node, the parts above and the root. So two
comments change the hash of a root by a multiple of the difference of the hashes of their texts.

- `ObjectNode.combine_withComment` : at the node itself the multiple is a power of the factor.
- `Hash.Sloped`, `TypeGraph.combine_sloped` : multiples go up from parts to nodes.
- `TypeGraph.Weighed` : what is known of each node when one route leads from the root to the comment. Along the route
  the multiples are powers of the factor, and elsewhere they are zero. It holds of graphs with cycles too.
- `comment_weighs` : the result for a root. `comment_hidden` : texts and graphs that do hide a comment.
-/

namespace GraphSchema

open Hash (step factor ofText Lone)
open TypeGraph (met)

/-! ## Writing a comment -/

/-- where a node has metadata: at itself, or at one of its properties -/
inductive Place where
  | node
  | property (position : Nat)

/-- the record with the text as its comment -/
def Metadata.withComment (m : Metadata) (text : String) : Metadata :=
  { m with comment := some text }

def Property.withComment (p : Property) (text : String) : Property :=
  { p with metadata := p.metadata.map (·.withComment text) }

def ObjectShape.withComment (position : Nat) (text : String) : ObjectShape → ObjectShape
  | .custom properties implements => .custom (properties.modify position (·.withComment text)) implements
  | shape => shape

namespace ObjectNode

/-- the metadata at a place of a node -/
def metadataAt (n : ObjectNode) : Place → Option Metadata
  | .node => n.metadata
  | .property position =>
    match n.shape with
    | .custom properties _ => properties[position]?.bind Property.metadata
    | _ => none

/-- The text becomes the comment of the metadata at a place, if there are any. -/
def withComment (n : ObjectNode) (text : String) : Place → ObjectNode
  | .node => { n with metadata := n.metadata.map (·.withComment text) }
  | .property position => { n with shape := n.shape.withComment position text }

end ObjectNode

/-- The text becomes the comment at a place of one node. -/
def TypeGraph.withComment (graph : TypeGraph) (id : ObjectId) (place : Place) (text : String) : TypeGraph :=
  ⟨graph.objects.modify id.index (·.withComment text place)⟩

/-! ## What a comment leaves alone -/

theorem Property.map_member?_modify (properties : List Property) (position : Nat) (text : String) :
    (properties.modify position (·.withComment text)).map Property.member? = properties.map Property.member? := by
  induction properties generalizing position with
  | nil => rw [List.modify_nil]
  | cons p rest ih =>
    cases position with
    | zero => rfl
    | succ position => rw [List.modify_succ_cons, List.map_cons, List.map_cons, ih]

/-- Weights ask of properties for their members only. -/
theorem Property.weighAll_congr {ps qs : List Property} (h : ps.map member? = qs.map member?) (ds : List UInt64) :
    weighAll ps ds = weighAll qs ds := by
  induction ps generalizing qs ds with
  | nil =>
    obtain rfl : qs = [] := List.map_eq_nil_iff.1 h.symm
    rfl
  | cons p rest ih =>
    cases qs with
    | nil => cases h
    | cons q others =>
      obtain ⟨hmember, hrest⟩ := List.cons.inj h
      unfold weighAll
      rw [hmember]
      cases q.member? with
      | none => exact congrArg _ (ih hrest ds)
      | some member => exact congrArg _ (ih hrest ds.tail)

namespace ObjectNode

variable (n : ObjectNode) (text : String) (place : Place)

theorem withComment_identity : (n.withComment text place).identity = n.identity := by
  cases place <;> rfl

theorem withComment_parts : (n.withComment text place).shape.parts = n.shape.parts := by
  cases place with
  | node => rfl
  | property position =>
    dsimp only [withComment]
    cases n.shape with
    | custom properties implements =>
      have h := congrArg (List.filterMap id) (Property.map_member?_modify properties position text)
      rw [List.filterMap_map, List.filterMap_map] at h
      exact h
    | _ => rfl

theorem withComment_weigh (ds : List UInt64) : (n.withComment text place).shape.weigh ds = n.shape.weigh ds := by
  cases place with
  | node => rfl
  | property position =>
    dsimp only [withComment]
    cases n.shape with
    | custom properties implements =>
      exact congrArg Hash.weigh (Property.weighAll_congr (Property.map_member?_modify properties position text) ds)
    | _ => rfl

end ObjectNode

namespace TypeGraph

variable (graph : TypeGraph) (id : ObjectId) (place : Place) (text : String)

theorem get?_withComment_self :
    (graph.withComment id place text).get? id = (graph.get? id).map (·.withComment text place) :=
  List.getElem?_modify_eq ..

theorem get?_withComment_of_ne {other : ObjectId} (hne : other ≠ id) :
    (graph.withComment id place text).get? other = graph.get? other :=
  List.getElem?_modify_ne _ _ fun heq => hne (congrArg ObjectId.mk heq).symm

/-- Under all texts, a position is that of nodes which weigh the same. -/
theorem get?_withComment {other : ObjectId} {n : ObjectNode} (hfound : graph.get? other = some n) :
    ∃ nodes : String → ObjectNode, ∀ text, (graph.withComment id place text).get? other = some (nodes text) ∧
      (nodes text).identity = n.identity ∧ (nodes text).shape.parts = n.shape.parts := by
  by_cases heq : other = id
  · subst heq
    refine ⟨fun text => n.withComment text place, fun text => ⟨?_, n.withComment_identity text place,
      n.withComment_parts text place⟩⟩
    rw [get?_withComment_self, hfound, Option.map_some]
  · exact ⟨fun _ => n, fun text => ⟨(graph.get?_withComment_of_ne id place text heq).trans hfound, rfl, rfl⟩⟩

theorem get?_withComment_none {other : ObjectId} (hmissing : graph.get? other = none) :
    (graph.withComment id place text).get? other = none := by
  by_cases heq : other = id
  · subst heq
    rw [get?_withComment_self, hmissing, Option.map_none]
  · exact (graph.get?_withComment_of_ne id place text heq).trans hmissing

theorem withComment_parallel : Parallel fun text => graph.withComment id place text := by
  intro other
  cases hfound : graph.get? other with
  | none => exact Or.inl fun text => graph.get?_withComment_none id place text hfound
  | some n =>
    obtain ⟨nodes, hnodes⟩ := graph.get?_withComment id place hfound
    exact Or.inr ⟨nodes, n.identity, n.shape.parts, hnodes⟩

/-- The nodes at a position, under all texts, are made from one node. -/
theorem exists_of_get?_withComment {other : ObjectId} {nodes : String → ObjectNode}
    (hnodes : ∀ text, (graph.withComment id place text).get? other = some (nodes text)) :
    ∃ n, graph.get? other = some n ∧ ∀ text, (nodes text).shape.parts = n.shape.parts := by
  cases hfound : graph.get? other with
  | none => cases (graph.get?_withComment_none id place "" hfound).symm.trans (hnodes "")
  | some n =>
    obtain ⟨made, hmade⟩ := graph.get?_withComment id place hfound
    refine ⟨n, rfl, fun text => ?_⟩
    rw [Option.some.inj ((hnodes text).symm.trans (hmade text).1), (hmade text).2.2]

end TypeGraph

/-! ## What a comment changes -/

/-- In a record, the comment is followed by one more component. -/
theorem Metadata.structuralHash_withComment (m : Metadata) (c c' : String) :
    (m.withComment c).structuralHash - (m.withComment c').structuralHash = factor * (ofText c - ofText c') := by
  have hhash : ∀ text, (m.withComment text).structuralHash = step (step (Hash.ofOrdered [Hash.ofText? m.title,
      Hash.ofText? m.description, Hash.ofOrdered (m.examples.map fun value => ofText value.compact)]) (ofText text))
      (if m.deprecated then 1 else 0) := fun _ => rfl
  rw [hhash, hhash, Hash.step_sub_right, Hash.step_sub_left, UInt64.mul_comm]

/-- In a property, metadata are followed by the nullability and by the shape. -/
theorem Property.combine_withComment {p : Property} {m : Metadata} (h : p.metadata = some m) (member : UInt64)
    (c c' : String) :
    (p.withComment c).combine member - (p.withComment c').combine member = factor ^ (3 : Nat) * (ofText c - ofText c') := by
  have hmetadata := m.structuralHash_withComment c c'
  unfold combine withComment
  rw [h]
  cases p.shape with
  | override schema | custom id default =>
    simp only [Hash.step_sub_right, Hash.step_sub_left, Option.map_some, Metadata.structuralHash?, Option.getD_some,
      hmetadata, UInt64.pow_succ, UInt64.pow_zero]
    grind

theorem zipWith_sub_self (items : List UInt64) : List.zipWith (· - ·) items items = items.map fun _ => 0 := by
  rw [List.zipWith_self]
  exact List.map_congr_left fun a _ => UInt64.sub_self a

/-- Among properties, the one whose comment it is makes the only difference. -/
theorem Property.combineAll_withComment {properties : List Property} {position : Nat} {m : Metadata}
    (h : properties[position]?.bind Property.metadata = some m) :
    ∃ items, Lone (factor ^ (3 : Nat)) items ∧ ∀ members c c', List.zipWith (· - ·)
      (combineAll (properties.modify position (·.withComment c)) members)
      (combineAll (properties.modify position (·.withComment c')) members) =
        items.map (· * (ofText c - ofText c')) := by
  induction properties generalizing position with
  | nil => cases h
  | cons p rest ih =>
    cases position with
    | zero =>
      refine ⟨factor ^ (3 : Nat) :: List.replicate rest.length 0, Lone.cons (fun x hx => List.eq_of_mem_replicate hx) _, ?_⟩
      intro members c c'
      have hfirst := fun member => combine_withComment (p := p) h member c c'
      have hrest : ∀ members, List.zipWith (· - ·) (combineAll rest members) (combineAll rest members) =
          (List.replicate rest.length 0).map (· * (ofText c - ofText c')) := by
        intro members
        rw [zipWith_sub_self, List.map_const', length_combineAll, List.map_replicate, UInt64.zero_mul]
      have hmember : ∀ text, (p.withComment text).member? = p.member? := fun _ => rfl
      simp only [List.modify_zero_cons, List.map_cons, combineAll, hmember]
      cases p.member? with
      | none => simp only [List.zipWith_cons_cons, hfirst, hrest]
      | some member => simp only [List.zipWith_cons_cons, hfirst, hrest]
    | succ position =>
      obtain ⟨items, hlone, hitems⟩ := ih h
      refine ⟨0 :: items, hlone.cons_zero, fun members c c' => ?_⟩
      simp only [List.modify_succ_cons, List.map_cons, UInt64.zero_mul, combineAll]
      cases p.member? with
      | none => simp only [List.zipWith_cons_cons, hitems, UInt64.sub_self]
      | some member => simp only [List.zipWith_cons_cons, hitems, UInt64.sub_self]

/-- **The node of the comment.** With the same hashes of its parts, its hashes under two comments differ by a power of the
factor times the difference of the hashes of the texts. -/
theorem ObjectNode.combine_withComment {n : ObjectNode} {place : Place} {m : Metadata}
    (h : n.metadataAt place = some m) : ∃ k : Nat, ∀ parts c c',
      (n.withComment c place).combine parts - (n.withComment c' place).combine parts =
        factor ^ k * (ofText c - ofText c') := by
  obtain ⟨identity, metadata, shape⟩ := n
  cases place with
  | node =>
    obtain rfl : metadata = some m := h
    refine ⟨2, fun parts c c' => ?_⟩
    have hmetadata := m.structuralHash_withComment c c'
    simp only [combine, withComment, kind, Hash.step_sub_right, Hash.step_sub_left, Option.map_some,
      Metadata.structuralHash?, Option.getD_some, hmetadata, UInt64.pow_succ, UInt64.pow_zero]
    grind
  | property position =>
    cases shape with
    | custom properties implements =>
      have hat : properties[position]?.bind Property.metadata = some m := h
      obtain ⟨items, hlone, hitems⟩ := Property.combineAll_withComment hat
      obtain ⟨k, hk⟩ := Hash.weigh_lone hlone
      refine ⟨3 + k, fun parts c c' => ?_⟩
      have hlength : ∀ text, (Property.combineAll (properties.modify position (·.withComment text)) parts).length =
          properties.length := fun text => by rw [Property.length_combineAll, List.length_modify]
      simp only [combine, withComment, kind, ObjectShape.withComment, ObjectShape.kind, ObjectShape.combine,
        Hash.step_sub_left]
      rw [Hash.ofOrdered_sub ((hlength c).trans (hlength c').symm), hitems, Hash.weigh_mul, hk]
      grind
    | _ => cases h

/-! ## Slopes -/

namespace Hash

/-- `f` gives a hash for each text, and two of them differ by `w` times the difference of the texts' hashes. -/
def Sloped (f : String → UInt64) (w : UInt64) : Prop :=
  ∀ c c', f c - f c' = w * (ofText c - ofText c')

theorem Sloped.const (value : UInt64) : Sloped (fun _ => value) 0 :=
  fun _ _ => by rw [UInt64.sub_self, UInt64.zero_mul]

theorem zipWith_sub_of_sloped {columns : List (String → UInt64)} {ws : List UInt64}
    (h : List.Forall₂ Sloped columns ws) (c c' : String) :
    List.zipWith (· - ·) (columns.map fun f => f c) (columns.map fun f => f c') =
      ws.map (· * (ofText c - ofText c')) := by
  induction h with
  | nil => rfl
  | cons hslope _ ih => rw [List.map_cons, List.map_cons, List.zipWith_cons_cons, List.map_cons, hslope c c', ih]

/-- Where the weight is a power of the factor, the texts' hashes decide. -/
theorem Sloped.eq_iff {f : String → UInt64} {k : Nat} (h : Sloped f (factor ^ k)) (c c' : String) :
    f c = f c' ↔ ofText c = ofText c' := by
  rw [← sub_eq_zero_iff, h c c', UInt64.mul_comm, mul_pow_eq_zero_iff, sub_eq_zero_iff]

end Hash

open Hash (Sloped)

namespace TypeGraph

variable {graph : TypeGraph} {x id : ObjectId} {place : Place} {n : ObjectNode} {nodes : String → ObjectNode}
  {columns : List (String → UInt64)} {ws : List UInt64}

/-- **Slopes of nodes.** The weight of a node's hash is what the weights of its parts come to; the node of the comment
has a power of the factor besides. -/
theorem combine_sloped {m : Metadata} (hplace : ∀ n, graph.get? x = some n → n.metadataAt place = some m)
    (hfound : graph.get? id = some n)
    (hnodes : ∀ text, (graph.withComment x place text).get? id = some (nodes text))
    (hcolumns : List.Forall₂ Sloped columns ws) :
    ∃ own, Sloped (fun text => (nodes text).combine (columns.map fun f => f text)) (n.shape.weigh ws + own) ∧
      (id = x → ∃ k : Nat, own = factor ^ k) ∧ (id ≠ x → own = 0) := by
  have hlength : ∀ c c', (columns.map fun f => f c).length = (columns.map fun f => f c').length := fun c c' => by
    rw [List.length_map, List.length_map]
  by_cases heq : id = x
  · subst heq
    obtain ⟨k, hk⟩ := ObjectNode.combine_withComment (hplace n hfound)
    refine ⟨factor ^ k, fun c c' => ?_, fun _ => ⟨k, rfl⟩, fun hne => absurd rfl hne⟩
    have hnode : ∀ text, nodes text = n.withComment text place := by
      intro text
      have hget := hnodes text
      rw [get?_withComment_self, hfound] at hget
      exact (Option.some.inj hget).symm
    have hparts := (n.withComment c place).combine_sub (hlength c c')
    rw [ObjectNode.withComment_weigh, Hash.zipWith_sub_of_sloped hcolumns, ObjectShape.weigh_mul] at hparts
    have hown := hk (columns.map fun f => f c') c c'
    dsimp only
    rw [hnode, hnode]
    grind
  · refine ⟨0, fun c c' => ?_, fun h => absurd h heq, fun _ => rfl⟩
    have hnode : ∀ text, nodes text = n := by
      intro text
      have hget := hnodes text
      rw [graph.get?_withComment_of_ne x place text heq, hfound] at hget
      exact (Option.some.inj hget).symm
    have hparts := n.combine_sub (hlength c c')
    rw [Hash.zipWith_sub_of_sloped hcolumns, ObjectShape.weigh_mul] at hparts
    dsimp only
    rw [hnode, hnode, hparts, UInt64.add_zero]

/-! ## Along the only route -/

/-- The nodes that a call is inside of are those of a route that leads to the node it comes to. -/
def Inside (graph : TypeGraph) (root : ObjectId) (active : List ObjectId) (id : ObjectId) : Prop :=
  active.Nodup ∧ ∃ front, graph.Route root front id ∧ front.map Prod.fst = active.reverse

theorem Inside.part {root part : ObjectId} {active : List ObjectId} (h : graph.Inside root active id)
    (hnew : id ∉ active) (hfound : graph.get? id = some n) (hpart : part ∈ n.shape.parts) :
    graph.Inside root (id :: active) part := by
  obtain ⟨hactive, front, hfront, howners⟩ := h
  obtain ⟨slot, hslot⟩ := List.mem_iff_getElem?.1 hpart
  refine ⟨List.nodup_cons.2 ⟨hnew, hactive⟩, front ++ [(id, slot)], hfront.snoc hfound hslot, ?_⟩
  rw [List.map_append, howners, List.reverse_cons, List.map_singleton]

/-- What is known of a weight at a node that is on the only route to the comment: it is a power of the factor. Elsewhere
it is zero. -/
def WeighsAlong (graph : TypeGraph) (root x : ObjectId) (id : ObjectId) (w : UInt64) : Prop :=
  ∀ route, graph.OnlyRoute root route x →
    (id ∈ met route x → ∃ k : Nat, w = factor ^ k) ∧ (id ∉ met route x → w = 0)

/-- what is known of the hashes of a node, under all texts -/
def Weighed (graph : TypeGraph) (root x : ObjectId) (id : ObjectId) (f : String → UInt64) : Prop :=
  ∃ w, Sloped f w ∧ graph.WeighsAlong root x id w

/-- what is known of the answer for a part: nodes that the call is inside of weigh nothing -/
def PartWeighs (graph : TypeGraph) (root x : ObjectId) (active : List ObjectId) (part : ObjectId) (w : UInt64) : Prop :=
  (part ∈ active → w = 0) ∧ (part ∉ active → graph.WeighsAlong root x part w)

theorem exists_weights {root : ObjectId} {active parts : List ObjectId}
    (h : List.Forall₂ (Hasher.Answer (graph.Weighed root x) active) parts columns) :
    ∃ ws, List.Forall₂ Sloped columns ws ∧ List.Forall₂ (graph.PartWeighs root x active) parts ws := by
  induction h with
  | nil => exact ⟨[], .nil, .nil⟩
  | @cons part f _ _ hanswer _ ih =>
    obtain ⟨ws, hslopes, hweighs⟩ := ih
    rcases hanswer with ⟨hactive, value, hvalue⟩ | ⟨hnew, w, hslope, hw⟩
    · obtain rfl : f = fun _ => value := funext hvalue
      exact ⟨0 :: ws, .cons (Sloped.const value) hslopes,
        .cons ⟨fun _ => rfl, fun hnew => absurd hactive hnew⟩ hweighs⟩
    · exact ⟨w :: ws, .cons hslope hslopes, .cons ⟨fun hactive => absurd hactive hnew, fun _ => hw⟩ hweighs⟩

/-- Only the part that the only route goes on to weighs anything. -/
theorem PartWeighs.eq_zero {root part : ObjectId} {active : List ObjectId} {w : UInt64} {slot : Nat}
    {front route : List (ObjectId × Nat)} (h : graph.PartWeighs root x (id :: active) part w)
    (honly : graph.OnlyRoute root route x) (hfront : graph.Route root front id)
    (howners : front.map Prod.fst = active.reverse) (hsimple : (met front id).Nodup)
    (hfound : graph.get? id = some n) (hslot : n.shape.parts[slot]? = some part)
    (hleaves : ∀ back, route ≠ front ++ (id, slot) :: back) : w = 0 := by
  by_cases hactive : part ∈ id :: active
  · exact h.1 hactive
  · refine (h.2 hactive route honly).2 fun hmet => ?_
    have hnew : part ∉ met front id := by
      rw [met, howners, ← List.reverse_cons]
      exact fun hmem => hactive (List.mem_reverse.1 hmem)
    obtain ⟨back, hroute, -⟩ := honly.enters hfront hsimple hfound hslot hnew hmet
    exact hleaves back hroute

/-- Where the only route goes on from a node, the weights of its parts are a lone power of the factor. Elsewhere all of
them are zero. -/
theorem weights_along {root : ObjectId} {active : List ObjectId} {route : List (ObjectId × Nat)}
    (honly : graph.OnlyRoute root route x) (hinside : graph.Inside root active id) (hnew : id ∉ active)
    (hfound : graph.get? id = some n) (hws : List.Forall₂ (graph.PartWeighs root x (id :: active)) n.shape.parts ws) :
    (id ∈ met route x ∧ id ≠ x → ∃ k : Nat, Lone (factor ^ k) ws) ∧
      (id ∉ met route x ∨ id = x → ∀ w ∈ ws, w = 0) := by
  obtain ⟨hactive, front, hfront, howners⟩ := hinside
  have hmet : met front id = (id :: active).reverse := by rw [met, howners, List.reverse_cons]
  have hsimple : (met front id).Nodup := by
    rw [hmet]
    exact List.nodup_reverse.2 (List.nodup_cons.2 ⟨hnew, hactive⟩)
  have hzero : ∀ slot w, ws[slot]? = some w → (∀ back, route ≠ front ++ (id, slot) :: back) → w = 0 := by
    intro slot w hw hleaves
    obtain ⟨part, hslot, hweighs⟩ := forall₂_left hws hw
    exact hweighs.eq_zero honly hfront howners hsimple hfound hslot hleaves
  constructor
  · rintro ⟨hid, hne⟩
    -- the route that the hasher has come by is the front of the only one, which goes on by one slot
    obtain ⟨before, back, rfl, -, hback⟩ := honly.split hid
    obtain rfl := honly.front_eq hback hfront hsimple
    cases hback with
    | nil => exact absurd rfl hne
    | @cons _ part _ node slot rest hfound' hslot hrest =>
      cases hfound.symm.trans hfound'
      obtain ⟨w, hw, hweighs⟩ := forall₂_right hws hslot
      have hpart : part ∈ met rest x := by
        rw [hrest.met_eq]
        exact List.mem_cons_self
      have hon : part ∈ met (front ++ (id, slot) :: rest) x := by
        rw [met_append]
        exact List.mem_append_right _ (List.mem_cons_of_mem _ hpart)
      have houtside : part ∉ id :: active := by
        have hall := honly.simple
        rw [met_append, met, List.map_cons, List.cons_append, List.append_cons] at hall
        intro hmem
        have hmem' : part ∈ met front id := hmet ▸ List.mem_reverse.2 hmem
        exact List.disjoint_of_nodup_append hall hmem' hpart
      obtain ⟨k, rfl⟩ := (hweighs.2 houtside _ honly).1 hon
      refine ⟨k, Lone.of_slot hw fun i y hy hi => hzero i y hy fun back heq => hi ?_⟩
      have hhead := (List.cons.inj (List.append_cancel_left heq)).1
      exact (congrArg Prod.snd hhead).symm
  · -- a part that weighs anything would put the node on the route, with a part behind it
    intro hoff w hw
    obtain ⟨slot, hslot⟩ := List.mem_iff_getElem?.1 hw
    refine hzero slot w hslot fun back heq => ?_
    have hon : id ∈ route.map Prod.fst := by
      rw [heq, List.map_append]
      exact List.mem_append_right _ List.mem_cons_self
    rcases hoff with hoff | rfl
    · exact hoff (List.mem_append_left _ hon)
    · exact (List.nodup_append.1 honly.simple).2.2 id hon id (List.mem_singleton_self id) rfl

/-- **Nodes on the way.** What is known of the answers for the parts of a node gives what is known of the node. -/
theorem weighed_node {root : ObjectId} {active : List ObjectId} {m : Metadata}
    (hplace : ∀ n, graph.get? x = some n → n.metadataAt place = some m) (hinside : graph.Inside root active id)
    (hnew : id ∉ active) (hfound : graph.get? id = some n)
    (hnodes : ∀ text, (graph.withComment x place text).get? id = some (nodes text))
    (hcolumns : List.Forall₂ (Hasher.Answer (graph.Weighed root x) (id :: active)) n.shape.parts columns) :
    graph.Weighed root x id fun text => (nodes text).combine (columns.map fun f => f text) := by
  obtain ⟨ws, hslopes, hws⟩ := exists_weights hcolumns
  obtain ⟨own, hslope, hown, hnone⟩ := combine_sloped hplace hfound hnodes hslopes
  refine ⟨_, hslope, fun route honly => ?_⟩
  obtain ⟨halong, helsewhere⟩ := weights_along honly hinside hnew hfound hws
  by_cases heq : id = x
  · obtain ⟨k, hk⟩ := hown heq
    have hpower : n.shape.weigh ws + own = factor ^ k := by
      rw [n.shape.weigh_zeros (helsewhere (Or.inr heq)), hk, UInt64.zero_add]
    exact ⟨fun _ => ⟨k, hpower⟩, fun hoff => absurd (mem_met.2 (Or.inr heq)) hoff⟩
  · have hsum : n.shape.weigh ws + own = n.shape.weigh ws := by rw [hnone heq, UInt64.add_zero]
    rw [hsum]
    refine ⟨fun hon => ?_, fun hoff => n.shape.weigh_zeros (helsewhere (Or.inl hoff))⟩
    obtain ⟨k, hk⟩ := halong ⟨hon, heq⟩
    obtain ⟨j, hj⟩ := ObjectShape.weigh_lone hk hws.length_eq.symm
    exact ⟨k + j, by rw [hj]; grind⟩

theorem withComment_carries {m : Metadata} (hplace : ∀ n, graph.get? x = some n → n.metadataAt place = some m)
    (root : ObjectId) : Hasher.Carries (graph.withComment x place) (graph.Inside root) (graph.Weighed root x) where
  parallel := graph.withComment_parallel x place
  down active id nodes part hinside hnew hnodes hpart := by
    obtain ⟨n, hfound, hparts⟩ := graph.exists_of_get?_withComment x place hnodes
    exact hinside.part hnew hfound (hparts "" ▸ hpart "")
  node active id nodes parts columns hinside hnew hnodes hparts hcolumns := by
    obtain ⟨n, hfound, hsame⟩ := graph.exists_of_get?_withComment x place hnodes
    obtain rfl : n.shape.parts = parts := (hsame "").symm.trans (hparts "")
    exact weighed_node hplace hinside hnew hfound hnodes hcolumns

end TypeGraph

/-- **Comments are visible.** Let a text be the comment at a place that has metadata, of a graph with or without cycles.
Under all texts a hasher fails with one error, or under all it answers. Then two of the hashes differ by a weight times
the difference of the hashes of the texts, and the weight does not depend on the texts. If one route that meets no node
twice leads from the root to the node, the weight is a power of the factor, and the hashes differ exactly if those of
the texts do. -/
theorem comment_weighs {graph : TypeGraph} {x : ObjectId} {n : ObjectNode} {place : Place} {m : Metadata}
    (hfound : graph.get? x = some n) (hplace : n.metadataAt place = some m) (root : ObjectId) (limit : Nat) :
    (∃ e, ∀ text, (graph.withComment x place text).structuralHash root limit = .error e) ∨
    ∃ (hash : String → UInt64) (w : UInt64),
      (∀ text, (graph.withComment x place text).structuralHash root limit = .ok (hash text)) ∧
      (∀ c c', hash c - hash c' = w * (ofText c - ofText c')) ∧
      ((∃ route, graph.OnlyRoute root route x) →
        (∃ k : Nat, w = factor ^ k) ∧ ∀ c c', hash c = hash c' ↔ ofText c = ofText c') := by
  have hat : ∀ n', graph.get? x = some n' → n'.metadataAt place = some m := by
    intro n' hfound'
    cases hfound.symm.trans hfound'
    exact hplace
  have hroot : graph.Inside root [] root := ⟨List.nodup_nil, [], .nil root, rfl⟩
  rcases structuralHash_together (graph.withComment_carries hat root) hroot limit with
    ⟨hash, ⟨w, hslope, hweighs⟩, hhash⟩ | ⟨e, he⟩
  · refine Or.inr ⟨hash, w, hhash, hslope, fun ⟨route, honly⟩ => ?_⟩
    have hmet : root ∈ met route x := by
      rw [honly.leads.met_eq]
      exact List.mem_cons_self
    obtain ⟨k, rfl⟩ := (hweighs route honly).1 hmet
    exact ⟨⟨k, rfl⟩, hslope.eq_iff⟩
  · exact Or.inl ⟨e, he⟩

/-- In the described list, a node that may be missing leads by one slot to the node, which comes back to it. -/
theorem describedList_onlyRoute : describedList.OnlyRoute ⟨2⟩ [(⟨2⟩, 0)] ⟨1⟩ where
  leads := .cons rfl rfl (.nil ⟨1⟩)
  simple := by decide
  only := by
    intro other hother hsimple
    cases hother with
    | @cons _ b _ node slot rest hfound hpart hrest' =>
      cases hfound
      match slot with
      | 0 =>
        cases hpart
        cases hrest' with
        | nil => rfl
        | cons hfound hpart hrest'' =>
          refine absurd hsimple fun h => ?_
          have htail := (List.nodup_cons.1 h).2
          exact (List.nodup_cons.1 htail).1 (List.mem_append_right _ (List.mem_singleton_self _))
      | _ + 1 => cases hpart

/-- The comment of a property in the described list, seen from a node that may be missing. -/
theorem comment_weighs_describedList :
    describedList.get? ⟨1⟩ = some describedList.objects[1] ∧
    describedList.objects[1].metadataAt (.property 0) = some { comment := some "none at the end" } ∧
    ∃ hash : String → UInt64,
      (∀ text, (describedList.withComment ⟨1⟩ (.property 0) text).structuralHash ⟨2⟩ 8 = .ok (hash text)) ∧
      ∀ c c', hash c = hash c' ↔ ofText c = ofText c' := by
  have hfound : describedList.get? ⟨1⟩ = some describedList.objects[1] := rfl
  have hplace : describedList.objects[1].metadataAt (.property 0) = some { comment := some "none at the end" } := rfl
  refine ⟨hfound, hplace, ?_⟩
  rcases comment_weighs hfound hplace ⟨2⟩ 8 with ⟨e, he⟩ | ⟨hash, w, hhash, -, honly⟩
  · have hok : ((describedList.withComment ⟨1⟩ (.property 0) "").structuralHash ⟨2⟩ 8).isOk = true := by decide +kernel
    rw [he ""] at hok
    cases hok
  · exact ⟨hash, hhash, (honly ⟨_, describedList_onlyRoute⟩).2⟩

/-! ## Comments that do not show -/

/-- a type with a comment -/
def remarked : TypeGraph := ⟨[{ identity := "A", metadata := some {}, shape := .system .string }]⟩

/-- Pairs of pairs, so many levels of them, over a type with a comment. -/
def remarkedTower (levels : Nat) : TypeGraph :=
  ⟨remarked.objects ++ (List.range levels).map fun i =>
    { identity := "(" ++ toString i ++ ")", shape := .tuple [⟨i⟩, ⟨i⟩] }⟩

/-- **Hidden comments.** Two texts have one hash, and so the type has one hash under both. And over thirteen levels of
pairs the weight of the type is a multiple of 2 ^ 64, so that not even texts with different hashes show at the root. -/
theorem comment_hidden :
    ("Aa" ≠ "BB" ∧ ((remarked.withComment ⟨0⟩ .node "Aa").structuralHash ⟨0⟩ 64).isOk = true ∧
      (remarked.withComment ⟨0⟩ .node "Aa").structuralHash ⟨0⟩ 64 =
        (remarked.withComment ⟨0⟩ .node "BB").structuralHash ⟨0⟩ 64) ∧
    (ofText "x" ≠ ofText "y" ∧ ((remarkedTower 13).withComment ⟨0⟩ .node "x").structuralHash ⟨13⟩ 64 =
        ((remarkedTower 13).withComment ⟨0⟩ .node "y").structuralHash ⟨13⟩ 64 ∧
      (((remarkedTower 13).withComment ⟨0⟩ .node "x").structuralHash ⟨13⟩ 64).isOk = true) := by
  decide +kernel

end GraphSchema
