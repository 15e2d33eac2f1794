import Mathlib.Data.List.Chain
import Mathlib.Data.List.Nodup
import Mathlib.Data.List.Perm.Subperm
import GraphSchema.Hash.Graph
import GraphSchema.Proofs.Reach

/-!
What a hasher's memory is worth: nothing but time, where no node is part of itself.

- `TypeGraph.TreeHash` is the plain recursion: a node's hash from its fields and from the hashes of its parts, with
  no memory, no mark on the nodes on the way and no limit. There is none where the recursion does not end.
- `Hasher.Ensures` says what a step keeps of the state, and what its answers and errors are; `Hasher.object_ensures` is
  the rule of a call.
- `Hasher.object_treeHash`: whatever was hashed before, what is remembered of a node without cycles is its tree hash.
- `Hasher.object_answers`: a node is hashed if there are as many levels as nodes on the longest way from it.
- `hash_eq_treeHash`: what this says of a hasher after any number of calls.
-/

namespace GraphSchema

open Hash (step ofText ofText? ofOrdered)

namespace TypeGraph

/-! ## Parts -/

/-- whether a node is part of what another one consists of -/
def HasPart (graph : TypeGraph) (a b : ObjectId) : Prop :=
  ∃ node, graph.get? a = some node ∧ b ∈ node.shape.parts

/-- whether a node is found from another one on a way of parts, possibly empty -/
def ReachesPart (graph : TypeGraph) : ObjectId → ObjectId → Prop :=
  Relation.ReflTransGen graph.HasPart

/-- All that a node consists of, at any depth, is in the graph, and none of it is part of itself. -/
structure IsTree (graph : TypeGraph) (id : ObjectId) : Prop where
  contains : ∀ part, graph.ReachesPart id part → graph.Contains part
  acyclic : ∀ part, graph.ReachesPart id part → ¬ Relation.TransGen graph.HasPart part part

end TypeGraph

/-! ## The plain recursion -/

/-- the hash of a property, from the hashes of nodes -/
def Property.hashFrom (f : ObjectId → UInt64) (p : Property) : UInt64 :=
  let head := step (step (step Hash.seed (ofText p.name)) (Metadata.structuralHash? p.metadata))
    p.nullability.ordinal
  match p.shape with
  | .override schema => step head (step 1 (ofText schema))
  | .custom member default => step head (step (step 2 (f member)) (ofText? default))

/-- the hash of what a shape consists of, from the hashes of nodes -/
def ObjectShape.hashFrom (f : ObjectId → UInt64) : ObjectShape → UInt64
  | .system primitive => primitive.ordinal
  | .override schema => ofText schema
  | .nullable element => f element
  | .generic base arguments => step (ofText base) (ofOrdered (arguments.map f))
  | .map base key value => step (step (ofText base) (f key)) (f value)
  | .array base element => step (ofText base) (f element)
  | .abstract implementations => ofOrdered (implementations.map f)
  | .custom properties _ => ofOrdered (properties.map (Property.hashFrom f))
  | .tuple elements => ofOrdered (elements.map f)

/-- the hash of a node, from the hashes of other nodes -/
def ObjectNode.hashFrom (f : ObjectId → UInt64) (n : ObjectNode) : UInt64 :=
  let head := step (step (step Hash.seed n.kind.ordinal) (ofText n.identity))
    (Metadata.structuralHash? n.metadata)
  step head (n.shape.hashFrom f)

/-- The plain recursion: a node has the hash that its fields and the hashes of its parts give. A node that is part of
itself has none. -/
inductive TypeGraph.TreeHash (graph : TypeGraph) : ObjectId → UInt64 → Prop
  | node {id : ObjectId} {n : ObjectNode} {f : ObjectId → UInt64} (hfound : graph.get? id = some n)
      (hparts : ∀ a ∈ n.shape.parts, TreeHash graph a (f a)) : TreeHash graph id (n.hashFrom f)

theorem Property.hashFrom_congr {f g : ObjectId → UInt64} {p : Property} (h : ∀ a ∈ p.member?, f a = g a) :
    p.hashFrom f = p.hashFrom g := by
  unfold hashFrom
  unfold member? at h
  cases hs : p.shape with
  | override schema => rfl
  | custom member default =>
    rw [hs] at h
    simp only [h member rfl]

theorem ObjectShape.hashFrom_congr {f g : ObjectId → UInt64} {s : ObjectShape} (h : ∀ a ∈ s.parts, f a = g a) :
    s.hashFrom f = s.hashFrom g := by
  unfold hashFrom
  cases s with
  | system primitive | override schema => rfl
  | nullable element | array base element => simp only [h element (List.mem_singleton_self _)]
  | map base key value => simp only [h key (by simp [parts]), h value (by simp [parts])]
  | generic base ids | abstract ids | tuple ids =>
    have hids : ∀ a ∈ ids, f a = g a := h
    simp only [List.map_congr_left hids]
  | custom properties implements =>
    have hproperties : ∀ p ∈ properties, p.hashFrom f = p.hashFrom g :=
      fun p hp => Property.hashFrom_congr fun a ha => h a (List.mem_filterMap.2 ⟨p, hp, ha⟩)
    simp only [List.map_congr_left hproperties]

namespace TypeGraph

variable {graph : TypeGraph}

theorem IsTree.part {a b : ObjectId} (h : graph.IsTree a) (hb : graph.HasPart a b) : graph.IsTree b where
  contains part hp := h.contains part (.head hb hp)
  acyclic part hp := h.acyclic part (.head hb hp)

/-- Where no node is part of itself, a way has no more nodes than the graph. -/
theorem IsTree.length_le {id : ObjectId} (h : graph.IsTree id) {way : List ObjectId}
    (hway : List.IsChain graph.HasPart (id :: way)) : (id :: way).length ≤ graph.size := by
  have hordered : List.Pairwise (Relation.TransGen graph.HasPart) (id :: way) :=
    List.isChain_iff_pairwise.1 (hway.imp fun _ _ hpart => .single hpart)
  have hreach : ∀ part ∈ id :: way, graph.ReachesPart id part := by
    intro part hp
    rcases List.mem_cons.1 hp with rfl | hp
    · exact .refl
    · exact ((List.pairwise_cons.1 hordered).1 part hp).to_reflTransGen
  have hdistinct : (id :: way).Nodup := by
    refine hordered.imp_of_mem fun {a b} ha _ hab he => ?_
    exact h.acyclic a (hreach a ha) (he ▸ hab)
  have hindices : ((id :: way).map ObjectId.index).Nodup :=
    hdistinct.map fun a b he => congrArg ObjectId.mk he
  have hbelow : (id :: way).map ObjectId.index ⊆ List.range graph.size := by
    intro i hi
    obtain ⟨part, hp, rfl⟩ := List.mem_map.1 hi
    exact List.mem_range.2 (h.contains part (hreach part hp))
  calc (id :: way).length = ((id :: way).map ObjectId.index).length := (List.length_map ..).symm
    _ ≤ (List.range graph.size).length := (hindices.subperm hbelow).length_le
    _ = graph.size := List.length_range

/-- The ways from a part are shorter. -/
theorem ways_of_hasPart {id a : ObjectId} {n : Nat} (hpart : graph.HasPart id a)
    (hlength : ∀ way, List.IsChain graph.HasPart (id :: way) → (id :: way).length ≤ n + 1)
    {way : List ObjectId} (hway : List.IsChain graph.HasPart (a :: way)) : (a :: way).length ≤ n := by
  have hlonger := hlength (a :: way) (List.isChain_cons_cons.2 ⟨hpart, hway⟩)
  simp only [List.length_cons] at hlonger ⊢
  omega

/-- The recursion gives a node one hash at most. -/
theorem TreeHash.unique {id : ObjectId} {x y : UInt64} (hx : graph.TreeHash id x) (hy : graph.TreeHash id y) :
    x = y := by
  induction hx generalizing y with
  | node hfound hparts ih =>
    cases hy with
    | node hfound' hparts' =>
      cases hfound.symm.trans hfound'
      unfold ObjectNode.hashFrom
      rw [ObjectShape.hashFrom_congr fun a ha => ih a ha (hparts' a ha)]

theorem exists_treeHash_of_ways {id : ObjectId} {n : Nat}
    (hcontains : ∀ part, graph.ReachesPart id part → graph.Contains part)
    (hlength : ∀ way, List.IsChain graph.HasPart (id :: way) → (id :: way).length ≤ n) :
    ∃ x, graph.TreeHash id x := by
  induction n generalizing id with
  | zero => exact absurd (hlength [] (List.isChain_singleton id)) (by simp)
  | succ n ih =>
    obtain ⟨node, hget⟩ := get?_of_contains (hcontains id .refl)
    have hparts : ∀ a ∈ node.shape.parts, ∃ x, graph.TreeHash a x := by
      intro a ha
      have hpart : graph.HasPart id a := ⟨node, hget, ha⟩
      exact ih (fun part hp => hcontains part (.head hpart hp)) fun way hway => ways_of_hasPart hpart hlength hway
    choose! f hf using hparts
    exact ⟨_, .node hget hf⟩

/-- Where no node is part of itself, the recursion ends. -/
theorem IsTree.exists_treeHash {id : ObjectId} (h : graph.IsTree id) : ∃ x, graph.TreeHash id x :=
  exists_treeHash_of_ways h.contains fun _ hway => h.length_le hway

end TypeGraph

namespace Hasher

/-! ## Steps -/

/-- From a state with `P` a step comes to a state with `P`, whether it fails or not; an answer has `Q`, and an error
has `E`. -/
def Ensures {α : Type} (P : Hasher → Prop) (body : HashM α) (Q : α → Prop) (E : GraphError → Prop) : Prop :=
  ∀ hasher, P hasher → P (run body hasher).2 ∧ (∀ a, (run body hasher).1 = .ok a → Q a) ∧
    ∀ e, (run body hasher).1 = .error e → E e

variable {α β : Type} {P : Hasher → Prop} {E : GraphError → Prop}

namespace Ensures

theorem mono {body : HashM α} {Q Q' : α → Prop} (h : Ensures P body Q E) (hq : ∀ a, Q a → Q' a) :
    Ensures P body Q' E := by
  intro hasher hp
  obtain ⟨hkeeps, hanswer, herror⟩ := h hasher hp
  exact ⟨hkeeps, fun a ha => hq a (hanswer a ha), herror⟩

theorem pure {a : α} {Q : α → Prop} (h : Q a) : Ensures P (pure a) Q E := by
  intro hasher hp
  refine ⟨hp, fun b hb => ?_, fun e he => ?_⟩
  · cases hb
    exact h
  · cases he

theorem throw {e : GraphError} {Q : α → Prop} (h : E e) : Ensures P (throw e) Q E := by
  intro hasher hp
  refine ⟨hp, fun a ha => ?_, fun e' he => ?_⟩
  · cases ha
  · cases he
    exact h

theorem bind {body : HashM α} {next : α → HashM β} {Q : α → Prop} {Q' : β → Prop} (h : Ensures P body Q E)
    (hnext : ∀ a, Q a → Ensures P (next a) Q' E) : Ensures P (body >>= next) Q' E := by
  intro hasher hp
  obtain ⟨hkeeps, hanswer, herror⟩ := h hasher hp
  rw [run_bind]
  rcases hrun : run body hasher with ⟨e | a, after⟩
  · rw [hrun] at hkeeps herror
    refine ⟨hkeeps, fun b hb => ?_, fun e' he => ?_⟩
    · cases hb
    · cases he
      exact herror e rfl
  · rw [hrun] at hkeeps hanswer
    exact hnext a (hanswer a rfl) after hkeeps

/-- A step for each item of a list, against a function that some of the items are held to. -/
theorem mapM {f : α → HashM β} {g : α → β} {D : α → Prop} {items : List α}
    (h : ∀ a ∈ items, Ensures P (f a) (fun b => D a → b = g a) E) :
    Ensures P (items.mapM f) (fun bs => (∀ a ∈ items, D a) → bs = items.map g) E := by
  induction items with
  | nil => exact pure fun _ => rfl
  | cons a rest ih =>
    rw [List.mapM_cons]
    refine (h a List.mem_cons_self).bind fun b hb => ?_
    refine (ih fun a ha => h a (List.mem_cons_of_mem _ ha)).bind fun bs hbs => ?_
    refine pure fun hd => ?_
    rw [List.map_cons, hb (hd a List.mem_cons_self), hbs fun a ha => hd a (List.mem_cons_of_mem _ ha)]

end Ensures

/-! ## Nodes

What is known of the parts of a node carries over to the node: the answers for the parts that have `C` are held to `f`,
and the answer for the node is what `f` gives if all its parts have `C`. -/

variable {graph : TypeGraph} {C : ObjectId → Prop} {hash : ObjectId → HashM UInt64} {f : ObjectId → UInt64}

theorem property_ensures {p : Property} (h : ∀ a ∈ p.member?, Ensures P (hash a) (fun x => C a → x = f a) E) :
    Ensures P (property hash p) (fun x => (∀ a ∈ p.member?, C a) → x = p.hashFrom f) E := by
  unfold property Property.hashFrom
  unfold Property.member? at h ⊢
  cases hs : p.shape with
  | override schema => exact Ensures.pure fun _ => rfl
  | custom member default =>
    rw [hs] at h
    refine (h member rfl).bind fun x hx => Ensures.pure fun hc => ?_
    rw [hx (hc member rfl)]

theorem shape_ensures {s : ObjectShape} (h : ∀ a ∈ s.parts, Ensures P (hash a) (fun x => C a → x = f a) E) :
    Ensures P (shape hash s) (fun x => (∀ a ∈ s.parts, C a) → x = s.hashFrom f) E := by
  unfold ObjectShape.parts at h ⊢
  unfold ObjectShape.hashFrom
  cases s with
  | system primitive => exact Ensures.pure fun _ => rfl
  | override schema => exact Ensures.pure fun _ => rfl
  | nullable element =>
    refine (h element (List.mem_singleton_self _)).mono fun x hx hc => ?_
    exact hx (hc element (List.mem_singleton_self _))
  | generic base arguments =>
    refine (Ensures.mapM h).bind fun xs hxs => Ensures.pure fun hc => ?_
    rw [hxs hc]
  | map base key value =>
    refine (h key (by simp)).bind fun x hx => (h value (by simp)).bind fun y hy => Ensures.pure fun hc => ?_
    rw [hx (hc key (by simp)), hy (hc value (by simp))]
  | array base element =>
    refine (h element (List.mem_singleton_self _)).bind fun x hx => Ensures.pure fun hc => ?_
    rw [hx (hc element (List.mem_singleton_self _))]
  | abstract implementations =>
    refine (Ensures.mapM h).bind fun xs hxs => Ensures.pure fun hc => ?_
    rw [hxs hc]
  | custom properties implements =>
    have hmember : ∀ p ∈ properties, ∀ a ∈ p.member?, a ∈ properties.filterMap Property.member? :=
      fun p hp a ha => List.mem_filterMap.2 ⟨p, hp, ha⟩
    have hprops := Ensures.mapM fun p hp => property_ensures fun a ha => h a (hmember p hp a ha)
    refine hprops.bind fun xs hxs => Ensures.pure fun hc => ?_
    rw [hxs fun p hp a ha => hc a (hmember p hp a ha)]
  | tuple elements =>
    refine (Ensures.mapM h).bind fun xs hxs => Ensures.pure fun hc => ?_
    rw [hxs hc]

theorem node_ensures {n : ObjectNode} (h : ∀ a ∈ n.shape.parts, Ensures P (hash a) (fun x => C a → x = f a) E) :
    Ensures P (node hash n) (fun x => (∀ a ∈ n.shape.parts, C a) → x = n.hashFrom f) E := by
  refine (shape_ensures h).bind fun x hx => Ensures.pure fun hc => ?_
  rw [hx hc, ObjectNode.hashFrom]

/-! ## One call

Inside of `active`, a hasher has these marks and as many levels. Whatever a call does, they are given back. -/

theorem run_object {limit room : Nat} {id : ObjectId} (hasher : Hasher) :
    run (object graph limit room id) hasher =
      match List.lookup id hasher.finished with
      | some h => (.ok h, hasher)
      | none =>
        match graph.get? id with
        | none => (.error (.danglingNode "<graph>" id), hasher)
        | some n =>
          match room with
          | 0 => (.error (.depthExceeded limit n.identity), hasher)
          | room + 1 =>
            if hasher.active.contains id then (.ok (cycleHash n.identity), hasher)
            else
              match run (inside id (node (object graph limit room) n)) hasher with
              | (.ok h, after) => (.ok h, { after with finished := (id, h) :: after.finished })
              | (.error e, after) => (.error e, after) := by
  unfold object
  rw [run_bind, run_get]
  dsimp only
  cases List.lookup id hasher.finished with
  | some h => rfl
  | none =>
    dsimp only
    have hlift : run (liftExcept (graph.get id)) hasher = (graph.get id, hasher) := by
      cases graph.get id <;> rfl
    rw [run_bind, hlift]
    unfold TypeGraph.get
    cases graph.get? id with
    | none => rfl
    | some n =>
      cases room with
      | zero => rfl
      | succ room =>
        dsimp only
        split_ifs
        · rfl
        · rw [run_bind]
          rcases run (inside id (node (object graph limit room) n)) hasher with ⟨e | h, after⟩ <;> rfl

/-- A call for a node that is neither remembered nor being hashed does the steps of the node. -/
theorem run_object_inside (limit room : Nat) {id : ObjectId} {n : ObjectNode} {hasher : Hasher}
    (hnone : List.lookup id hasher.finished = none) (hget : graph.get? id = some n) (hnew : id ∉ hasher.active) :
    run (object graph limit (room + 1) id) hasher =
      match run (inside id (node (object graph limit room) n)) hasher with
      | (.ok h, after) => (.ok h, { after with finished := (id, h) :: after.finished })
      | (.error e, after) => (.error e, after) := by
  rw [run_object, hnone, hget]
  dsimp only
  exact if_neg (by rwa [List.contains_iff_mem])

/-- where a hasher stands: inside of these nodes, with a memory that has `M` -/
structure Stands (M : List (ObjectId × UInt64) → Prop) (active : List ObjectId) (hasher : Hasher) : Prop where
  marks : hasher.active = active
  depth : hasher.depth = active.length
  memory : M hasher.finished

variable {M : List (ObjectId × UInt64) → Prop} {active : List ObjectId} {Q : UInt64 → Prop}

theorem inside_ensures {id : ObjectId} {body : HashM UInt64} (h : Ensures (Stands M (id :: active)) body Q E) :
    Ensures (Stands M active) (inside id body) Q E := by
  intro hasher hs
  have hentered : Stands M (id :: active)
      { hasher with active := id :: hasher.active, depth := hasher.depth + 1 } :=
    ⟨by rw [hs.marks], by rw [hs.depth, List.length_cons], hs.memory⟩
  obtain ⟨hkeeps, hanswer, herror⟩ := h _ hentered
  rw [run_inside]
  refine ⟨⟨?_, ?_, hkeeps.memory⟩, hanswer, herror⟩
  · dsimp only
    rw [hkeeps.marks, List.erase_cons_head]
  · dsimp only
    rw [hkeeps.depth, List.length_cons, Nat.add_sub_cancel]

/-- **The rule of a call.** A call answers from the memory, or with the mark of a cycle, or with the hash of the node,
which is then remembered. It fails where there is no node, where no level is left, or where its node fails. -/
theorem object_ensures {limit room : Nat} {id : ObjectId}
    (hmemory : ∀ memory h, M memory → List.lookup id memory = some h → Q h)
    (hmissing : graph.get? id = none → E (.danglingNode "<graph>" id))
    (hlimit : ∀ n, graph.get? id = some n → room = 0 → E (.depthExceeded limit n.identity))
    (hcycle : ∀ n, graph.get? id = some n → id ∈ active → Q (cycleHash n.identity))
    (hnode : ∀ n below, graph.get? id = some n → room = below + 1 → id ∉ active →
      Ensures (Stands M (id :: active)) (node (object graph limit below) n) Q E)
    (hstore : ∀ memory h, M memory → Q h → M ((id, h) :: memory)) :
    Ensures (Stands M active) (object graph limit room id) Q E := by
  intro hasher hs
  rw [run_object]
  cases hlookup : List.lookup id hasher.finished with
  | some h => exact Ensures.pure (hmemory _ h hs.memory hlookup) hasher hs
  | none =>
    cases hget : graph.get? id with
    | none => exact Ensures.throw (hmissing hget) hasher hs
    | some n =>
      cases room with
      | zero => exact Ensures.throw (hlimit n hget rfl) hasher hs
      | succ below =>
        dsimp only
        by_cases hactive : id ∈ active
        · rw [if_pos (by rwa [hs.marks, List.contains_iff_mem])]
          exact Ensures.pure (hcycle n hget hactive) hasher hs
        · rw [if_neg (by rwa [hs.marks, List.contains_iff_mem])]
          obtain ⟨hkeeps, hanswer, herror⟩ := inside_ensures (hnode n below hget rfl hactive) hasher hs
          rcases hrun : run (inside id (node (object graph limit below) n)) hasher with ⟨e | h, after⟩
          · rw [hrun] at hkeeps herror
            exact Ensures.throw (herror e rfl) after hkeeps
          · rw [hrun] at hkeeps hanswer
            have hq := hanswer h rfl
            have hstored := hstore _ h hkeeps.memory hq
            exact Ensures.pure hq { after with finished := (id, h) :: after.finished }
              ⟨hkeeps.marks, hkeeps.depth, hstored⟩

/-! ## Answers are tree hashes -/

/-- What is remembered of a node without cycles is its tree hash. -/
def Sound (graph : TypeGraph) (memory : List (ObjectId × UInt64)) : Prop :=
  ∀ id h, List.lookup id memory = some h → graph.IsTree id → graph.TreeHash id h

/-- **Transparency.** From a sound memory, a call answers for a node without cycles with its tree hash, and leaves a
sound memory behind, also where it fails. The nodes that are marked lead to the one that is called for, so that one
of them is met again only in a cycle. -/
theorem object_treeHash (graph : TypeGraph) (limit room : Nat) {id : ObjectId}
    (hway : ∀ a ∈ active, Relation.TransGen graph.HasPart a id) :
    Ensures (Stands (Sound graph) active) (object graph limit room id)
      (fun h => graph.IsTree id → graph.TreeHash id h) (fun _ => True) := by
  have htrees : ∀ a, graph.IsTree a → ∃ x, graph.TreeHash a x := fun a ha => ha.exists_treeHash
  choose! f hf using htrees
  induction room using Nat.strong_induction_on generalizing id active with
  | h room ih =>
    refine object_ensures (fun memory h hm hl => hm id h hl) (fun _ => trivial) (fun _ _ _ => trivial) ?_ ?_ ?_
    · intro n _ hactive htree
      exact absurd (hway id hactive) (htree.acyclic id .refl)
    · intro n below hget hroom _
      have hpart : ∀ a ∈ n.shape.parts, graph.HasPart id a := fun a ha => ⟨n, hget, ha⟩
      have hparts : ∀ a ∈ n.shape.parts, Ensures (Stands (Sound graph) (id :: active))
          (object graph limit below a) (fun h => graph.IsTree a → h = f a) fun _ => True := by
        intro a ha
        have hmarked : ∀ b ∈ id :: active, Relation.TransGen graph.HasPart b a :=
          List.forall_mem_cons.2 ⟨.single (hpart a ha), fun b hb => (hway b hb).tail (hpart a ha)⟩
        exact (ih below (by omega) hmarked).mono fun h hh htree => (hh htree).unique (hf a htree)
      refine (node_ensures hparts).mono fun h hh htree => ?_
      have hbelow : ∀ a ∈ n.shape.parts, graph.IsTree a := fun a ha => htree.part (hpart a ha)
      rw [hh hbelow]
      exact .node hget fun a ha => hf a (hbelow a ha)
    · intro memory h hm hh i x hl htree
      rw [List.lookup_cons] at hl
      split at hl
      · rename_i heq
        cases hl
        rw [beq_iff_eq.1 heq] at htree ⊢
        exact hh htree
      · exact hm i x hl htree

/-! ## Enough levels -/

/-- **Enough.** A call answers if all that its node consists of is in the graph and no way from it has more nodes than
there are levels. -/
theorem object_answers (limit : Nat) {room : Nat} {id : ObjectId}
    (hcontains : ∀ part, graph.ReachesPart id part → graph.Contains part)
    (hlength : ∀ way, List.IsChain graph.HasPart (id :: way) → (id :: way).length ≤ room) :
    Ensures (Stands (fun _ => True) active) (object graph limit room id) (fun _ => True) (fun _ => False) := by
  induction room generalizing id active with
  | zero => exact absurd (hlength [] (List.isChain_singleton id)) (by simp)
  | succ room ih =>
    refine object_ensures (fun _ _ _ _ => trivial) (fun hnone => ?_) (fun _ _ hroom => by omega)
      (fun _ _ _ => trivial) ?_ (fun _ _ _ _ => trivial)
    · obtain ⟨n, hget⟩ := TypeGraph.get?_of_contains (hcontains id .refl)
      rw [hnone] at hget
      cases hget
    · intro n below hget hroom _
      obtain rfl : below = room := by omega
      refine (node_ensures (C := fun _ => False) (f := fun _ => 0) fun a ha => ?_).mono fun _ _ => trivial
      have hpart : graph.HasPart id a := ⟨n, hget, ha⟩
      refine (ih (fun part hp => hcontains part (.head hpart hp)) fun way hway => ?_).mono fun _ _ hc => hc.elim
      exact TypeGraph.ways_of_hasPart hpart hlength hway

/-! ## Hashers in use -/

/-- the hasher that these calls leave behind, each with its limit, whether it answered or failed -/
def afterCalls (graph : TypeGraph) (calls : List (Nat × ObjectId)) : Hasher :=
  calls.foldl (fun hasher call => (run (hashObject graph call.1 call.2) hasher).2) {}

/-- what a call comes to after other ones -/
def answerAfter (graph : TypeGraph) (calls : List (Nat × ObjectId)) (limit : Nat) (id : ObjectId) :
    Except GraphError UInt64 :=
  (run (hashObject graph limit id) (afterCalls graph calls)).1

theorem run_hashObject {limit : Nat} {id : ObjectId} {hasher : Hasher} (h : hasher.depth = 0) :
    run (hashObject graph limit id) hasher = run (object graph limit limit id) hasher := by
  unfold hashObject
  rw [run_bind, run_get]
  simp only [h, Nat.sub_zero]

/-- After any calls a hasher is inside of no node, and its memory is sound. -/
theorem stands_afterCalls (graph : TypeGraph) (calls : List (Nat × ObjectId)) :
    Stands (Sound graph) [] (afterCalls graph calls) := by
  have hkeeps : ∀ (calls : List (Nat × ObjectId)) (hasher : Hasher), Stands (Sound graph) [] hasher →
      Stands (Sound graph) []
        (calls.foldl (fun hasher call => (run (hashObject graph call.1 call.2) hasher).2) hasher) := by
    intro calls
    induction calls with
    | nil => exact fun _ hs => hs
    | cons call rest ih =>
      intro hasher hs
      refine ih _ ?_
      dsimp only
      rw [run_hashObject hs.depth]
      exact (object_treeHash graph call.1 call.1 (by simp) hasher hs).1
  refine hkeeps calls {} ⟨rfl, rfl, fun id h hl => ?_⟩
  cases hl

end Hasher

open Hasher (answerAfter)

/-- **Memory changes no hash.** Let all that a node consists of be in the graph, and none of it be part of itself.
Then the plain recursion has one value for the node. Whatever was called before, with whatever limits and outcomes, an
answer for the node is that value; and there is an answer if no way from the node has more nodes than the limit
allows. -/
theorem hash_eq_treeHash {graph : TypeGraph} {id : ObjectId} (h : graph.IsTree id) :
    ∃ x, (∀ y, graph.TreeHash id y ↔ y = x) ∧ ∀ (calls : List (Nat × ObjectId)) (limit : Nat),
      (∀ y, answerAfter graph calls limit id = .ok y → y = x) ∧
      ((∀ way, List.IsChain graph.HasPart (id :: way) → (id :: way).length ≤ limit) →
        answerAfter graph calls limit id = .ok x) := by
  obtain ⟨x, hx⟩ := h.exists_treeHash
  refine ⟨x, fun y => ⟨fun hy => hy.unique hx, fun he => he ▸ hx⟩, fun calls limit => ?_⟩
  have hs := Hasher.stands_afterCalls graph calls
  rw [answerAfter, Hasher.run_hashObject hs.depth]
  obtain ⟨-, hsound, -⟩ := Hasher.object_treeHash graph limit limit (by simp) _ hs
  refine ⟨fun y hy => (hsound y hy h).unique hx, fun hlength => ?_⟩
  have hstands : Hasher.Stands (fun _ => True) [] (Hasher.afterCalls graph calls) := ⟨hs.marks, hs.depth, trivial⟩
  obtain ⟨-, -, hnone⟩ := Hasher.object_answers limit h.contains hlength _ hstands
  cases hresult : (Hasher.run (Hasher.object graph limit limit id) (Hasher.afterCalls graph calls)).1 with
  | ok y => rw [(hsound y hresult h).unique hx]
  | error e => exact (hnone e hresult).elim

/-! ## A shared part -/

/-- A pair of the same array twice, and beside it a value that may be null and is nothing else. -/
def sharedPair : TypeGraph := ⟨[
  { identity := "string", shape := .system .string },
  { identity := "string[]", shape := .array "Array" ⟨0⟩ },
  { identity := "(string[], string[])", shape := .tuple [⟨1⟩, ⟨1⟩] },
  { identity := "Loop", shape := .nullable ⟨3⟩ }]⟩

theorem sharedPair_descends {a b : ObjectId} (h : sharedPair.HasPart a b) (ha : a.index ≤ 2) : b.index < a.index := by
  obtain ⟨node, hget, hb⟩ := h
  obtain ⟨i⟩ := a
  have hi : i ≤ 2 := ha
  obtain rfl | rfl | rfl : i = 0 ∨ i = 1 ∨ i = 2 := by omega
  · cases hget
    cases hb
  · cases hget
    obtain rfl := List.mem_singleton.1 hb
    decide
  · cases hget
    obtain rfl : b = ⟨1⟩ := by simpa [ObjectShape.parts] using hb
    decide

theorem sharedPair_reaches {part : ObjectId} (h : sharedPair.ReachesPart ⟨2⟩ part) : part.index ≤ 2 := by
  induction h with
  | refl => exact Nat.le_refl 2
  | tail _ hstep ih => exact Nat.le_of_lt (Nat.lt_of_lt_of_le (sharedPair_descends hstep ih) ih)

theorem sharedPair_isTree : sharedPair.IsTree ⟨2⟩ where
  contains part hp := Nat.lt_of_le_of_lt (sharedPair_reaches hp) (by decide)
  acyclic part hp hcycle := by
    have hless : ∀ {b}, Relation.TransGen sharedPair.HasPart part b → b.index < part.index := by
      intro b hb
      induction hb with
      | single hstep => exact sharedPair_descends hstep (sharedPair_reaches hp)
      | tail _ hstep ih =>
        have hlow := Nat.le_of_lt (Nat.lt_of_lt_of_le ih (sharedPair_reaches hp))
        exact Nat.lt_trans (sharedPair_descends hstep hlow) ih
    exact Nat.lt_irrefl _ (hless hcycle)

theorem sharedPair_length_le {way : List ObjectId} {a : ObjectId} (ha : a.index ≤ 2)
    (hway : List.IsChain sharedPair.HasPart (a :: way)) : (a :: way).length ≤ a.index + 1 := by
  induction way generalizing a with
  | nil => simp
  | cons b rest ih =>
    obtain ⟨hstep, hrest⟩ := List.isChain_cons_cons.1 hway
    have hless := sharedPair_descends hstep ha
    have hlength := ih (by omega) hrest
    simp only [List.length_cons] at hlength ⊢
    omega

/-- After a call that had too few levels, one for a cycle and one for no node, three levels are enough for the pair,
and its hash is that of the plain recursion. -/
theorem hash_eq_treeHash_sharedPair :
    sharedPair.IsTree ⟨2⟩ ∧
      (∀ way, List.IsChain sharedPair.HasPart (⟨2⟩ :: way) → (⟨2⟩ :: way : List ObjectId).length ≤ 3) ∧
      ∃ x, answerAfter sharedPair [(1, ⟨2⟩), (5, ⟨3⟩), (5, ⟨9⟩)] 3 ⟨2⟩ = .ok x ∧ sharedPair.TreeHash ⟨2⟩ x := by
  have hlength : ∀ way, List.IsChain sharedPair.HasPart (⟨2⟩ :: way) → (⟨2⟩ :: way : List ObjectId).length ≤ 3 :=
    fun way hway => sharedPair_length_le (Nat.le_refl 2) hway
  obtain ⟨x, hvalue, hanswers⟩ := hash_eq_treeHash sharedPair_isTree
  obtain ⟨-, hanswer⟩ := hanswers [(1, ⟨2⟩), (5, ⟨3⟩), (5, ⟨9⟩)] 3
  exact ⟨sharedPair_isTree, hlength, x, hanswer hlength, (hvalue x).2 rfl⟩

end GraphSchema
