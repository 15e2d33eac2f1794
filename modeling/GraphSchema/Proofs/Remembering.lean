import GraphSchema.Proofs.HashParts
import GraphSchema.Proofs.Runs

/-!
What a hasher is left with by a call, whether it answers or fails.

A call may fail far down, where nodes on the way are marked and counted as levels. Each of them takes back its mark and its
level when it is left, and nothing else in the memory is touched. A node whose hash is put into the memory has had none
there: it was looked up first, and has been marked ever since.

- `Hasher.Grows` : the marks and the depth are as before, and all that is new in the memory is of nodes that were neither
  there nor marked.
- `Hasher.object_keeps` : so it is for a call from any state, with any number of levels.
- `Hasher.run_object_ok` : a call outside of its node that answers is remembered.
- `Hasher.object_fails` : the two ways in which a call fails.
- `hasher_stays_usable` : what this comes to for a hasher that has been called any number of times.
-/

namespace GraphSchema

namespace Hasher

/-- the hash that is remembered of a node -/
def hash? (hasher : Hasher) (id : ObjectId) : Option UInt64 :=
  List.lookup id hasher.finished

/-- the nodes whose hashes are remembered -/
def remembered (hasher : Hasher) : List ObjectId :=
  hasher.finished.map Prod.fst

theorem hash?_eq_none_iff {hasher : Hasher} {id : ObjectId} : hasher.hash? id = none ↔ id ∉ hasher.remembered := by
  unfold hash? remembered
  rw [List.lookup_eq_none_iff, List.mem_map]
  constructor
  · rintro h ⟨entry, hentry, rfl⟩
    simpa using h entry hentry
  · intro h entry hentry
    rw [bne_iff_ne]
    rintro rfl
    exact h ⟨entry, hentry, rfl⟩

/-! ## Steps -/

/-- What a step leaves. The memory only grows, by one entry for each of some nodes that had none and were not marked. -/
structure Grows (before after : Hasher) : Prop where
  depth : after.depth = before.depth
  active : after.active = before.active
  memory : ∃ fresh, after.finished = fresh ++ before.finished ∧ (fresh.map Prod.fst).Nodup ∧
    ∀ id ∈ fresh.map Prod.fst, id ∉ before.remembered ∧ id ∉ before.active

namespace Grows

variable {a b c : Hasher} {id : ObjectId}

theorem refl (hasher : Hasher) : hasher.Grows hasher :=
  ⟨rfl, rfl, [], rfl, List.nodup_nil, fun _ h => absurd h List.not_mem_nil⟩

theorem trans (h : a.Grows b) (h' : b.Grows c) : a.Grows c := by
  obtain ⟨first, hfirst, hnodup, hnew⟩ := h.memory
  obtain ⟨second, hsecond, hnodup', hnew'⟩ := h'.memory
  have hremembered : b.remembered = first.map Prod.fst ++ a.remembered := by
    rw [remembered, hfirst, List.map_append, remembered]
  refine ⟨h'.depth.trans h.depth, h'.active.trans h.active, second ++ first, ?_, ?_, ?_⟩
  · rw [hsecond, hfirst, List.append_assoc]
  · rw [List.map_append, List.nodup_append]
    refine ⟨hnodup', hnodup, fun i hi j hj hsame => ?_⟩
    apply (hnew' i hi).1
    rw [hremembered, hsame]
    exact List.mem_append_left _ hj
  · intro i hi
    rw [List.map_append, List.mem_append] at hi
    rcases hi with hi | hi
    · obtain ⟨hold, hmarked⟩ := hnew' i hi
      rw [hremembered, List.mem_append, not_or] at hold
      rw [h.active] at hmarked
      exact ⟨hold.2, hmarked⟩
    · exact hnew i hi

/-- What is remembered stays, with the same hash. -/
theorem hash? {hash : UInt64} (h : a.Grows b) (hhash : a.hash? id = some hash) : b.hash? id = some hash := by
  obtain ⟨fresh, hfresh, -, hnew⟩ := h.memory
  have hmiss : List.lookup id fresh = none := by
    rw [List.lookup_eq_none_iff]
    intro entry hentry
    rw [bne_iff_ne]
    rintro rfl
    have hnone := hash?_eq_none_iff.2 (hnew entry.1 (List.mem_map_of_mem hentry)).1
    rw [hnone] at hhash
    cases hhash
  rw [Hasher.hash?, hfresh, List.lookup_append, hmiss, Option.none_or]
  exact hhash

theorem suffix (h : a.Grows b) : a.finished <:+ b.finished := by
  obtain ⟨fresh, hfresh, -⟩ := h.memory
  exact ⟨fresh, hfresh.symm⟩

theorem nodup (h : a.Grows b) (hnodup : a.remembered.Nodup) : b.remembered.Nodup := by
  obtain ⟨fresh, hfresh, hdistinct, hnew⟩ := h.memory
  rw [remembered, hfresh, List.map_append, List.nodup_append]
  refine ⟨hdistinct, hnodup, fun i hi j hj hsame => ?_⟩
  subst hsame
  exact (hnew i hi).1 hj

end Grows

/-- the state inside of a node that is entered -/
def entering (id : ObjectId) (hasher : Hasher) : Hasher :=
  { hasher with active := id :: hasher.active, depth := hasher.depth + 1 }

/-- the state when a node is left -/
def leaving (id : ObjectId) (hasher : Hasher) : Hasher :=
  { hasher with active := hasher.active.erase id, depth := hasher.depth - 1 }

/-- A node that is left takes back its mark and its level. -/
theorem Grows.leave {hasher after : Hasher} {id : ObjectId} (h : (entering id hasher).Grows after) :
    hasher.Grows (leaving id after) := by
  obtain ⟨fresh, hfresh, hnodup, hnew⟩ := h.memory
  refine ⟨?_, ?_, fresh, hfresh, hnodup, fun i hi => ?_⟩
  · rw [leaving, h.depth, entering, Nat.add_sub_cancel]
  · rw [leaving, h.active, entering, List.erase_cons_head]
  · obtain ⟨hold, hmarked⟩ := hnew i hi
    exact ⟨hold, fun hi => hmarked (List.mem_cons_of_mem _ hi)⟩

/-- It was marked until then, so its hash is the first one that is remembered of it. -/
theorem Grows.store {hasher after : Hasher} {id : ObjectId} (hnew : id ∉ hasher.remembered) (hmark : id ∉ hasher.active)
    (h : (entering id hasher).Grows after) (hash : UInt64) :
    hasher.Grows { leaving id after with finished := (id, hash) :: after.finished } := by
  obtain ⟨fresh, hfresh, hnodup, hothers⟩ := h.memory
  have hleft := h.leave
  refine ⟨hleft.depth, hleft.active, (id, hash) :: fresh, ?_, ?_, ?_⟩
  · rw [hfresh]
    rfl
  · rw [List.map_cons, List.nodup_cons]
    exact ⟨fun hid => (hothers id hid).2 List.mem_cons_self, hnodup⟩
  · rw [List.map_cons, List.forall_mem_cons]
    refine ⟨⟨hnew, hmark⟩, fun i hi => ?_⟩
    obtain ⟨hold, hmarked⟩ := hothers i hi
    exact ⟨hold, fun hi => hmarked (List.mem_cons_of_mem _ hi)⟩

variable {α β : Type} {graph : TypeGraph} {limit room : Nat} {id : ObjectId}

/-- Whatever comes out of a step, the memory only grows. -/
def Keeps (body : HashM α) : Prop :=
  ∀ hasher : Hasher, hasher.Grows (run body hasher).2

namespace Keeps

theorem pure (a : α) : Keeps (pure a) :=
  fun hasher => .refl hasher

theorem bind {body : HashM α} {next : α → HashM β} (h : Keeps body) (hnext : ∀ a, Keeps (next a)) :
    Keeps (body >>= next) := by
  intro hasher
  have hbody := h hasher
  rw [run_bind]
  rcases hrun : run body hasher with ⟨e | a, mid⟩
  · rw [hrun] at hbody
    exact hbody
  · rw [hrun] at hbody
    exact hbody.trans (hnext a mid)

theorem mapM {f : α → HashM β} (h : ∀ a, Keeps (f a)) (items : List α) : Keeps (items.mapM f) := by
  induction items with
  | nil => exact pure []
  | cons a rest ih =>
    rw [List.mapM_cons]
    exact (h a).bind fun b => ih.bind fun bs => pure (b :: bs)

/-- A node keeps what its parts keep, since it does nothing but to call for them. -/
theorem node {hash : ObjectId → HashM UInt64} (h : ∀ part, Keeps (hash part)) (n : ObjectNode) : Keeps (node hash n) := by
  rw [node_eq, map_eq_pure_bind]
  exact (mapM h n.shape.parts).bind fun hashes => pure (n.combine hashes)

end Keeps

/-! ## Calls -/

/-- What a call comes to that enters its node. -/
theorem run_object_entering {hasher : Hasher} {n : ObjectNode} (hget : graph.get? id = some n)
    (hnew : hasher.hash? id = none) (hmark : id ∉ hasher.active) :
    run (object graph limit (room + 1) id) hasher =
      match run (node (object graph limit room) n) (entering id hasher) with
      | (.ok h, after) => (.ok h, { leaving id after with finished := (id, h) :: after.finished })
      | (.error e, after) => (.error e, leaving id after) := by
  rw [run_object_inside limit room hnew hget hmark, run_inside]
  dsimp only [entering]
  rcases run (node (object graph limit room) n) _ with ⟨_ | _, _⟩ <;> rfl

/-- The other ways of a call leave the state alone. -/
theorem run_object_still {hasher : Hasher}
    (h : hasher.hash? id ≠ none ∨ graph.get? id = none ∨ room = 0 ∨ id ∈ hasher.active) :
    (run (object graph limit room id) hasher).2 = hasher := by
  rw [run_object]
  cases hlookup : List.lookup id hasher.finished with
  | some hash => rfl
  | none =>
    cases hget : graph.get? id with
    | none => rfl
    | some n =>
      cases room with
      | zero => rfl
      | succ room =>
        have hactive : hasher.active.contains id = true := by
          rw [List.contains_iff_mem]
          simpa [hash?, hlookup, hget] using h
        dsimp only
        rw [if_pos hactive]

/-- **One call.** From any state and with any number of levels left, a call keeps the memory, whether it answers or fails. -/
theorem object_keeps (graph : TypeGraph) (limit room : Nat) (id : ObjectId) : Keeps (object graph limit room id) := by
  induction room generalizing id with
  | zero =>
    intro hasher
    rw [run_object_still (Or.inr (Or.inr (Or.inl rfl)))]
    exact .refl hasher
  | succ room ih =>
    intro hasher
    by_cases hstill : hasher.hash? id ≠ none ∨ graph.get? id = none ∨ room + 1 = 0 ∨ id ∈ hasher.active
    · rw [run_object_still hstill]
      exact .refl hasher
    · obtain ⟨hnew, hfound, -, hmark⟩ : hasher.hash? id = none ∧ graph.get? id ≠ none ∧ room + 1 ≠ 0 ∧
          id ∉ hasher.active := by simpa [not_or] using hstill
      obtain ⟨n, hget⟩ := Option.ne_none_iff_exists'.1 hfound
      have hbody := Keeps.node ih n (entering id hasher)
      rw [run_object_entering hget hnew hmark]
      rcases hrun : run (node (object graph limit room) n) (entering id hasher) with ⟨e | h, after⟩
      · rw [hrun] at hbody
        exact hbody.leave
      · rw [hrun] at hbody
        exact hbody.store (hash?_eq_none_iff.1 hnew) hmark h

/-- **Answers are remembered.** Outside of its node, a call answers with what is remembered of the node from then on. -/
theorem run_object_ok {hasher after : Hasher} {hash : UInt64} (hmark : id ∉ hasher.active)
    (h : run (object graph limit room id) hasher = (.ok hash, after)) : after.hash? id = some hash := by
  cases hlookup : hasher.hash? id with
  | some known =>
    have hknown : List.lookup id hasher.finished = some known := hlookup
    rw [run_object, hknown] at h
    cases h
    exact hlookup
  | none =>
    have hmiss : List.lookup id hasher.finished = none := hlookup
    cases hget : graph.get? id with
    | none =>
      rw [run_object, hmiss, hget] at h
      cases h
    | some n =>
      cases room with
      | zero =>
        rw [run_object, hmiss, hget] at h
        cases h
      | succ room =>
        rw [run_object_entering hget hlookup hmark] at h
        rcases hrun : run (node (object graph limit room) n) (entering id hasher) with ⟨e | found, last⟩
        · rw [hrun] at h
          cases h
        · rw [hrun] at h
          cases h
          exact List.lookup_cons_self

/-- What is remembered is answered, without a level and without a node. -/
theorem run_object_of_hash? {hasher : Hasher} {hash : UInt64} (h : hasher.hash? id = some hash) :
    run (object graph limit room id) hasher = (.ok hash, hasher) := by
  have hknown : List.lookup id hasher.finished = some hash := h
  rw [run_object, hknown]

/-- why a call fails: the levels run out at some node, or there is no node behind some id -/
inductive Fails (graph : TypeGraph) (limit : Nat) : GraphError → Prop
  | depth {id : ObjectId} {n : ObjectNode} (hfound : graph.get? id = some n) :
    Fails graph limit (.depthExceeded limit n.identity)
  | dangling {id : ObjectId} (hmissing : graph.get? id = none) : Fails graph limit (.danglingNode "<graph>" id)

theorem object_fails (graph : TypeGraph) (limit room : Nat) {active : List ObjectId} (id : ObjectId) :
    Ensures (Stands (fun _ => True) active) (object graph limit room id) (fun _ => True) (Fails graph limit) := by
  induction room using Nat.strong_induction_on generalizing active id with
  | _ room ih =>
    apply object_ensures (fun _ _ _ _ => trivial) (fun hmissing => .dangling hmissing) (fun n hget _ => .depth hget)
      (fun _ _ _ => trivial) _ (fun _ _ _ _ => trivial)
    intro n below _ hroom _
    have hparts : ∀ part ∈ n.shape.parts, Ensures (Stands (fun _ => True) (id :: active))
        (object graph limit below part) (fun x => False → x = 0) (Fails graph limit) := by
      intro part _
      exact (ih below (by omega) part).mono fun _ _ hc => hc.elim
    exact (node_ensures (C := fun _ => False) (f := fun _ => 0) hparts).mono fun _ _ => trivial

/-! ## Hashers in use -/

theorem afterCalls_append (graph : TypeGraph) (calls later : List (Nat × ObjectId)) :
    afterCalls graph (calls ++ later) =
      later.foldl (fun hasher call => (run (hashObject graph call.1 call.2) hasher).2) (afterCalls graph calls) :=
  List.foldl_append

theorem hashObject_keeps (graph : TypeGraph) (limit : Nat) (id : ObjectId) : Keeps (hashObject graph limit id) :=
  fun hasher => object_keeps graph limit (limit - hasher.depth) id hasher

/-- **Any calls.** They keep what was remembered before them. -/
theorem afterCalls_grows (graph : TypeGraph) (calls later : List (Nat × ObjectId)) :
    (afterCalls graph calls).Grows (afterCalls graph (calls ++ later)) := by
  rw [afterCalls_append]
  generalize afterCalls graph calls = hasher
  induction later generalizing hasher with
  | nil => exact .refl hasher
  | cons call rest ih =>
    exact (hashObject_keeps graph call.1 call.2 hasher).trans (ih _)

end Hasher

open Hasher (afterCalls answerAfter)

/-- **A hasher stays usable.** Take a hasher that has been called any number of times, each time with its limit, for any
node, whether there was an answer or a failure. It stands inside of no node and marks none. It remembers each node once,
and later calls only add to what it remembers, and change none of it. A call fails only because the levels run out at some
node or some id stands for none. Once a node was answered for, every later call for it gives the same answer, whatever
was called in between and however few levels it may take. -/
theorem hasher_stays_usable (graph : TypeGraph) (calls : List (Nat × ObjectId)) :
    (afterCalls graph calls).depth = 0 ∧ (afterCalls graph calls).active = [] ∧
    (afterCalls graph calls).remembered.Nodup ∧
    (∀ later, (afterCalls graph calls).finished <:+ (afterCalls graph (calls ++ later)).finished ∧
      ∀ id hash, (afterCalls graph calls).hash? id = some hash →
        (afterCalls graph (calls ++ later)).hash? id = some hash) ∧
    (∀ limit id e, answerAfter graph calls limit id = .error e → Hasher.Fails graph limit e) ∧
    ∀ limit id hash, answerAfter graph calls limit id = .ok hash →
      ∀ later limit', answerAfter graph (calls ++ (limit, id) :: later) limit' id = .ok hash := by
  have hgrows : ({} : Hasher).Grows (afterCalls graph calls) := Hasher.afterCalls_grows graph [] calls
  refine ⟨hgrows.depth, hgrows.active, hgrows.nodup List.nodup_nil, fun later => ?_, ?_, ?_⟩
  · have hlater := Hasher.afterCalls_grows graph calls later
    exact ⟨hlater.suffix, fun id hash => hlater.hash?⟩
  · intro limit id e he
    rw [answerAfter, Hasher.run_hashObject hgrows.depth] at he
    have hstands : Hasher.Stands (fun _ => True) [] (afterCalls graph calls) := ⟨hgrows.active, hgrows.depth, trivial⟩
    exact (Hasher.object_fails graph limit limit id _ hstands).2.2 e he
  · intro limit id hash hanswer later limit'
    have hunmarked : id ∉ (afterCalls graph calls).active := by
      rw [hgrows.active]
      exact List.not_mem_nil
    have hcalled : (afterCalls graph (calls ++ [(limit, id)])).hash? id = some hash := by
      rw [Hasher.afterCalls_append]
      rw [answerAfter, Hasher.run_hashObject hgrows.depth] at hanswer
      apply Hasher.run_object_ok hunmarked
      rw [List.foldl_cons, List.foldl_nil, Hasher.run_hashObject hgrows.depth]
      exact Prod.ext hanswer rfl
    have hlater := (Hasher.afterCalls_grows graph (calls ++ [(limit, id)]) later).hash? hcalled
    rw [List.append_assoc, List.singleton_append] at hlater
    have hdepth : (afterCalls graph (calls ++ (limit, id) :: later)).depth = 0 :=
      (Hasher.afterCalls_grows graph [] (calls ++ (limit, id) :: later)).depth
    rw [answerAfter, Hasher.run_hashObject hdepth, Hasher.run_object_of_hash? hlater]

/-- A pair of an array and of something that is not there, beside a value that may be null and is nothing else. -/
def brokenPair : TypeGraph := ⟨[
  { identity := "string", shape := .system .string },
  { identity := "string[]", shape := .array "Array" ⟨0⟩ },
  { identity := "(string[], Lost)", shape := .tuple [⟨1⟩, ⟨9⟩] },
  { identity := "Loop", shape := .nullable ⟨3⟩ }]⟩

/-- The pair has no hash. Its array has one, which is remembered from a call for the pair, and then takes no level. -/
theorem hasher_stays_usable_brokenPair :
    let calls : List (Nat × ObjectId) := [(1, ⟨2⟩), (3, ⟨2⟩), (1, ⟨3⟩), (2, ⟨3⟩)]
    (afterCalls brokenPair calls).depth = 0 ∧ (afterCalls brokenPair calls).active = [] ∧
      Hasher.Fails brokenPair 3 (.danglingNode "<graph>" ⟨9⟩) ∧
      ∃ hash, answerAfter brokenPair [(1, ⟨2⟩), (3, ⟨2⟩)] 0 ⟨1⟩ = .ok hash ∧
        ∀ later limit, answerAfter brokenPair ([(1, ⟨2⟩), (3, ⟨2⟩), (0, ⟨1⟩)] ++ later) limit ⟨1⟩ = .ok hash := by
  intro calls
  obtain ⟨hdepth, hactive, -⟩ := hasher_stays_usable brokenPair calls
  obtain ⟨-, -, -, -, hfails, -⟩ := hasher_stays_usable brokenPair [(1, ⟨2⟩)]
  obtain ⟨-, -, -, -, -, hanswers⟩ := hasher_stays_usable brokenPair [(1, ⟨2⟩), (3, ⟨2⟩)]
  have hlost : answerAfter brokenPair [(1, ⟨2⟩)] 3 ⟨2⟩ = .error (.danglingNode "<graph>" ⟨9⟩) := by decide +kernel
  have hok : (answerAfter brokenPair [(1, ⟨2⟩), (3, ⟨2⟩)] 0 ⟨1⟩).isOk = true := by decide +kernel
  obtain ⟨hash, hhash⟩ := exists_ok_of_isOk hok
  exact ⟨hdepth, hactive, hfails 3 ⟨2⟩ _ hlost, hash, hhash, hanswers 0 ⟨1⟩ hash hhash⟩

end GraphSchema
