import GraphSchema.Proofs.Calls
import GraphSchema.Proofs.HashParts
import GraphSchema.Proofs.Termination

/-!
The levels of compilation and those of hashing.

Both walks go down the same edges and count the nodes that they are inside of. Compilation counts a node when it goes
into it, and asks before that whether its definition is there; hashing counts a node before it looks whether it is
inside of it already, and goes into the keys of maps as well.

- `TypeGraph.Aligned` : what makes both walks come to nodes in one order.
- `Hasher.Tandem` : a hasher and a table that are in the midst of both walks at the same place. A node has been met by
  the one if its definition is known to the other.
- `Shape.object_rewalks` : where all has been met, compilation adds nothing to its table, however often it goes there.
- `Hasher.object_holds` : hashing goes on where compilation does, with as many levels left or more.
- `build_bounds_hash` : a graph that builds is hashed with one more level. With the same number of levels hashing fails
  only at a node that it comes back to, or at the key of a map.
- `selfList_refused` : this does happen. A list whose only node names itself builds with one level and is not hashed.
-/

namespace GraphSchema

open Relation (TransGen ReflTransGen)

namespace TypeGraph

/-- whether a node is the key of a map -/
def IsKey (graph : TypeGraph) (key : ObjectId) : Prop :=
  ∃ owner node base value, graph.get? owner = some node ∧ node.shape = .map base key value

/-- What makes compilation and hashing come to nodes in one order: the mode takes all keys, and these are primitives;
types have different names, those that are generic have no arguments; and on the way from the root no tuple is met
inside itself. -/
structure Aligned (graph : TypeGraph) (mode : KeyMode) (root : ObjectId) : Prop where
  accepting : mode.acceptsAnyKey = true
  distinct : graph.definedNames.Nodup
  keys : ∀ key, graph.IsKey key → ∃ node primitive, graph.get? key = some node ∧ node.shape = .system primitive
  arguments : ∀ id node base arguments, graph.get? id = some node → node.shape = .generic base arguments →
    arguments = []
  tuples : ∀ id node elements, graph.Reaches mode root id → graph.get? id = some node →
    node.shape = .tuple elements → ¬ TransGen (graph.Follows mode) id id

/-- a node at which hashing may run out of levels where compilation does not: one that is reached from itself, or the
key of a map -/
def AtEdge (graph : TypeGraph) (mode : KeyMode) (id : ObjectId) : Prop :=
  TransGen (graph.Follows mode) id id ∨ graph.IsKey id

variable {graph : TypeGraph} {mode : KeyMode} {root id : ObjectId} {node : ObjectNode}

theorem Aligned.ne_skip (h : graph.Aligned mode root) : mode ≠ .skip := by
  rintro rfl
  exact absurd h.accepting (by decide)

/-- A node without a definition that is no tuple has one child at most. -/
theorem eq_of_followed (hinlined : node.kind.isDefined = false) (htuple : ∀ elements, node.shape ≠ .tuple elements)
    {a b : ObjectId} (ha : a ∈ graph.followed mode node) (hb : b ∈ graph.followed mode node) : a = b := by
  unfold ObjectNode.kind at hinlined
  unfold followed at ha hb
  cases hs : node.shape with
  | system primitive => simp [hs] at ha
  | override schema => simp [hs] at ha
  | generic base arguments => simp [hs] at ha
  | nullable element =>
    simp only [hs, List.mem_singleton] at ha hb
    rw [ha, hb]
  | array base element =>
    simp only [hs, List.mem_singleton] at ha hb
    rw [ha, hb]
  | map base key value =>
    simp only [hs] at ha hb
    split_ifs at ha hb
    · rw [List.mem_singleton.1 ha, List.mem_singleton.1 hb]
    · cases ha
  | abstract implementations => simp [hs, ObjectShape.kind, ObjectKind.isDefined] at hinlined
  | custom properties implements => simp [hs, ObjectShape.kind, ObjectKind.isDefined] at hinlined
  | tuple elements => exact absurd hs (htuple elements)

/-- The parts of a node are the children that compilation goes to, behind the key if it is a map. -/
theorem Aligned.parts (h : graph.Aligned mode root) (hget : graph.get? id = some node) :
    node.shape.parts = graph.followed mode node ∨
      ∃ key, graph.IsKey key ∧ node.shape.parts = key :: graph.followed mode node := by
  unfold followed
  cases hs : node.shape with
  | map base key value =>
    refine Or.inr ⟨key, ⟨id, node, base, value, hget, hs⟩, ?_⟩
    simp [ObjectShape.parts, acceptsKey, h.accepting]
  | generic base arguments =>
    refine Or.inl ?_
    rw [ObjectShape.parts, h.arguments id node base arguments hget hs]
  | _ => exact Or.inl rfl

/-! ## Ways down -/

/-- the nodes that a walk from a root is inside of, the innermost one first, and the one that it comes to next -/
structure Way (graph : TypeGraph) (mode : KeyMode) (root : ObjectId) (way : List ObjectId) : Prop where
  chain : way.IsChain fun a b => graph.Follows mode b a
  origin : root ∈ way

theorem Way.start (graph : TypeGraph) (mode : KeyMode) (root : ObjectId) : graph.Way mode root [root] :=
  ⟨List.isChain_singleton _, List.mem_singleton_self _⟩

theorem Way.down {way : List ObjectId} (h : graph.Way mode root (id :: way)) {child : ObjectId}
    (hedge : graph.Follows mode id child) : graph.Way mode root (child :: id :: way) :=
  ⟨List.isChain_cons_cons.2 ⟨hedge, h.chain⟩, List.mem_cons_of_mem _ h.origin⟩

/-- From each node that a walk is inside of, an edge leads on along the way. -/
theorem Way.next {active : List ObjectId} (h : graph.Way mode root (id :: active)) {a : ObjectId} (ha : a ∈ active) :
    ∃ b ∈ id :: active, graph.Follows mode a b := by
  obtain ⟨hchain, -⟩ := h
  induction active generalizing id with
  | nil => cases ha
  | cons top rest ih =>
    obtain ⟨hedge, hrest⟩ := List.isChain_cons_cons.1 hchain
    rcases List.mem_cons.1 ha with rfl | hm
    · exact ⟨id, List.mem_cons_self, hedge⟩
    · obtain ⟨b, hb, hfollows⟩ := ih hm hrest
      exact ⟨b, List.mem_cons_of_mem _ hb, hfollows⟩

/-- From each node that a walk is inside of, it has come to the next one. -/
theorem Way.reaches {active : List ObjectId} (h : graph.Way mode root (id :: active)) {a : ObjectId}
    (ha : a ∈ active) : TransGen (graph.Follows mode) a id := by
  obtain ⟨hchain, -⟩ := h
  induction active generalizing id with
  | nil => cases ha
  | cons top rest ih =>
    obtain ⟨hedge, hrest⟩ := List.isChain_cons_cons.1 hchain
    rcases List.mem_cons.1 ha with rfl | hm
    · exact .single hedge
    · exact (ih hm hrest).tail hedge

theorem Way.from_root {active : List ObjectId} (h : graph.Way mode root (id :: active)) :
    graph.Reaches mode root id := by
  rcases List.mem_cons.1 h.origin with rfl | hm
  · exact .refl
  · exact (h.reaches hm).to_reflTransGen

end TypeGraph

/-! ## Compiling what has been met -/

variable {setting : Setting}

/-- two tables with the same keys -/
def Definitions.SameKeys (a b : Definitions) : Prop := ∀ key, a.contains key = b.contains key

theorem Known.congr {a b : Definitions} (h : a.SameKeys b) {identity : String} :
    Known setting a identity ↔ Known setting b identity := by
  unfold Known
  rw [h identity]

/-- whether the definitions of all types in a set of nodes are known -/
def AllKnown (setting : Setting) (S : ObjectId → Prop) (table : Definitions) : Prop :=
  ∀ id node, S id → setting.graph.get? id = some node → node.kind.isDefined = true →
    Known setting table node.identity

theorem AllKnown.congr {S : ObjectId → Prop} {a b : Definitions} (h : a.SameKeys b) (ha : AllKnown setting S a) :
    AllKnown setting S b :=
  fun id node hid hget hdef => (Known.congr h).1 (ha id node hid hget hdef)

namespace Shape

open Walk (run)

/-- A reference to a known definition leaves the state alone. -/
theorem reference_known {compile : Compiler ObjectNode} {node : ObjectNode} {walk after : Walk} {schema : Schema}
    (hknown : Known setting walk.definitions node.identity)
    (h : run (reference setting compile node) walk = (.ok schema, after)) : after = walk := by
  unfold Known at hknown
  rw [run_reference, if_pos hknown] at h
  cases h
  rfl

/-- A call for a node that is not known compiles it. On the way in and on the way out its name becomes known, if it has
a definition. -/
theorem object_fresh {compile : Compiler ObjectNode} {id : ObjectId} {node : ObjectNode} {walk after : Walk}
    {outcome : Option Schema} (hget : setting.graph.get? id = some node)
    (hnew : node.kind.isDefined = true → ¬ Known setting walk.definitions node.identity)
    (h : run (object setting compile id) walk = (.ok outcome, after)) :
    ∃ start inner mid, run (compile node) start = (.ok inner, mid) ∧
      (∀ name, Known setting start.definitions name ↔
        (node.kind.isDefined = true ∧ name = node.identity) ∨ Known setting walk.definitions name) ∧
      ∀ name, Known setting after.definitions name ↔
        (node.kind.isDefined = true ∧ name = node.identity) ∨ Known setting mid.definitions name := by
  obtain ⟨found, hfound, ⟨hdef, schema, -, hr⟩ | ⟨hinlined, inner, hr, -⟩⟩ := object_ok h
  · cases hget.symm.trans hfound
    have hfree := hnew hdef
    unfold Known at hfree
    rw [run_reference, if_neg hfree] at hr
    rcases hdefinition : run (definition compile node) (reserving node walk) with ⟨e | stored, last⟩
    · rw [hdefinition] at hr
      cases hr
    · rw [hdefinition] at hr
      cases hr
      obtain ⟨inner, mid, hcompile, hsame, -⟩ := definition_ok hdefinition
      refine ⟨_, inner, mid, hcompile, fun name => ?_, fun name => ?_⟩
      · simp only [Known, contains_reserving, hdef, true_and, or_left_comm]
      · simp only [Known, hsame, Definitions.contains_fill, hdef, true_and, or_left_comm]
  · cases hget.symm.trans hfound
    exact ⟨walk, inner, after, hr, by simp [hinlined], by simp [hinlined]⟩

/-- **Compiling again.** Let all defined types in a set of nodes be known, and let the others have their children in the
set. Then no call for a node of the set adds to the table. -/
theorem object_rewalks (hmode : setting.options.dictionaryKeys ≠ .skip) {S : ObjectId → Prop}
    (hclosed : ∀ id node, S id → setting.graph.get? id = some node → node.kind.isDefined = false →
      ∀ child ∈ setting.graph.followed setting.options.dictionaryKeys node, S child)
    (room : Nat) {id : ObjectId} (hid : S id) {walk after : Walk} {outcome : Option Schema}
    (hknown : AllKnown setting S walk.definitions)
    (h : run (object setting (shape setting room) id) walk = (.ok outcome, after)) :
    walk.definitions.SameKeys after.definitions := by
  induction room generalizing id walk outcome after with
  | zero =>
    obtain ⟨node, hget, ⟨hdef, schema, -, hr⟩ | ⟨-, inner, hr, -⟩⟩ := object_ok h
    · rw [reference_known (hknown id node hid hget hdef) hr]
      exact fun _ => rfl
    · rw [shape, Walk.run_throw] at hr
      cases hr
  | succ room ih =>
    obtain ⟨node, hget, ⟨hdef, schema, -, hr⟩ | ⟨hinlined, inner, hr, -⟩⟩ := object_ok h
    · rw [reference_known (hknown id node hid hget hdef) hr]
      exact fun _ => rfl
    · obtain ⟨last, hlayer, rfl⟩ := shape_succ hr
      have hcalls := layer_calls (fun child _ => object_kept hmode room child) hlayer
      -- from call to call the types stay known
      have hkeep : AllKnown setting S walk.definitions → walk.definitions.SameKeys last.definitions := by
        refine hcalls.keep (I := fun a b => AllKnown setting S a → a.SameKeys b) (fun _ _ _ => rfl) ?_ ?_
        · intro a b c hab hbc ha key
          rw [hab ha key, hbc (ha.congr (hab ha)) key]
        · intro child hchild walk outcome after hrun hwalk
          exact ih (hclosed id node hid hget hinlined child hchild) hwalk hrun
      exact hkeep hknown

end Shape

/-! ## A hasher and a table -/

namespace Hasher

open Walk (run_bind_ok)

/-- whether a hasher has come to a node -/
def Met (hasher : Hasher) (id : ObjectId) : Prop :=
  id ∈ hasher.active ∨ (List.lookup id hasher.finished).isSome = true

/-- A hasher inside of these nodes and a table are at one place of their walks: the types that the hasher has met are
those whose definitions are known, and of a node that it has finished it has met the children. -/
structure Tandem (setting : Setting) (active : List ObjectId) (table : Definitions) (hasher : Hasher) : Prop where
  inside : hasher.active = active
  known : ∀ id node, setting.graph.get? id = some node → node.kind.isDefined = true →
    (hasher.Met id ↔ Known setting table node.identity)
  closed : ∀ id node, (List.lookup id hasher.finished).isSome = true → setting.graph.get? id = some node →
    ∀ child ∈ setting.graph.followed setting.options.dictionaryKeys node, hasher.Met child

/-- What comes of hashing: a hasher in tandem with a later table, that has met these nodes and all that it had met. -/
structure Advances (setting : Setting) (active : List ObjectId) (table : Definitions) (ids : List ObjectId)
    (before after : Hasher) : Prop where
  tandem : Tandem setting active table after
  met : ∀ id ∈ ids, after.Met id
  kept : ∀ id, before.Met id → after.Met id

/-- the hasher inside of one more node -/
def entered (id : ObjectId) (hasher : Hasher) : Hasher :=
  { hasher with active := id :: hasher.active, depth := hasher.depth + 1 }

/-- the hasher after it has finished the node that it was inside of -/
def left (id : ObjectId) (hash : UInt64) (hasher : Hasher) : Hasher :=
  { hasher with active := hasher.active.erase id, depth := hasher.depth - 1, finished := (id, hash) :: hasher.finished }

variable {active : List ObjectId} {table later : Definitions} {hasher : Hasher} {root id : ObjectId} {node : ObjectNode}

theorem met_entered {other : ObjectId} : (hasher.entered id).Met other ↔ other = id ∨ hasher.Met other := by
  simp only [Met, entered, List.mem_cons, or_assoc]

theorem Tandem.congr (h : Tandem setting active table hasher)
    (hnames : ∀ id node, setting.graph.get? id = some node → node.kind.isDefined = true →
      (Known setting later node.identity ↔ Known setting table node.identity)) :
    Tandem setting active later hasher :=
  { h with known := fun id node hget hdef => (h.known id node hget hdef).trans (hnames id node hget hdef).symm }

theorem Tandem.enter (h : Tandem setting active table hasher)
    (hnames : ∀ other node, setting.graph.get? other = some node → node.kind.isDefined = true →
      (Known setting later node.identity ↔ other = id ∨ Known setting table node.identity)) :
    Tandem setting (id :: active) later (hasher.entered id) where
  inside := congrArg (id :: ·) h.inside
  known other node hget hdef := by
    rw [met_entered, hnames other node hget hdef, h.known other node hget hdef]
  closed other node hfinished hget child hchild :=
    met_entered.2 (Or.inr (h.closed other node hfinished hget child hchild))

theorem met_left (hactive : hasher.active = id :: active) {hash : UInt64} {other : ObjectId} :
    (hasher.left id hash).Met other ↔ hasher.Met other := by
  unfold Met left
  rw [hactive, List.erase_cons_head, List.lookup_cons, List.mem_cons]
  by_cases hsame : other = id
  · simp [hsame]
  · simp [hsame, beq_eq_false_iff_ne.2 hsame]

theorem Tandem.leave (h : Tandem setting (id :: active) table hasher) (hget : setting.graph.get? id = some node)
    (hchildren : ∀ child ∈ setting.graph.followed setting.options.dictionaryKeys node, hasher.Met child)
    (hash : UInt64) : Tandem setting active table (hasher.left id hash) where
  inside := by
    change hasher.active.erase id = active
    rw [h.inside, List.erase_cons_head]
  known other node hget hdef := (met_left h.inside).trans (h.known other node hget hdef)
  closed other found hfinished hfound child hchild := by
    rw [met_left h.inside]
    by_cases hsame : other = id
    · subst hsame
      cases hget.symm.trans hfound
      exact hchildren child hchild
    · have hlookup : (List.lookup other hasher.finished).isSome = true := by
        simpa [left, List.lookup_cons, beq_eq_false_iff_ne.2 hsame] using hfinished
      exact h.closed other found hlookup hfound child hchild

/-! ## Hashing along -/

variable {α β : Type} {limit spare : Nat}

/-- A step goes well, or, if there is no level to spare, it fails for want of levels at a node where that may be. -/
def Holds (setting : Setting) (limit spare : Nat) (body : HashM α) (hasher : Hasher) (Q : Hasher → Prop) : Prop :=
  (∃ a after, run body hasher = (.ok a, after) ∧ Q after) ∨
    (spare = 0 ∧ ∃ id node after, setting.graph.get? id = some node ∧
      setting.graph.AtEdge setting.options.dictionaryKeys id ∧
      run body hasher = (.error (.depthExceeded limit node.identity), after))

theorem Holds.pure (a : α) {Q : Hasher → Prop} (h : Q hasher) : Holds setting limit spare (pure a) hasher Q :=
  Or.inl ⟨a, hasher, rfl, h⟩

theorem Holds.bind {body : HashM α} {next : α → HashM β} {P Q : Hasher → Prop}
    (h : Holds setting limit spare body hasher P)
    (hnext : ∀ a after, P after → Holds setting limit spare (next a) after Q) :
    Holds setting limit spare (body >>= next) hasher Q := by
  rcases h with ⟨a, after, hrun, hafter⟩ | ⟨hspare, id, node, after, hget, hedge, hrun⟩
  · unfold Holds
    rw [run_bind, hrun]
    exact hnext a after hafter
  · exact Or.inr ⟨hspare, id, node, after, hget, hedge, by rw [run_bind, hrun]⟩

theorem Holds.mono {body : HashM α} {P Q : Hasher → Prop} (h : Holds setting limit spare body hasher P)
    (hPQ : ∀ after, P after → Q after) : Holds setting limit spare body hasher Q :=
  h.imp_left fun ⟨a, after, hrun, hafter⟩ => ⟨a, after, hrun, hPQ after hafter⟩

theorem Holds.map {body : HashM α} (f : α → β) {Q : Hasher → Prop} (h : Holds setting limit spare body hasher Q) :
    Holds setting limit spare (f <$> body) hasher Q := by
  rw [map_eq_pure_bind]
  exact h.bind fun a after hafter => Holds.pure (f a) hafter

/-- **Into a node.** Where the parts of a node are hashed well, so is the node, and the hasher comes out of it again. -/
theorem object_enters {room : Nat} (hget : setting.graph.get? id = some node)
    (hnew : ¬ hasher.Met id)
    (hbody : Holds setting limit spare (Hasher.node (object setting.graph limit room) node) (hasher.entered id)
      (Advances setting (id :: active) table (setting.graph.followed setting.options.dictionaryKeys node)
        (hasher.entered id))) :
    Holds setting limit spare (object setting.graph limit (room + 1) id) hasher
      (Advances setting active table [id] hasher) := by
  obtain ⟨hactive, hfinished⟩ := not_or.1 hnew
  have hlookup := Option.not_isSome_iff_eq_none.1 hfinished
  have hfree : ¬ hasher.active.contains id = true := by rwa [List.contains_iff_mem]
  unfold Holds
  rw [run_object, hlookup, hget]
  dsimp only
  rw [if_neg hfree, run_inside]
  rcases hbody with ⟨hash, after, hrun, hadvances⟩ | ⟨hspare, other, found, after, hfound, hedge, hrun⟩
  · change run _ { hasher with active := id :: hasher.active, depth := hasher.depth + 1 } = _ at hrun
    dsimp only
    rw [hrun]
    refine Or.inl ⟨hash, after.left id hash, rfl, ?_, ?_, ?_⟩
    · exact hadvances.tandem.leave hget hadvances.met hash
    · intro other hother
      rw [List.mem_singleton.1 hother, met_left hadvances.tandem.inside]
      exact Or.inl (hadvances.tandem.inside ▸ List.mem_cons_self)
    · intro other hmet
      rw [met_left hadvances.tandem.inside]
      exact hadvances.kept other (met_entered.2 (Or.inr hmet))
  · change run _ { hasher with active := id :: hasher.active, depth := hasher.depth + 1 } = _ at hrun
    dsimp only
    rw [hrun]
    exact Or.inr ⟨hspare, other, found, _, hfound, hedge, rfl⟩

/-- Without a level left, a node that is not finished is refused. -/
theorem refused_holds (hspare : spare = 0) (hget : setting.graph.get? id = some node)
    (hedge : setting.graph.AtEdge setting.options.dictionaryKeys id) (hlookup : List.lookup id hasher.finished = none)
    (Q : Hasher → Prop) : Holds setting limit spare (object setting.graph limit 0 id) hasher Q := by
  refine Or.inr ⟨hspare, id, node, hasher, hget, hedge, ?_⟩
  rw [run_object, hlookup, hget]

/-- A node that the hasher has met leaves it as it is. If it is inside of the node, that takes a level to see. -/
theorem met_holds {room : Nat} (h : Tandem setting active table hasher) (hmet : hasher.Met id)
    (hget : setting.graph.get? id = some node)
    (hroom : room = 0 → id ∈ active → spare = 0 ∧ setting.graph.AtEdge setting.options.dictionaryKeys id) :
    Holds setting limit spare (object setting.graph limit room id) hasher
      (Advances setting active table [id] hasher) := by
  have hstays : Advances setting active table [id] hasher hasher := by
    refine ⟨h, fun other hother => ?_, fun _ hother => hother⟩
    rwa [List.mem_singleton.1 hother]
  cases hlookup : List.lookup id hasher.finished with
  | some hash =>
    refine Or.inl ⟨hash, hasher, ?_, hstays⟩
    rw [run_object, hlookup]
  | none =>
    have hactive : id ∈ hasher.active := by
      rcases hmet with hactive | hfinished
      · exact hactive
      · rw [hlookup] at hfinished
        cases hfinished
    cases room with
    | zero =>
      obtain ⟨hspare, hedge⟩ := hroom rfl (h.inside ▸ hactive)
      exact refused_holds hspare hget hedge hlookup _
    | succ room =>
      refine Or.inl ⟨cycleHash node.identity, hasher, ?_, hstays⟩
      rw [run_object, hlookup, hget]
      exact if_pos (List.contains_iff_mem.2 hactive)

/-- A key is hashed without a change to what is known. It is a primitive, and nothing is behind it. -/
theorem key_holds (haligned : setting.graph.Aligned setting.options.dictionaryKeys root)
    (h : Tandem setting active table hasher) (hkey : setting.graph.IsKey id) {room : Nat} (hroom : spare ≤ room) :
    Holds setting limit spare (object setting.graph limit room id) hasher
      (Advances setting active table [id] hasher) := by
  obtain ⟨node, primitive, hget, hshape⟩ := haligned.keys id hkey
  by_cases hmet : hasher.Met id
  · refine met_holds h hmet hget fun hzero _ => ⟨?_, Or.inr hkey⟩
    omega
  · cases room with
    | zero =>
      have hlookup := Option.not_isSome_iff_eq_none.1 (not_or.1 hmet).2
      exact refused_holds (Nat.le_zero.1 hroom) hget (Or.inr hkey) hlookup _
    | succ room =>
      refine object_enters hget hmet ?_
      have hparts : node.shape.parts = [] := by rw [hshape, ObjectShape.parts]
      have hfollowed : setting.graph.followed setting.options.dictionaryKeys node = [] := by
        rw [TypeGraph.followed, hshape]
      rw [node_eq, hparts, hfollowed, List.mapM_nil]
      refine Holds.map _ (Holds.pure [] ⟨h.enter ?_, by simp, fun _ hother => hother⟩)
      intro other found hfound hdef
      refine (or_iff_right ?_).symm
      rintro rfl
      cases hget.symm.trans hfound
      rw [ObjectNode.kind, hshape] at hdef
      cases hdef

/-- Children are hashed one by one as they are compiled. -/
theorem calls_holds {compile : Shape.Compiler ObjectId} {hash : ObjectId → HashM UInt64} {ids : List ObjectId}
    (hcalls : Shape.Calls compile ids table later)
    (hchild : ∀ child ∈ ids, ∀ walk outcome after hasher, Walk.run (compile child) walk = (.ok outcome, after) →
      Tandem setting active walk.definitions hasher →
      Holds setting limit spare (hash child) hasher (Advances setting active after.definitions [child] hasher))
    (h : Tandem setting active table hasher) :
    Holds setting limit spare (ids.mapM hash) hasher (Advances setting active later ids hasher) := by
  induction hcalls generalizing hasher with
  | nil table =>
    exact Holds.pure [] ⟨h, by simp, fun _ => id⟩
  | @cons child rest walk mid outcome table hcall hmoreCalls ih =>
    rw [List.mapM_cons]
    refine (hchild child List.mem_cons_self walk outcome mid hasher hcall h).bind fun x first hfirst => ?_
    have hothers := ih (fun other hother => hchild other (List.mem_cons_of_mem _ hother)) hfirst.tandem
    refine hothers.bind fun xs after hafter => Holds.pure (x :: xs) ⟨hafter.tandem, ?_, ?_⟩
    · exact List.forall_mem_cons.2 ⟨hafter.kept child (hfirst.met child List.mem_cons_self), hafter.met⟩
    · exact fun other hother => hafter.kept other (hfirst.kept other hother)

/-- what hashing does with a child, with as many levels left as compilation has for it, and those to spare -/
def HashesAlong (setting : Setting) (root : ObjectId) (limit spare room : Nat) : Prop :=
  ∀ {id active walk outcome after hasher}, setting.graph.Way setting.options.dictionaryKeys root (id :: active) →
    Walk.run (Shape.object setting (Shape.shape setting room) id) walk = (.ok outcome, after) →
    Tandem setting active walk.definitions hasher →
    Holds setting limit spare (object setting.graph limit (room + spare) id) hasher
      (Advances setting active after.definitions [id] hasher)

/-- **A node.** Where the layer of a node compiles, its parts are hashed well. -/
theorem node_holds (haligned : setting.graph.Aligned setting.options.dictionaryKeys root) {room : Nat}
    (halong : HashesAlong setting root limit spare room) (hget : setting.graph.get? id = some node)
    (hway : setting.graph.Way setting.options.dictionaryKeys root (id :: active)) {walk last : Walk}
    {outcome : Option Schema}
    (hlayer : Walk.run (Shape.layer setting (Shape.object setting (Shape.shape setting room)) node) walk =
      (.ok outcome, last))
    (h : Tandem setting (id :: active) walk.definitions hasher) :
    Holds setting limit spare (Hasher.node (object setting.graph limit (room + spare)) node) hasher
      (Advances setting (id :: active) last.definitions
        (setting.graph.followed setting.options.dictionaryKeys node) hasher) := by
  have hcalls := Shape.layer_calls (fun child _ => Shape.object_kept haligned.ne_skip room child) hlayer
  have hchildren : ∀ {hasher : Hasher}, Tandem setting (id :: active) walk.definitions hasher →
      Holds setting limit spare
        ((setting.graph.followed setting.options.dictionaryKeys node).mapM
          (object setting.graph limit (room + spare))) hasher
        (Advances setting (id :: active) last.definitions
          (setting.graph.followed setting.options.dictionaryKeys node) hasher) := by
    intro hasher htandem
    refine calls_holds hcalls (fun child hchild walk outcome after hasher hrun htandem => ?_) htandem
    exact halong (hway.down ⟨node, hget, hchild⟩) hrun htandem
  rw [node_eq]
  refine Holds.map _ ?_
  rcases haligned.parts hget with hparts | ⟨key, hkey, hparts⟩
  · rw [hparts]
    exact hchildren h
  · rw [hparts, List.mapM_cons]
    refine (key_holds haligned h hkey (Nat.le_add_left spare room)).bind fun x first hfirst => ?_
    refine (hchildren hfirst.tandem).bind fun xs after hafter => Holds.pure (x :: xs) ?_
    exact ⟨hafter.tandem, hafter.met, fun other hother => hafter.kept other (hfirst.kept other hother)⟩

/-- Where a hasher has met a node, compilation adds nothing to the table, however often it goes there. -/
theorem Tandem.rewalks (haligned : setting.graph.Aligned setting.options.dictionaryKeys root)
    (hway : setting.graph.Way setting.options.dictionaryKeys root (id :: active)) {walk after : Walk}
    {outcome : Option Schema} {room : Nat} (h : Tandem setting active walk.definitions hasher) (hmet : hasher.Met id)
    (hrun : Walk.run (Shape.object setting (Shape.shape setting room) id) walk = (.ok outcome, after)) :
    walk.definitions.SameKeys after.definitions := by
  refine Shape.object_rewalks
    (S := fun other => hasher.Met other ∧ setting.graph.Reaches setting.options.dictionaryKeys id other)
    haligned.ne_skip ?_ room ⟨hmet, .refl⟩ ?_ hrun
  · rintro other node ⟨hother, hreach⟩ hget hinlined child hchild
    have hedge : setting.graph.Follows setting.options.dictionaryKeys other child := ⟨node, hget, hchild⟩
    refine ⟨?_, hreach.tail hedge⟩
    rcases hother with hactive | hfinished
    · -- the hasher is inside of this node, which comes back to itself, so it is no tuple
      rw [h.inside] at hactive
      have hcycle := (hway.reaches hactive).trans_left hreach
      have htuple : ∀ elements, node.shape ≠ .tuple elements :=
        fun elements hs => haligned.tuples other node elements (hway.from_root.trans hreach) hget hs hcycle
      obtain ⟨next, hnext, node', hget', hm⟩ := hway.next hactive
      cases hget.symm.trans hget'
      rw [TypeGraph.eq_of_followed hinlined htuple hchild hm]
      rcases List.mem_cons.1 hnext with rfl | hnext
      · exact hmet
      · exact Or.inl (h.inside ▸ hnext)
    · exact h.closed other node hfinished hget child hchild
  · rintro other node ⟨hother, -⟩ hget hdef
    exact (h.known other node hget hdef).1 hother

/-- Where a hasher has met a child, it stays as it is, and so do the names that compilation knows. -/
theorem met_holds_along (haligned : setting.graph.Aligned setting.options.dictionaryKeys root)
    (hway : setting.graph.Way setting.options.dictionaryKeys root (id :: active)) {walk after : Walk}
    {outcome : Option Schema} {room : Nat}
    (hrun : Walk.run (Shape.object setting (Shape.shape setting room) id) walk = (.ok outcome, after))
    (h : Tandem setting active walk.definitions hasher) (hmet : hasher.Met id) :
    Holds setting limit spare (object setting.graph limit (room + spare) id) hasher
      (Advances setting active after.definitions [id] hasher) := by
  have hsame := h.rewalks haligned hway hmet hrun
  obtain ⟨node, hget, -⟩ := Shape.object_ok hrun
  have hlater : Tandem setting active after.definitions hasher :=
    h.congr fun _ _ _ _ => (Known.congr hsame).symm
  refine met_holds hlater hmet hget fun hzero hactive => ⟨?_, Or.inl (hway.reaches hactive)⟩
  omega

/-- **In tandem.** Where compilation of a child succeeds, hashing goes on as well, with the levels that compilation has
left and those to spare. -/
theorem object_holds (haligned : setting.graph.Aligned setting.options.dictionaryKeys root) (room : Nat) :
    HashesAlong setting root limit spare room := by
  induction room with
  | zero =>
    intro id active walk outcome after hasher hway hrun h
    by_cases hmet : hasher.Met id
    · exact met_holds_along haligned hway hrun h hmet
    · obtain ⟨node, hget, -⟩ := Shape.object_ok hrun
      obtain ⟨start, inner, mid, hshape, -⟩ :=
        Shape.object_fresh hget (fun hdef => (h.known id node hget hdef).not.1 hmet) hrun
      cases hshape
  | succ room ih =>
    intro id active walk outcome after hasher hway hrun h
    by_cases hmet : hasher.Met id
    · exact met_holds_along haligned hway hrun h hmet
    · obtain ⟨node, hget, -⟩ := Shape.object_ok hrun
      obtain ⟨start, inner, mid, hshape, hin, hout⟩ :=
        Shape.object_fresh hget (fun hdef => (h.known id node hget hdef).not.1 hmet) hrun
      obtain ⟨last, hlayer, rfl⟩ := Shape.shape_succ hshape
      -- a name is that of this node if it is that of no other
      have hname : ∀ other found, setting.graph.get? other = some found → found.kind.isDefined = true →
          ((node.kind.isDefined = true ∧ found.identity = node.identity) ↔ other = id) := by
        intro other found hfound hdef
        constructor
        · rintro ⟨hnode, hsame⟩
          exact TypeGraph.eq_of_identity_eq haligned.distinct hfound hget hdef hnode hsame
        · rintro rfl
          cases hget.symm.trans hfound
          exact ⟨hdef, rfl⟩
      have hentered : Tandem setting (id :: active) start.definitions (hasher.entered id) := by
        refine h.enter fun other found hfound hdef => ?_
        rw [hin, hname other found hfound hdef]
      have hbody := node_holds haligned ih hget hway hlayer hentered
      have hobject := object_enters hget hmet hbody
      rw [Nat.add_right_comm]
      refine hobject.mono fun t ht => ⟨ht.tandem.congr fun other found hfound hdef => ?_, ht.met, ht.kept⟩
      rw [hout, hname other found hfound hdef]
      refine or_iff_right_of_imp ?_
      rintro rfl
      exact (ht.tandem.known other found hfound hdef).1 (ht.met other List.mem_cons_self)

end Hasher

/-! ## Builds and hashes -/

variable {graph : TypeGraph} {request : RootRequest} {options : CompileOptions} {compiled : CompiledSchema}

/-- At the start both walks are inside of the root. Compilation knows it as the document. -/
theorem Hasher.Tandem.start (hdistinct : graph.definedNames.Nodup) {id : ObjectId} {root : ObjectNode}
    (hget : graph.get? id = some root) :
    Hasher.Tandem (rootSetting graph options root) [id] {} (Hasher.entered id {}) where
  inside := rfl
  known other node hfound hdef := by
    have hempty : Definitions.contains {} node.identity = false := rfl
    have hnone : ¬ Hasher.Met {} other := by simp [Hasher.Met]
    rw [Hasher.met_entered, or_iff_left hnone, Known, hempty, or_iff_left Bool.false_ne_true,
      rootIdentity_eq_some_iff]
    constructor
    · rintro rfl
      cases hget.symm.trans hfound
      exact ⟨hdef, rfl⟩
    · rintro ⟨hroot, hsame⟩
      exact TypeGraph.eq_of_identity_eq hdistinct hfound hget hdef hroot hsame
  closed other node hfinished := by cases hfinished

/-- Where a root builds, it is hashed as well, or the levels run out at the edge. -/
theorem root_holds (haligned : graph.Aligned options.dictionaryKeys request.root)
    (hb : build graph request options = .ok compiled) (spare : Nat) :
    ∃ setting : Setting, setting.graph = graph ∧ setting.options = options ∧
      Hasher.Holds setting (options.maxDepth + spare) spare
        (Hasher.object graph (options.maxDepth + spare) (options.maxDepth + spare) request.root) {} fun _ => True := by
  obtain ⟨hv, root, hget⟩ := exists_root_of_build hb
  rw [build_eq hv hget] at hb
  refine ⟨rootSetting graph options root, rfl, rfl, ?_⟩
  rcases hrun : Walk.run (compileRoot (rootSetting graph options root) root) {} with ⟨e | schema, walk⟩
  · rw [hrun] at hb
    cases hb
  · obtain ⟨outcome, mid, hshape, -⟩ := compileRoot_ok hrun
    change Walk.run (Shape.shape _ options.maxDepth root) {} = _ at hshape
    cases hlimit : options.maxDepth with
    | zero =>
      rw [hlimit] at hshape
      cases hshape
    | succ room =>
      rw [hlimit] at hshape
      obtain ⟨last, hlayer, rfl⟩ := Shape.shape_succ hshape
      have hwalk : (rootSetting graph options root).graph.Aligned
          (rootSetting graph options root).options.dictionaryKeys request.root := haligned
      have hstart : Hasher.Tandem (rootSetting graph options root) [request.root] {}
          (Hasher.entered request.root {}) := .start haligned.distinct hget
      have hway := TypeGraph.Way.start graph options.dictionaryKeys request.root
      have halong : Hasher.HashesAlong (rootSetting graph options root) request.root (room + spare + 1) spare room :=
        Hasher.object_holds hwalk room
      have hnode := Hasher.node_holds hwalk halong hget hway hlayer hstart
      have hfresh : ¬ Hasher.Met {} request.root := by simp [Hasher.Met]
      rw [Nat.add_right_comm]
      exact (Hasher.object_enters hget hfresh hnode).mono fun _ _ => trivial

/-- **One more level.** Let the mode take all keys of maps, let these be primitives, let generic types have no arguments
and defined types different names, and let no tuple on the way from the root be met inside itself. Then a graph that
builds within some levels is hashed within one more. With the same levels it is hashed, or hashing runs out of them at a
node that is reached from itself, or at the key of a map. -/
theorem build_bounds_hash (haligned : graph.Aligned options.dictionaryKeys request.root)
    (hb : build graph request options = .ok compiled) :
    (∃ hash, graph.structuralHash request.root (options.maxDepth + 1) = .ok hash) ∧
      ((∃ hash, graph.structuralHash request.root options.maxDepth = .ok hash) ∨
        ∃ id node, graph.get? id = some node ∧ graph.AtEdge options.dictionaryKeys id ∧
          graph.structuralHash request.root options.maxDepth =
            .error (.depthExceeded options.maxDepth node.identity)) := by
  have hfresh : ({} : Hasher).depth = 0 := rfl
  have hhash : ∀ limit, graph.structuralHash request.root limit =
      (Hasher.run (Hasher.object graph limit limit request.root) {}).1 := by
    intro limit
    rw [TypeGraph.structuralHash, Hasher.run_hashObject hfresh]
  rw [hhash, hhash]
  constructor
  · obtain ⟨setting, -, -, ⟨hash, after, hrun, -⟩ | ⟨hspare, -⟩⟩ := root_holds haligned hb 1
    · exact ⟨hash, by rw [hrun]⟩
    · cases hspare
  · obtain ⟨setting, rfl, rfl, ⟨hash, after, hrun, -⟩ | ⟨-, id, node, after, hget, hedge, hrun⟩⟩ :=
      root_holds haligned hb 0
    · rw [Nat.add_zero] at hrun
      exact Or.inl ⟨hash, by rw [hrun]⟩
    · rw [Nat.add_zero] at hrun
      exact Or.inr ⟨id, node, hget, hedge, by rw [hrun]⟩

/-! ## At the edge -/

/-- A list whose only node names itself. -/
def selfList : TypeGraph := ⟨[{ identity := "Node", shape := .custom [Property.custom "next" ⟨0⟩] [] }]⟩

theorem selfList_aligned : selfList.Aligned .loose ⟨0⟩ := by
  have hnode : ∀ {id node}, selfList.get? id = some node → node.shape = .custom [Property.custom "next" ⟨0⟩] [] := by
    intro id node hget
    have hm := TypeGraph.mem_objects hget
    rw [selfList, List.mem_singleton] at hm
    rw [hm]
  refine ⟨rfl, by decide, ?_, ?_, ?_⟩
  · rintro key ⟨owner, node, base, value, hget, hshape⟩
    rw [hnode hget] at hshape
    cases hshape
  · intro id node base arguments hget hshape
    rw [hnode hget] at hshape
    cases hshape
  · intro id node elements _ hget hshape
    rw [hnode hget] at hshape
    cases hshape

theorem selfList_builds : ∃ compiled, build selfList { root := ⟨0⟩ } { maxDepth := 1 } = .ok compiled :=
  exists_ok_of_isOk (by rfl)

/-- The list builds with one level, so it is hashed with two. -/
theorem build_bounds_hash_selfList : selfList.Aligned .loose ⟨0⟩ ∧
    (∃ compiled, build selfList { root := ⟨0⟩ } { maxDepth := 1 } = .ok compiled) ∧
    ∃ hash, selfList.structuralHash ⟨0⟩ 2 = .ok hash := by
  obtain ⟨compiled, hb⟩ := selfList_builds
  exact ⟨selfList_aligned, ⟨compiled, hb⟩, (build_bounds_hash selfList_aligned hb).1⟩

/-- **At the edge.** The list is in order and aligned, and it builds with one level: its node comes back to the document
before a level is counted. With one level it is not hashed, because hashing counts the node again before it sees that
it is inside of it. -/
theorem selfList_refused : selfList.validate = .ok () ∧ selfList.Aligned .loose ⟨0⟩ ∧
    (∃ compiled, build selfList { root := ⟨0⟩ } { maxDepth := 1 } = .ok compiled) ∧
    selfList.structuralHash ⟨0⟩ 1 = .error (.depthExceeded 1 "Node") :=
  ⟨rfl, selfList_aligned, selfList_builds, by decide +kernel⟩

/-- A pair that is met inside itself: its first type names it again before the second one has been walked. -/
def twistedPair : TypeGraph := ⟨[
  { identity := "Pair", shape := .tuple [⟨1⟩, ⟨2⟩] },
  { identity := "First", shape := .custom [Property.custom "pair" ⟨0⟩, Property.custom "chain" ⟨3⟩] [] },
  { identity := "Second", shape := .custom [Property.custom "a" ⟨7⟩, Property.custom "b" ⟨6⟩, Property.custom "c" ⟨5⟩,
      Property.custom "d" ⟨4⟩] [] },
  { identity := "Link0", shape := .custom [Property.custom "next" ⟨4⟩] [] },
  { identity := "Link1", shape := .custom [Property.custom "next" ⟨5⟩] [] },
  { identity := "Link2", shape := .custom [Property.custom "next" ⟨6⟩] [] },
  { identity := "Link3", shape := .custom [Property.custom "next" ⟨7⟩] [] },
  { identity := "Link4", shape := .custom [] [] }]⟩

/-- Such a tuple has to be left out. Compilation goes through it again and defines the chain link by link, from the last
one on; hashing does not, and walks the chain from its start. It takes two levels more. -/
theorem twistedPair_nests : (build twistedPair { root := ⟨0⟩ } { maxDepth := 5 }).isOk = true ∧
    twistedPair.structuralHash ⟨0⟩ 6 = .error (.depthExceeded 6 "Link4") ∧
    (twistedPair.structuralHash ⟨0⟩ 7).isOk = true :=
  ⟨by decide +kernel, by decide +kernel, by decide +kernel⟩

end GraphSchema
