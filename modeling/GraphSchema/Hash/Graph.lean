import GraphSchema.Graph.Basic

/-!
Structural hashes of nodes.

A hasher keeps the hashes of the nodes it has finished, so that a shared node is hashed once. A node that is
reached while it is being hashed counts by its identity. The state survives an error.
-/

namespace GraphSchema

/-- what a hasher has done so far -/
structure Hasher where
  /-- the hashes of finished nodes -/
  finished : List (ObjectId × UInt64) := []
  /-- the nodes that are being hashed -/
  active : List ObjectId := []
  depth : Nat := 0

/-- a step of a hasher -/
abbrev HashM := ExceptT GraphError (StateM Hasher)

namespace Hasher

open Hash (step ofText ofText? ofOrdered)

/-- Runs a step from a state. -/
def run {α : Type} (step : HashM α) (hasher : Hasher) : Except GraphError α × Hasher :=
  StateT.run (ExceptT.run step) hasher

/-- the hash of a node that is reached from itself -/
def cycleHash (identity : String) : UInt64 :=
  step (ofText "cycle") (ofText identity)

/-- Runs a step inside a node. The node is left again also when the step fails. -/
def inside {α : Type} (id : ObjectId) (body : HashM α) : HashM α :=
  ExceptT.mk fun hasher =>
    let (result, after) := run body { hasher with active := id :: hasher.active, depth := hasher.depth + 1 }
    (result, { after with active := after.active.erase id, depth := after.depth - 1 })

/-- the hash of a property, given a way to hash nodes -/
def property (hash : ObjectId → HashM UInt64) (p : Property) : HashM UInt64 := do
  let head := step (step (step Hash.seed (ofText p.name)) (Metadata.structuralHash? p.metadata))
    p.nullability.ordinal
  match p.shape with
  | .override schema => return step head (step 1 (ofText schema))
  | .custom member default => return step head (step (step 2 (← hash member)) (ofText? default))

/-- the hash of what a shape consists of, given a way to hash nodes -/
def shape (hash : ObjectId → HashM UInt64) : ObjectShape → HashM UInt64
  | .system primitive => return primitive.ordinal
  | .override schema => return ofText schema
  | .nullable element => hash element
  | .generic base arguments => return step (ofText base) (ofOrdered (← arguments.mapM hash))
  | .map base key value => do
    let key ← hash key
    let value ← hash value
    return step (step (ofText base) key) value
  | .array base element => return step (ofText base) (← hash element)
  | .abstract implementations => return ofOrdered (← implementations.mapM hash)
  | .custom properties _ => return ofOrdered (← properties.mapM (property hash))
  | .tuple elements => return ofOrdered (← elements.mapM hash)

/-- the hash of a node, given a way to hash others -/
def node (hash : ObjectId → HashM UInt64) (n : ObjectNode) : HashM UInt64 := do
  let head := step (step (step Hash.seed n.kind.ordinal) (ofText n.identity))
    (Metadata.structuralHash? n.metadata)
  return step head (← shape hash n.shape)

/-- the hash of the node behind an id, with so many levels left of the limit -/
def object (graph : TypeGraph) (limit : Nat) (room : Nat) (id : ObjectId) : HashM UInt64 := do
  let hasher ← get
  match List.lookup id hasher.finished with
  | some h => return h
  | none =>
    let n ← liftExcept (graph.get id)
    match room with
    | 0 => throw (.depthExceeded limit n.identity)
    | room + 1 =>
      if hasher.active.contains id then return cycleHash n.identity
      else
        let h ← inside id (node (object graph limit room) n)
        modify fun hasher => { hasher with finished := (id, h) :: hasher.finished }
        return h

/-- Hashes the node behind an id from the present state of a hasher. -/
def hashObject (graph : TypeGraph) (limit : Nat) (id : ObjectId) : HashM UInt64 := do
  let hasher ← get
  object graph limit (limit - hasher.depth) id

/-! ## What each step does to a state -/

@[simp] theorem run_pure {α : Type} (a : α) (hasher : Hasher) : run (pure a) hasher = (.ok a, hasher) := rfl

@[simp] theorem run_bind {α β : Type} (body : HashM α) (next : α → HashM β) (hasher : Hasher) :
    run (body >>= next) hasher =
      match run body hasher with
      | (.ok a, after) => run (next a) after
      | (.error e, after) => (.error e, after) := by
  unfold run
  rw [ExceptT.run_bind, StateT.run_bind]
  rcases StateT.run (ExceptT.run body) hasher with ⟨_ | _, _⟩ <;> rfl

@[simp] theorem run_throw {α : Type} (e : GraphError) (hasher : Hasher) :
    run (throw e : HashM α) hasher = (.error e, hasher) := rfl

@[simp] theorem run_get (hasher : Hasher) : run get hasher = (.ok hasher, hasher) := rfl

@[simp] theorem run_modify (f : Hasher → Hasher) (hasher : Hasher) :
    run (modify f) hasher = (.ok ⟨⟩, f hasher) := rfl

@[simp] theorem run_inside {α : Type} (id : ObjectId) (body : HashM α) (hasher : Hasher) :
    run (inside id body) hasher =
      let entered := { hasher with active := id :: hasher.active, depth := hasher.depth + 1 }
      ((run body entered).1,
        { (run body entered).2 with
          active := (run body entered).2.active.erase id
          depth := (run body entered).2.depth - 1 }) := rfl

end Hasher

/-- The hash of a node and of all that it consists of, with at most `limit` nodes nested. -/
def TypeGraph.structuralHash (graph : TypeGraph) (root : ObjectId) (limit : Nat) : Except GraphError UInt64 :=
  (Hasher.run (Hasher.hashObject graph limit root) {}).1

end GraphSchema
