import GraphSchema.Proofs.TreeHash

/-!
The hash of a node, made of the hashes of its parts.

- `Hasher.node_eq` : a node is hashed by hashing its parts in order. What comes of their hashes does not depend on how
  they were found.
- `ObjectNode.hashFrom_eq_combine` : so it is with the plain recursion.
-/

namespace GraphSchema

open Hash (step ofText ofText? ofOrdered)

/-! ## What comes of the hashes of parts -/

/-- the hash of a property from that of its member -/
def Property.combine (p : Property) (member : UInt64) : UInt64 :=
  let head := step (step (step Hash.seed (ofText p.name)) (Metadata.structuralHash? p.metadata)) p.nullability.ordinal
  match p.shape with
  | .override schema => step head (step 1 (ofText schema))
  | .custom _ default => step head (step (step 2 member) (ofText? default))

/-- the hashes of properties from those of their members, as many as there are -/
def Property.combineAll : List Property → List UInt64 → List UInt64
  | [], _ => []
  | p :: rest, members =>
    match p.member? with
    | none => p.combine 0 :: combineAll rest members
    | some _ => p.combine (members.headD 0) :: combineAll rest members.tail

/-- the hash of what a shape consists of, from the hashes of its parts -/
def ObjectShape.combine (parts : List UInt64) : ObjectShape → UInt64
  | .system primitive => primitive.ordinal
  | .override schema => ofText schema
  | .nullable _ => parts.headD 0
  | .generic base _ => step (ofText base) (ofOrdered parts)
  | .map base _ _ => step (step (ofText base) (parts.headD 0)) (parts.tail.headD 0)
  | .array base _ => step (ofText base) (parts.headD 0)
  | .abstract _ | .tuple _ => ofOrdered parts
  | .custom properties _ => ofOrdered (Property.combineAll properties parts)

/-- the hash of a node from the hashes of its parts -/
def ObjectNode.combine (n : ObjectNode) (parts : List UInt64) : UInt64 :=
  step (step (step (step Hash.seed n.kind.ordinal) (ofText n.identity)) (Metadata.structuralHash? n.metadata))
    (n.shape.combine parts)

/-! ## The plain recursion -/

theorem Property.hashFrom_eq_combine (f : ObjectId → UInt64) (p : Property) :
    p.hashFrom f = p.combine (p.member?.elim 0 f) := by
  unfold hashFrom combine member?
  cases p.shape <;> rfl

theorem Property.combineAll_map (f : ObjectId → UInt64) (properties : List Property) :
    combineAll properties ((properties.filterMap member?).map f) = properties.map (hashFrom f) := by
  induction properties with
  | nil => rfl
  | cons p rest ih =>
    rw [List.filterMap_cons, combineAll, List.map_cons, hashFrom_eq_combine]
    cases p.member? with
    | none => exact congrArg _ ih
    | some member => exact congrArg _ ih

theorem ObjectNode.hashFrom_eq_combine (f : ObjectId → UInt64) (n : ObjectNode) :
    n.hashFrom f = n.combine (n.shape.parts.map f) := by
  obtain ⟨identity, metadata, shape⟩ := n
  cases shape with
  | custom properties implements =>
    simp only [hashFrom, combine, ObjectShape.hashFrom, ObjectShape.combine, ObjectShape.parts, Property.combineAll_map]
  | _ => rfl

namespace Hasher

/-! ## Parts in order -/

variable (hash : ObjectId → HashM UInt64)

/-- Properties are hashed by hashing their members. -/
theorem properties_eq (properties : List Property) : properties.mapM (property hash) =
    Property.combineAll properties <$> (properties.filterMap Property.member?).mapM hash := by
  induction properties with
  | nil => rfl
  | cons p rest ih =>
    rw [List.mapM_cons, List.filterMap_cons, ih]
    cases hs : p.shape with
    | override schema =>
      have hmember : p.member? = none := by rw [Property.member?, hs]
      simp [property, hs, hmember, Property.combineAll, Property.combine]
    | custom member default =>
      have hmember : p.member? = some member := by rw [Property.member?, hs]
      simp [property, hs, hmember, Property.combineAll, Property.combine]

theorem shape_eq (s : ObjectShape) : shape hash s = (s.combine ·) <$> s.parts.mapM hash := by
  unfold ObjectShape.parts
  cases s with
  | custom properties implements =>
    simp [shape, properties_eq, ObjectShape.combine]
  | _ => simp [shape, ObjectShape.combine]

/-- **Parts.** A node is hashed by hashing its parts in order, and what comes of their hashes does not depend on how
they were found. -/
theorem node_eq (n : ObjectNode) : node hash n = n.combine <$> n.shape.parts.mapM hash := by
  simp only [node, shape_eq, bind_pure_comp, Functor.map_map]
  rfl

end Hasher

end GraphSchema
