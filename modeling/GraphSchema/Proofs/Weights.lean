import GraphSchema.Proofs.HashParts

/-!
How much a part weighs in a hash.

The factor is odd, so it can be undone modulo 2 ^ 64, and every hash is a sum in which each component stands with a
power of the factor.

- `Hash.mul_pow_eq_zero_iff` : a power of the factor takes nothing away.
- `Hash.Lone` : a list of differences that are all zero but one.
- `ObjectShape.weigh` : the difference of two hashes of a shape, from the differences of its parts' hashes.
- `ObjectNode.combine_sub`, `ObjectShape.weigh_lone` : it is the difference, and of a lone difference it is a multiple by
  a power of the factor. So no difference of one part is lost.
-/

namespace GraphSchema

namespace Hash

/-! ## The factor -/

/-- The factor has an inverse. -/
theorem factor_mul_inverse : factor * 17256631552825064415 = 1 := rfl

theorem mul_factor_eq_zero_iff {d : UInt64} : d * factor = 0 ↔ d = 0 := by
  constructor
  · intro h
    calc d = d * factor * 17256631552825064415 := by rw [UInt64.mul_assoc, factor_mul_inverse, UInt64.mul_one]
      _ = 0 := by rw [h, UInt64.zero_mul]
  · rintro rfl
    exact UInt64.zero_mul

/-- A power of the factor takes nothing away. -/
theorem mul_pow_eq_zero_iff {d : UInt64} (k : Nat) : d * factor ^ k = 0 ↔ d = 0 := by
  induction k with
  | zero => rw [UInt64.pow_zero, UInt64.mul_one]
  | succ k ih => rw [UInt64.pow_succ, ← UInt64.mul_assoc, mul_factor_eq_zero_iff, ih]

theorem sub_eq_zero_iff {a b : UInt64} : a - b = 0 ↔ a = b := by
  grind

/-! ## Differences -/

/-- The difference of two steps is the step of the differences. -/
theorem step_sub (h h' x x' : UInt64) : step h x - step h' x' = step (h - h') (x - x') := by
  unfold step
  grind

theorem step_sub_left (h x x' : UInt64) : step h x - step h x' = x - x' := by
  rw [step_sub, UInt64.sub_self, step, UInt64.zero_mul, UInt64.zero_add]

theorem step_sub_right (h h' x : UInt64) : step h x - step h' x = (h - h') * factor := by
  rw [step_sub, UInt64.sub_self, step, UInt64.add_zero]

/-- the difference of two hashes of lists, from the differences of their items -/
def weigh (items : List UInt64) : UInt64 :=
  items.foldl step 0

theorem foldl_step_sub {xs ys : List UInt64} (h : xs.length = ys.length) (a b : UInt64) :
    xs.foldl step a - ys.foldl step b = (List.zipWith (· - ·) xs ys).foldl step (a - b) := by
  induction xs generalizing ys a b with
  | nil =>
    obtain rfl : ys = [] := List.length_eq_zero_iff.1 h.symm
    rfl
  | cons x rest ih =>
    cases ys with
    | nil => cases h
    | cons y others =>
      simp only [List.foldl_cons, List.zipWith_cons_cons]
      rw [ih (Nat.succ.inj h), step_sub]

theorem ofOrdered_sub {xs ys : List UInt64} (h : xs.length = ys.length) :
    ofOrdered xs - ofOrdered ys = weigh (List.zipWith (· - ·) xs ys) := by
  rw [ofOrdered, ofOrdered, foldl_step_sub h, UInt64.sub_self, weigh]

theorem foldl_step_zeros {items : List UInt64} (h : ∀ d ∈ items, d = 0) (a : UInt64) :
    items.foldl step a = a * factor ^ items.length := by
  induction items generalizing a with
  | nil => rw [List.foldl_nil, List.length_nil, UInt64.pow_zero, UInt64.mul_one]
  | cons d rest ih =>
    obtain ⟨rfl, hrest⟩ := List.forall_mem_cons.1 h
    rw [List.foldl_cons, ih hrest, List.length_cons, UInt64.pow_succ, step]
    grind

theorem weigh_zeros {items : List UInt64} (h : ∀ d ∈ items, d = 0) : weigh items = 0 := by
  rw [weigh, foldl_step_zeros h, UInt64.zero_mul]

theorem foldl_step_mul (items : List UInt64) (a t : UInt64) :
    (items.map (· * t)).foldl step (a * t) = items.foldl step a * t := by
  induction items generalizing a with
  | nil => rfl
  | cons d rest ih =>
    have hstep : step (a * t) (d * t) = step a d * t := by
      unfold step
      grind
    rw [List.map_cons, List.foldl_cons, List.foldl_cons, hstep, ih]

theorem weigh_mul (items : List UInt64) (t : UInt64) : weigh (items.map (· * t)) = weigh items * t := by
  have h := foldl_step_mul items 0 t
  rwa [UInt64.zero_mul] at h

/-- `d` stands in the list at one place, and all else is zero -/
def Lone (d : UInt64) (items : List UInt64) : Prop :=
  ∃ before after, items = before ++ d :: after ∧ (∀ x ∈ before, x = 0) ∧ ∀ x ∈ after, x = 0

theorem not_lone_nil {d : UInt64} : ¬ Lone d [] := by
  rintro ⟨before, after, heq, -⟩
  cases before <;> cases heq

/-- A lone difference weighs a power of the factor. -/
theorem weigh_lone {d : UInt64} {items : List UInt64} (h : Lone d items) : ∃ k : Nat, weigh items = d * factor ^ k := by
  obtain ⟨before, after, rfl, hbefore, hafter⟩ := h
  refine ⟨after.length, ?_⟩
  rw [weigh, List.foldl_append, foldl_step_zeros hbefore, UInt64.zero_mul, List.foldl_cons, foldl_step_zeros hafter, step,
    UInt64.zero_mul, UInt64.zero_add]

theorem Lone.cons_zero {d : UInt64} {items : List UInt64} (h : Lone d items) : Lone d (0 :: items) := by
  obtain ⟨before, after, rfl, hbefore, hafter⟩ := h
  exact ⟨0 :: before, after, rfl, List.forall_mem_cons.2 ⟨rfl, hbefore⟩, hafter⟩

theorem Lone.cons {items : List UInt64} (h : ∀ x ∈ items, x = 0) (d : UInt64) : Lone d (d :: items) :=
  ⟨[], items, rfl, fun _ hx => absurd hx List.not_mem_nil, h⟩

/-- All items but that of one slot are zero. -/
theorem Lone.of_slot {d : UInt64} {items : List UInt64} {slot : Nat} (h : items[slot]? = some d)
    (hothers : ∀ (i : Nat) (x : UInt64), items[i]? = some x → i ≠ slot → x = 0) : Lone d items := by
  obtain ⟨hlt, rfl⟩ := List.getElem?_eq_some_iff.1 h
  refine ⟨items.take slot, items.drop (slot + 1), ?_, fun x hx => ?_, fun x hx => ?_⟩
  · rw [← List.drop_eq_getElem_cons, List.take_append_drop]
  · obtain ⟨i, hi, rfl⟩ := List.mem_take_iff_getElem.1 hx
    exact hothers i _ (List.getElem?_eq_getElem _) (by omega)
  · obtain ⟨i, hi, rfl⟩ := List.mem_drop_iff_getElem.1 hx
    exact hothers (slot + 1 + i) _ (List.getElem?_eq_getElem _) (by omega)

/-- A lone difference stands in front, or behind a zero. -/
theorem Lone.cases_cons {d first : UInt64} {items : List UInt64} (h : Lone d (first :: items)) :
    (first = d ∧ ∀ x ∈ items, x = 0) ∨ (first = 0 ∧ Lone d items) := by
  obtain ⟨before, after, heq, hbefore, hafter⟩ := h
  cases before with
  | nil =>
    cases heq
    exact Or.inl ⟨rfl, hafter⟩
  | cons x rest =>
    cases heq
    obtain ⟨hx, hrest⟩ := List.forall_mem_cons.1 hbefore
    exact Or.inr ⟨hx, rest, after, rfl, hrest, hafter⟩

/-- Two lists of hashes that differ in one item. -/
theorem Lone.zipWith_sub {xs ys : List UInt64} (before after : List UInt64) (x y : UInt64)
    (hx : xs = before ++ x :: after) (hy : ys = before ++ y :: after) : Lone (x - y) (List.zipWith (· - ·) xs ys) := by
  have hzero : ∀ items : List UInt64, ∀ d ∈ List.zipWith (· - ·) items items, d = 0 := by
    intro items d hd
    rw [List.zipWith_self] at hd
    obtain ⟨a, -, rfl⟩ := List.mem_map.1 hd
    exact UInt64.sub_self a
  refine ⟨List.zipWith (· - ·) before before, List.zipWith (· - ·) after after, ?_, hzero before, hzero after⟩
  rw [hx, hy, List.zipWith_append rfl, List.zipWith_cons_cons]

/-- **One item.** Of two lists that differ in one item at most, the hashes are equal only if the items are. -/
theorem ofOrdered_eq_iff (before after : List UInt64) (x y : UInt64) :
    ofOrdered (before ++ x :: after) = ofOrdered (before ++ y :: after) ↔ x = y := by
  obtain ⟨k, hk⟩ := weigh_lone (Lone.zipWith_sub before after x y rfl rfl)
  rw [← sub_eq_zero_iff, ofOrdered_sub (by simp), hk, mul_pow_eq_zero_iff, sub_eq_zero_iff]

end Hash

/-! ## Nodes -/

open Hash (step factor Lone)

/-- the differences of the hashes of properties, from those of their members' hashes -/
def Property.weighAll : List Property → List UInt64 → List UInt64
  | [], _ => []
  | p :: rest, members =>
    match p.member? with
    | none => 0 :: weighAll rest members
    | some _ => members.headD 0 * factor :: weighAll rest members.tail

/-- the difference of two hashes of what a shape consists of, from the differences of its parts' hashes -/
def ObjectShape.weigh (parts : List UInt64) : ObjectShape → UInt64
  | .system _ | .override _ => 0
  | .nullable _ | .array .. => parts.headD 0
  | .generic .. | .abstract _ | .tuple _ => Hash.weigh parts
  | .map .. => step (parts.headD 0) (parts.tail.headD 0)
  | .custom properties _ => Hash.weigh (Property.weighAll properties parts)

theorem headD_zipWith_sub {xs ys : List UInt64} (h : xs.length = ys.length) :
    (List.zipWith (· - ·) xs ys).headD 0 = xs.headD 0 - ys.headD 0 := by
  cases xs with
  | nil =>
    obtain rfl : ys = [] := List.length_eq_zero_iff.1 h.symm
    rfl
  | cons x rest =>
    cases ys with
    | nil => cases h
    | cons y others => rfl

theorem Property.combine_sub (p : Property) (x y : UInt64) :
    p.combine x - p.combine y = if p.member?.isSome then (x - y) * factor else 0 := by
  unfold combine member?
  cases p.shape with
  | override schema => exact UInt64.sub_self _
  | custom member default =>
    simp only [Hash.step_sub_left, Hash.step_sub_right, Option.isSome_some, if_true]

theorem Property.combineAll_sub (properties : List Property) {xs ys : List UInt64} (h : xs.length = ys.length) :
    List.zipWith (· - ·) (combineAll properties xs) (combineAll properties ys) =
      weighAll properties (List.zipWith (· - ·) xs ys) := by
  induction properties generalizing xs ys with
  | nil => rfl
  | cons p rest ih =>
    have htail : xs.tail.length = ys.tail.length := by rw [List.length_tail, List.length_tail, h]
    unfold combineAll weighAll
    cases hmember : p.member? with
    | none =>
      dsimp only
      rw [List.zipWith_cons_cons, ih h, UInt64.sub_self]
    | some member =>
      dsimp only
      rw [List.zipWith_cons_cons, ih htail, combine_sub, hmember, headD_zipWith_sub h, List.tail_zipWith]
      rfl

theorem Property.length_combineAll (properties : List Property) (xs : List UInt64) :
    (combineAll properties xs).length = properties.length := by
  induction properties generalizing xs with
  | nil => rfl
  | cons p rest ih =>
    unfold combineAll
    cases p.member? with
    | none => exact congrArg (· + 1) (ih xs)
    | some member => exact congrArg (· + 1) (ih xs.tail)

/-- **Differences.** The difference of two hashes of a node is made of the differences of its parts' hashes. -/
theorem ObjectNode.combine_sub (n : ObjectNode) {xs ys : List UInt64} (h : xs.length = ys.length) :
    n.combine xs - n.combine ys = n.shape.weigh (List.zipWith (· - ·) xs ys) := by
  have htail : xs.tail.length = ys.tail.length := by rw [List.length_tail, List.length_tail, h]
  have hfirst := headD_zipWith_sub h
  have hsecond := headD_zipWith_sub htail
  rw [← List.tail_zipWith] at hsecond
  unfold combine
  rw [Hash.step_sub_left]
  unfold ObjectShape.combine ObjectShape.weigh
  cases n.shape with
  | system primitive | override schema => exact UInt64.sub_self _
  | nullable element => exact hfirst.symm
  | generic base arguments => exact (Hash.step_sub_left ..).trans (Hash.ofOrdered_sub h)
  | map base key value =>
    dsimp only
    rw [Hash.step_sub, Hash.step_sub_left, hfirst, hsecond]
  | array base element => exact (Hash.step_sub_left ..).trans hfirst.symm
  | abstract ids | tuple ids => exact Hash.ofOrdered_sub h
  | custom properties implements =>
    have hlength : (Property.combineAll properties xs).length = (Property.combineAll properties ys).length := by
      rw [Property.length_combineAll, Property.length_combineAll]
    exact (Hash.ofOrdered_sub hlength).trans (congrArg _ (Property.combineAll_sub properties h))

/-! ## What differences come to -/

theorem Property.weighAll_zeros (properties : List Property) {ds : List UInt64} (h : ∀ d ∈ ds, d = 0) :
    ∀ d ∈ weighAll properties ds, d = 0 := by
  induction properties generalizing ds with
  | nil => exact fun _ hd => absurd hd List.not_mem_nil
  | cons p rest ih =>
    unfold weighAll
    cases p.member? with
    | none => exact List.forall_mem_cons.2 ⟨rfl, ih h⟩
    | some member =>
      refine List.forall_mem_cons.2 ⟨?_, ih fun d hd => h d (List.mem_of_mem_tail hd)⟩
      cases ds with
      | nil => exact UInt64.zero_mul
      | cons d others => exact Hash.mul_factor_eq_zero_iff.2 (h d List.mem_cons_self)

theorem headD_zeros {ds : List UInt64} (h : ∀ d ∈ ds, d = 0) : ds.headD 0 = 0 := by
  cases ds with
  | nil => rfl
  | cons d rest => exact h d List.mem_cons_self

theorem ObjectShape.weigh_zeros (s : ObjectShape) {ds : List UInt64} (h : ∀ d ∈ ds, d = 0) : s.weigh ds = 0 := by
  have htail : ∀ d ∈ ds.tail, d = 0 := fun d hd => h d (List.mem_of_mem_tail hd)
  unfold weigh
  cases s with
  | system primitive | override schema => rfl
  | nullable element | array base element => exact headD_zeros h
  | generic base ids | abstract ids | tuple ids => exact Hash.weigh_zeros h
  | map base key value =>
    dsimp only
    rw [headD_zeros h, headD_zeros htail]
    rfl
  | custom properties implements => exact Hash.weigh_zeros (Property.weighAll_zeros properties h)

theorem Property.weighAll_lone {properties : List Property} {d : UInt64} {ds : List UInt64} (h : Lone d ds)
    (hlength : ds.length = (properties.filterMap member?).length) :
    Lone (d * factor) (weighAll properties ds) := by
  induction properties generalizing ds with
  | nil =>
    obtain rfl : ds = [] := List.length_eq_zero_iff.1 hlength
    exact absurd h Hash.not_lone_nil
  | cons p rest ih =>
    rw [List.filterMap_cons] at hlength
    unfold weighAll
    cases hmember : p.member? with
    | none =>
      rw [hmember] at hlength
      exact (ih h hlength).cons_zero
    | some member =>
      rw [hmember] at hlength
      cases ds with
      | nil => cases hlength
      | cons first others =>
        rcases h.cases_cons with ⟨rfl, hzeros⟩ | ⟨rfl, hlone⟩
        · exact Lone.cons (weighAll_zeros rest hzeros) _
        · dsimp only [List.headD_cons, List.tail_cons]
          rw [UInt64.zero_mul]
          exact (ih hlone (Nat.succ.inj hlength)).cons_zero

/-- **One part.** A lone difference among the parts of a shape weighs a power of the factor. -/
theorem ObjectShape.weigh_lone {s : ObjectShape} {d : UInt64} {ds : List UInt64} (h : Lone d ds)
    (hlength : ds.length = s.parts.length) : ∃ k : Nat, s.weigh ds = d * factor ^ k := by
  have hnone : ds ≠ [] := by
    rintro rfl
    exact Hash.not_lone_nil h
  have hone : ds.length = 1 → ds.headD 0 = d := by
    intro hds
    obtain ⟨x, rfl⟩ := List.length_eq_one_iff.1 hds
    exact h.cases_cons.elim (·.1) fun hnil => absurd hnil.2 Hash.not_lone_nil
  unfold parts at hlength
  unfold weigh
  cases s with
  | system primitive | override schema => exact absurd (List.length_eq_zero_iff.1 hlength) hnone
  | nullable element | array base element =>
    exact ⟨0, by rw [UInt64.pow_zero, UInt64.mul_one]; exact hone hlength⟩
  | generic base ids | abstract ids | tuple ids => exact Hash.weigh_lone h
  | map base key value =>
    obtain ⟨x, y, rfl⟩ := List.length_eq_two.1 hlength
    rcases h.cases_cons with ⟨rfl, hzeros⟩ | ⟨rfl, hlone⟩
    · obtain rfl := hzeros y (List.mem_singleton_self y)
      refine ⟨1, ?_⟩
      simp only [List.headD_cons, List.tail_cons, step, UInt64.add_zero, UInt64.pow_succ, UInt64.pow_zero, UInt64.one_mul]
    · obtain ⟨rfl, -⟩ := hlone.cases_cons.resolve_right fun hnil => Hash.not_lone_nil hnil.2
      refine ⟨0, ?_⟩
      simp only [List.headD_cons, List.tail_cons, step, UInt64.zero_mul, UInt64.zero_add, UInt64.pow_zero, UInt64.mul_one]
  | custom properties implements =>
    obtain ⟨k, hk⟩ := Hash.weigh_lone (Property.weighAll_lone h hlength)
    refine ⟨k + 1, hk.trans ?_⟩
    rw [UInt64.pow_succ]
    grind

/-- A factor that all differences have is a factor of what they come to. -/
theorem ObjectShape.weigh_mul (s : ObjectShape) (ds : List UInt64) (t : UInt64) :
    s.weigh (ds.map (· * t)) = s.weigh ds * t := by
  have hhead : ∀ ds : List UInt64, (ds.map (· * t)).headD 0 = ds.headD 0 * t := by
    intro ds
    cases ds with
    | nil => exact UInt64.zero_mul.symm
    | cons d rest => rfl
  have hall : ∀ (properties : List Property) (ds : List UInt64),
      Property.weighAll properties (ds.map (· * t)) = (Property.weighAll properties ds).map (· * t) := by
    intro properties
    induction properties with
    | nil => exact fun _ => rfl
    | cons p rest ih =>
      intro ds
      unfold Property.weighAll
      cases p.member? with
      | none => simp only [ih, List.map_cons, UInt64.zero_mul]
      | some member =>
        simp only [hhead, ← List.map_tail, ih, List.map_cons]
        grind
  unfold weigh
  cases s with
  | system primitive | override schema => exact UInt64.zero_mul.symm
  | nullable element | array base element => exact hhead ds
  | generic base ids | abstract ids | tuple ids => exact Hash.weigh_mul ds t
  | map base key value =>
    simp only [hhead, ← List.map_tail, step]
    grind
  | custom properties implements => simp only [hall, Hash.weigh_mul]

/-- **A node and one part.** Of two lists of parts' hashes that differ in one item at most, the hashes of the node are
equal only if the items are. -/
theorem ObjectNode.combine_eq_iff {n : ObjectNode} (before after : List UInt64) (x y : UInt64)
    (hlength : (before ++ x :: after).length = n.shape.parts.length) :
    n.combine (before ++ x :: after) = n.combine (before ++ y :: after) ↔ x = y := by
  have hsame : (before ++ x :: after).length = (before ++ y :: after).length := by simp
  have hzip : (List.zipWith (· - ·) (before ++ x :: after) (before ++ y :: after)).length = n.shape.parts.length := by
    rw [List.length_zipWith, ← hsame, Nat.min_self, hlength]
  obtain ⟨k, hk⟩ := ObjectShape.weigh_lone (Lone.zipWith_sub before after x y rfl rfl) hzip
  rw [← Hash.sub_eq_zero_iff, combine_sub n hsame, hk, Hash.mul_pow_eq_zero_iff, Hash.sub_eq_zero_iff]

/-- So it is where two ways to hash nodes agree on all parts but the one in some slot. -/
theorem ObjectNode.hashFrom_eq_iff {n : ObjectNode} {f g : ObjectId → UInt64} {slot : Nat} {part : ObjectId}
    (hslot : n.shape.parts[slot]? = some part)
    (hsame : ∀ i a, i ≠ slot → n.shape.parts[i]? = some a → f a = g a) :
    n.hashFrom f = n.hashFrom g ↔ f part = g part := by
  obtain ⟨hlt, rfl⟩ := List.getElem?_eq_some_iff.1 hslot
  have hmap : ∀ f : ObjectId → UInt64, n.shape.parts.map f = (n.shape.parts.take slot).map f ++
      f n.shape.parts[slot] :: (n.shape.parts.drop (slot + 1)).map f := by
    intro f
    rw [← List.map_cons, ← List.map_append, ← List.drop_eq_getElem_cons hlt, List.take_append_drop]
  have hbefore : (n.shape.parts.take slot).map f = (n.shape.parts.take slot).map g := by
    refine List.map_congr_left fun a ha => ?_
    obtain ⟨i, hi, rfl⟩ := List.mem_take_iff_getElem.1 ha
    exact hsame i _ (by omega) (List.getElem?_eq_getElem _)
  have hafter : (n.shape.parts.drop (slot + 1)).map f = (n.shape.parts.drop (slot + 1)).map g := by
    refine List.map_congr_left fun a ha => ?_
    obtain ⟨i, hi, rfl⟩ := List.mem_drop_iff_getElem.1 ha
    exact hsame (slot + 1 + i) _ (by omega) (List.getElem?_eq_getElem _)
  rw [hashFrom_eq_combine, hashFrom_eq_combine, hmap f, hmap g, ← hbefore, ← hafter]
  refine combine_eq_iff _ _ _ _ ?_
  rw [← hmap f, List.length_map]

end GraphSchema
