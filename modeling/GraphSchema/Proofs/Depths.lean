import GraphSchema.Proofs.Completing
import GraphSchema.Proofs.Remembering

/-!
Levels that are handed down, and counters that are asked.

The compiler and the hasher hand down how many levels are left. A state also counts the nodes that it is inside of, and each
node could ask that counter whether the limit is reached. Both come to the same, since no step leaves the counter changed.
The functions are the only ones that do what such a recursion says, so nothing is lost if the levels are handed down.

- `AgreeAt` : two steps do the same wherever the counter stands at a depth, and come back to it.
- `levels_induction` : the induction on the levels that are left at a depth.
- `Shape.layer_agree`, `Shape.object_agree` : calls agree at a depth if the calls for children do one level deeper.
- `Shape.compileObject_eq`, `Shape.compileObject_unique` : the compiler is the one solution of the recursion that asks the
  counter.
- `Shape.compileProperty_eq`, `Shape.compileUnion_eq` : properties and implementations call it for their nodes.
- `Hasher.hashObject_eq`, `Hasher.hashObject_unique` : so it is for the hasher.
-/

namespace GraphSchema

/-! ## Steps that agree at a depth -/

section

variable {σ α β : Type} {count : σ → Nat} {depth : Nat}

/-- From every state that counts `depth`, two steps do the same, and the state that they leave counts the same again. -/
def AgreeAt (count : σ → Nat) (depth : Nat) (x y : ExceptT GraphError (StateM σ) α) : Prop :=
  ∀ state, count state = depth →
    StateT.run (ExceptT.run x) state = StateT.run (ExceptT.run y) state ∧
      count (StateT.run (ExceptT.run x) state).2 = depth

namespace AgreeAt

variable {x y : ExceptT GraphError (StateM σ) α}

theorem pure (a : α) : AgreeAt count depth (pure a) (pure a) :=
  fun _ hcount => ⟨rfl, hcount⟩

theorem bind {next next' : α → ExceptT GraphError (StateM σ) β} (h : AgreeAt count depth x y)
    (hnext : ∀ a, AgreeAt count depth (next a) (next' a)) : AgreeAt count depth (x >>= next) (y >>= next') := by
  intro state hcount
  obtain ⟨hsame, hback⟩ := h state hcount
  rw [ExceptT.run_bind, ExceptT.run_bind, StateT.run_bind, StateT.run_bind, ← hsame]
  rcases hrun : StateT.run (ExceptT.run x) state with ⟨e | a, mid⟩
  · rw [hrun] at hback
    exact ⟨rfl, hback⟩
  · rw [hrun] at hback
    exact hnext a mid hback

theorem map (h : AgreeAt count depth x y) (f : α → β) : AgreeAt count depth (f <$> x) (f <$> y) := by
  rw [map_eq_pure_bind, map_eq_pure_bind]
  exact h.bind fun a => pure (f a)

theorem mapM {f g : α → ExceptT GraphError (StateM σ) β} (h : ∀ a, AgreeAt count depth (f a) (g a)) (items : List α) :
    AgreeAt count depth (items.mapM f) (items.mapM g) := by
  induction items with
  | nil => exact pure []
  | cons a rest ih =>
    rw [List.mapM_cons, List.mapM_cons]
    exact (h a).bind fun b => ih.bind fun bs => pure (b :: bs)

theorem symm (h : AgreeAt count depth x y) : AgreeAt count depth y x := by
  intro state hcount
  obtain ⟨hsame, hback⟩ := h state hcount
  exact ⟨hsame.symm, hsame ▸ hback⟩

theorem trans {z : ExceptT GraphError (StateM σ) α} (h : AgreeAt count depth x y) (h' : AgreeAt count depth y z) :
    AgreeAt count depth x z := by
  intro state hcount
  obtain ⟨hsame, hback⟩ := h state hcount
  exact ⟨hsame.trans (h' state hcount).1, hback⟩

/-- Steps that agree at all depths are the same. -/
theorem eq (count : σ → Nat) (h : ∀ depth, AgreeAt count depth x y) : x = y := by
  funext state
  exact (h (count state) state rfl).1

end AgreeAt

end

/-- What holds at a depth if it holds one level deeper, where the limit leaves a level, holds at every depth. The induction
is on the levels that are left. -/
theorem levels_induction (limit : Nat) {P : Nat → Prop} (hstep : ∀ depth, (depth < limit → P (depth + 1)) → P depth)
    (depth : Nat) : P depth := by
  induction hroom : limit - depth generalizing depth with
  | zero => exact hstep depth fun hlt => by omega
  | succ room ih => exact hstep depth fun _ => ih (depth + 1) (by omega)

/-! ## The compiler -/

namespace Shape

open Walk (run)

/-- two steps of a walk that agree where it is inside of so many nodes -/
abbrev WalksAgree {α : Type} (depth : Nat) (x y : WalkM α) : Prop := AgreeAt Walk.depth depth x y

variable {depth : Nat}

theorem unsupported_agree (identity message : String) :
    WalksAgree depth (Walk.unsupported identity message) (Walk.unsupported identity message) :=
  fun _ hdepth => ⟨rfl, hdepth⟩

theorem node_agree (setting : Setting) (id : ObjectId) :
    WalksAgree depth (Walk.node setting id) (Walk.node setting id) := by
  intro walk hdepth
  have hrun := Walk.run_node setting id walk
  exact ⟨rfl, (congrArg (fun result => result.2.depth) hrun).trans hdepth⟩

/-- Steps that agree inside of a node agree where it is entered. -/
theorem deeper_agree {α : Type} {x y : WalkM α} (h : WalksAgree (depth + 1) x y) :
    WalksAgree depth (Walk.deeper x) (Walk.deeper y) := by
  intro walk hdepth
  obtain ⟨hsame, hback⟩ := h { walk with depth := walk.depth + 1 } (congrArg (· + 1) hdepth)
  refine ⟨?_, ?_⟩
  · change run (Walk.deeper x) walk = run (Walk.deeper y) walk
    change run x _ = run y _ at hsame
    rw [Walk.run_deeper, Walk.run_deeper, hsame]
  · change (run (Walk.deeper x) walk).2.depth = depth
    rw [Walk.run_deeper]
    exact Nat.sub_eq_of_eq_add hback

section Children

variable {compile compile' : Compiler ObjectId} (h : ∀ id, WalksAgree depth (compile id) (compile' id))

include h

theorem elements_agree (ids : List ObjectId) : WalksAgree depth (elements compile ids) (elements compile' ids) := by
  induction ids with
  | nil => exact .pure _
  | cons id rest ih =>
    refine (h id).bind fun schema => ?_
    cases schema with
    | none => exact .pure _
    | some schema =>
      refine ih.bind fun schemas => ?_
      cases schemas <;> exact .pure _

theorem union_agree (ids : List ObjectId) : WalksAgree depth (union compile ids) (union compile' ids) := by
  have harms : WalksAgree depth (arms compile ids) (arms compile' ids) := by
    induction ids with
    | nil => exact .pure _
    | cons id rest ih => exact (h id).bind fun schema => ih.bind fun schemas => .pure _
  exact harms.bind fun schemas => .pure _

theorem property_agree (owner : String) (p : Property) :
    WalksAgree depth (property compile owner p) (property compile' owner p) := by
  unfold property
  cases p.shape with
  | override fragment =>
    dsimp only
    cases Schema.ofFragment fragment with
    | ok schema => exact .pure _
    | error error => exact (unsupported_agree _ _).map _
  | custom member default =>
    refine (h member).bind fun schema => ?_
    cases schema <;> exact .pure _

theorem properties_agree (owner : String) (props : List Property) :
    WalksAgree depth (properties compile owner props) (properties compile' owner props) := by
  induction props with
  | nil => exact .pure _
  | cons p rest ih => exact (property_agree h owner p).bind fun schema => ih.bind fun others => .pure _

theorem map_agree (setting : Setting) (node : ObjectNode) (key value : ObjectId) :
    WalksAgree depth (map setting compile node key value) (map setting compile' node key value) := by
  refine (node_agree setting key).bind fun keyNode => ?_
  have hvalues := (h value).map (·.map mapSchema)
  dsimp only
  split_ifs
  · exact hvalues
  · cases setting.options.dictionaryKeys with
    | loose => exact hvalues.map _
    | strict => exact (unsupported_agree _ _).map _
    | silent => exact hvalues
    | skip => exact .pure _

/-- **One level.** Layers agree where the calls for their children do. -/
theorem layer_agree (setting : Setting) (node : ObjectNode) :
    WalksAgree depth (layer setting compile node) (layer setting compile' node) := by
  unfold layer
  cases node.shape with
  | system primitive => exact .pure _
  | override fragment =>
    dsimp only
    cases Schema.ofFragment fragment with
    | ok schema => exact .pure _
    | error error => exact (unsupported_agree _ _).map _
  | nullable element => exact (h element).map _
  | generic base arguments => exact fun walk hdepth => ⟨rfl, hdepth⟩
  | map base key value => exact map_agree h setting node key value
  | array base element => exact (h element).map _
  | abstract implementations => exact (union_agree h implementations).map _
  | custom props implements => exact (properties_agree h node.identity props).bind fun compiled => .pure _
  | tuple ids => exact (elements_agree h ids).map _

end Children

section Nodes

variable {shape' shape'' : Compiler ObjectNode} {node : ObjectNode}

theorem definition_agree (h : WalksAgree depth (shape' node) (shape'' node)) :
    WalksAgree depth (definition shape' node) (definition shape'' node) := by
  refine (h.map _).bind fun schema => ?_
  cases schema with
  | none => exact unsupported_agree _ _
  | some schema => exact .pure _

theorem reference_agree (setting : Setting) (h : WalksAgree depth (shape' node) (shape'' node)) :
    WalksAgree depth (reference setting shape' node) (reference setting shape'' node) := by
  intro walk hdepth
  obtain ⟨hsame, hback⟩ := definition_agree h (reserving node walk) hdepth
  change run _ _ = run _ _ at hsame
  change (run _ _).2.depth = depth at hback
  change run _ _ = run _ _ ∧ (run _ _).2.depth = depth
  rw [run_reference, run_reference, ← hsame]
  refine ⟨rfl, ?_⟩
  split_ifs
  · exact hdepth
  · rcases hrun : run (definition shape' node) (reserving node walk) with ⟨e | schema, mid⟩
    · rw [hrun] at hback
      exact hback
    · rw [hrun] at hback
      exact hback

/-- Calls agree where the ways to compile shapes do. -/
theorem object_agree (setting : Setting) (h : ∀ node, WalksAgree depth (shape' node) (shape'' node)) (id : ObjectId) :
    WalksAgree depth (object setting shape' id) (object setting shape'' id) := by
  refine (node_agree setting id).bind fun node => ?_
  split_ifs
  · exact (reference_agree setting (h node)).map _
  · exact (h node).map _

end Nodes

variable {setting : Setting}

/-- The structural keywords of a node, if the counter of the state leaves a level for it. Nothing is handed down. -/
def descend (setting : Setting) (compile : Compiler ObjectId) : Compiler ObjectNode := fun node => do
  let walk ← get
  if setting.options.maxDepth ≤ walk.depth then throw (.depthExceeded setting.options.maxDepth node.identity)
  else Walk.deeper (layer setting compile node)

theorem run_descend (compile : Compiler ObjectId) (node : ObjectNode) (walk : Walk) :
    run (descend setting compile node) walk =
      if setting.options.maxDepth ≤ walk.depth then
        (.error (.depthExceeded setting.options.maxDepth node.identity), walk)
      else run (Walk.deeper (layer setting compile node)) walk := by
  rw [descend, Walk.run_bind, Walk.run_get]
  dsimp only
  split_ifs <;> rfl

/-- At a depth, a node asks the counter what is left, or it is handed the difference. -/
theorem shape_agree (compile : Compiler ObjectId)
    (hc : depth < setting.options.maxDepth → ∀ id, WalksAgree (depth + 1)
      (object setting (shape setting (setting.options.maxDepth - (depth + 1))) id) (compile id)) (node : ObjectNode) :
    WalksAgree depth (shape setting (setting.options.maxDepth - depth) node) (descend setting compile node) := by
  intro walk hdepth
  have hrun := @run_descend setting compile node walk
  rw [hdepth] at hrun
  change run _ _ = run _ _ ∧ (run _ _).2.depth = depth
  rw [hrun]
  split_ifs with hlimit
  · rw [Nat.sub_eq_zero_of_le hlimit]
    exact ⟨rfl, hdepth⟩
  · have hlt : depth < setting.options.maxDepth := Nat.lt_of_not_le hlimit
    have hroom : setting.options.maxDepth - depth = setting.options.maxDepth - (depth + 1) + 1 := by omega
    rw [hroom]
    exact deeper_agree (layer_agree (hc hlt) setting node) walk hdepth

/-- At a depth, a call takes the levels that are left there. -/
theorem compileObject_agree (depth : Nat) (id : ObjectId) :
    WalksAgree depth (object setting (shape setting (setting.options.maxDepth - depth)) id)
      (compileObject setting id) := by
  rintro walk rfl
  exact ⟨(run_compileObject setting walk id).symm, (object_keeps frames_grows setting (room setting walk) id walk).depth⟩

/-- **The counter.** A call compiles a node by asking the counter, and its children by calls that do so again. -/
theorem compileObject_eq (setting : Setting) :
    compileObject setting = object setting (descend setting (compileObject setting)) := by
  funext id
  apply AgreeAt.eq Walk.depth
  intro depth
  apply (compileObject_agree depth id).symm.trans
  apply object_agree
  exact shape_agree (compileObject setting) fun _ => compileObject_agree (depth + 1)

/-- The root of a document asks the counter as well, which stands at no node. -/
theorem run_shape_root (node : ObjectNode) {walk : Walk} (hdepth : walk.depth = 0) :
    run (shape setting setting.options.maxDepth node) walk =
      run (descend setting (compileObject setting) node) walk :=
  (shape_agree (compileObject setting) (fun _ => compileObject_agree 1) node walk hdepth).1

/-- **No other solution.** Whatever compiles nodes in this way is the compiler. -/
theorem compileObject_unique {compile : Compiler ObjectId}
    (hc : compile = object setting (descend setting compile)) : compile = compileObject setting := by
  have hagree : ∀ depth id, WalksAgree depth
      (object setting (shape setting (setting.options.maxDepth - depth)) id) (compile id) := by
    refine levels_induction setting.options.maxDepth fun depth hdeeper id => ?_
    rw [hc]
    apply object_agree
    exact shape_agree compile hdeeper
  funext id
  apply AgreeAt.eq Walk.depth
  intro depth
  exact (hagree depth id).symm.trans (compileObject_agree depth id)

/-- A property calls for its member where it stands. -/
theorem compileProperty_eq (setting : Setting) : compileProperty setting = property (compileObject setting) := by
  funext owner p walk
  have hagree := property_agree (@compileObject_agree setting walk.depth) owner p walk rfl
  exact (run_compileProperty setting walk owner p).trans hagree.1

/-- A list of implementations calls for each of them where it stands. -/
theorem compileUnion_eq (setting : Setting) : compileUnion setting = union (compileObject setting) := by
  funext implementations walk
  have hagree := union_agree (@compileObject_agree setting walk.depth) implementations walk rfl
  exact (run_compileUnion setting walk implementations).trans hagree.1

end Shape

/-! ## The hasher -/

namespace Hasher

variable {graph : TypeGraph} {limit depth : Nat} {hash : ObjectId → HashM UInt64}

/-- The hash of a node that is neither remembered nor being hashed, if the counter of the state leaves a level for it.
Nothing is handed down. -/
def descend (graph : TypeGraph) (limit : Nat) (hash : ObjectId → HashM UInt64) (id : ObjectId) : HashM UInt64 := do
  let hasher ← get
  match List.lookup id hasher.finished with
  | some h => return h
  | none =>
    let n ← liftExcept (graph.get id)
    if limit ≤ hasher.depth then throw (.depthExceeded limit n.identity)
    else if hasher.active.contains id then return cycleHash n.identity
    else
      let h ← inside id (node hash n)
      modify fun hasher => { hasher with finished := (id, h) :: hasher.finished }
      return h

theorem run_descend (id : ObjectId) (hasher : Hasher) :
    run (descend graph limit hash id) hasher =
      match List.lookup id hasher.finished with
      | some h => (.ok h, hasher)
      | none =>
        match graph.get? id with
        | none => (.error (.danglingNode "<graph>" id), hasher)
        | some n =>
          if limit ≤ hasher.depth then (.error (.depthExceeded limit n.identity), hasher)
          else if hasher.active.contains id then (.ok (cycleHash n.identity), hasher)
          else
            match run (inside id (node hash n)) hasher with
            | (.ok h, after) => (.ok h, { after with finished := (id, h) :: after.finished })
            | (.error e, after) => (.error e, after) := by
  unfold descend
  rw [run_bind, run_get]
  dsimp only
  cases List.lookup id hasher.finished with
  | some h => rfl
  | none =>
    dsimp only
    have hlift : run (liftExcept (graph.get id)) hasher = (graph.get id, hasher) := by
      cases graph.get id <;> rfl
    rw [run_bind, hlift]
    unfold TypeGraph.get
    cases graph.get? id with
    | none => rfl
    | some n =>
      dsimp only
      split_ifs
      · rfl
      · rfl
      · rw [run_bind]
        rcases run (inside id (node hash n)) hasher with ⟨e | h, after⟩ <;> rfl

/-- Nodes agree inside where the calls for their parts do, and then they agree where they are entered. -/
theorem inside_agree {hash' : ObjectId → HashM UInt64}
    (h : ∀ part, AgreeAt Hasher.depth (depth + 1) (hash part) (hash' part)) (id : ObjectId) (n : ObjectNode) :
    AgreeAt Hasher.depth depth (inside id (node hash n)) (inside id (node hash' n)) := by
  have hnode : AgreeAt Hasher.depth (depth + 1) (node hash n) (node hash' n) := by
    rw [node_eq, node_eq]
    exact (AgreeAt.mapM h n.shape.parts).map _
  intro hasher hdepth
  obtain ⟨hsame, hback⟩ := hnode (entering id hasher) (congrArg (· + 1) hdepth)
  change run _ _ = run _ _ at hsame
  change run _ _ = run _ _ ∧ (run _ _).2.depth = depth
  rw [run_inside, run_inside]
  refine ⟨?_, Nat.sub_eq_of_eq_add hback⟩
  dsimp only [entering] at hsame ⊢
  rw [hsame]

/-- At a depth, a node asks the counter what is left, or it is handed the difference. -/
theorem object_agree (hc : depth < limit → ∀ part, AgreeAt Hasher.depth (depth + 1)
      (object graph limit (limit - (depth + 1)) part) (hash part)) (id : ObjectId) :
    AgreeAt Hasher.depth depth (object graph limit (limit - depth) id) (descend graph limit hash id) := by
  intro hasher hdepth
  change run _ _ = run _ _ ∧ (run _ _).2.depth = depth
  rw [run_object, run_descend, hdepth]
  cases List.lookup id hasher.finished with
  | some h => exact ⟨rfl, hdepth⟩
  | none =>
    cases graph.get? id with
    | none => exact ⟨rfl, hdepth⟩
    | some n =>
      dsimp only
      by_cases hlimit : limit ≤ depth
      · rw [if_pos hlimit, Nat.sub_eq_zero_of_le hlimit]
        exact ⟨rfl, hdepth⟩
      · have hlt : depth < limit := Nat.lt_of_not_le hlimit
        have hroom : limit - depth = limit - (depth + 1) + 1 := by omega
        rw [if_neg hlimit, hroom]
        dsimp only
        split_ifs
        · exact ⟨rfl, hdepth⟩
        · obtain ⟨hsame, hback⟩ := inside_agree (hc hlt) id n hasher hdepth
          change run _ _ = run _ _ at hsame
          change (run _ _).2.depth = depth at hback
          rw [← hsame]
          refine ⟨rfl, ?_⟩
          rcases hrun : run (inside id (node (object graph limit (limit - (depth + 1))) n)) hasher with ⟨e | h, after⟩
          · rw [hrun] at hback
            exact hback
          · rw [hrun] at hback
            exact hback

/-- At a depth, a call takes the levels that are left there. -/
theorem hashObject_agree (depth : Nat) (id : ObjectId) :
    AgreeAt Hasher.depth depth (object graph limit (limit - depth) id) (hashObject graph limit id) := by
  rintro hasher rfl
  exact ⟨rfl, (object_keeps graph limit (limit - hasher.depth) id hasher).depth⟩

/-- **The counter.** A call hashes a node by asking the counter, and its parts by calls that do so again. -/
theorem hashObject_eq (graph : TypeGraph) (limit : Nat) :
    hashObject graph limit = descend graph limit (hashObject graph limit) := by
  funext id
  apply AgreeAt.eq Hasher.depth
  intro depth
  apply (hashObject_agree depth id).symm.trans
  exact object_agree (fun _ => hashObject_agree (depth + 1)) id

/-- **No other solution.** Whatever hashes nodes in this way is the hasher. -/
theorem hashObject_unique (hc : hash = descend graph limit hash) : hash = hashObject graph limit := by
  have hagree : ∀ depth id, AgreeAt Hasher.depth depth (object graph limit (limit - depth) id) (hash id) := by
    refine levels_induction limit fun depth hdeeper id => ?_
    rw [hc]
    exact object_agree hdeeper id
  funext id
  apply AgreeAt.eq Hasher.depth
  intro depth
  exact (hagree depth id).symm.trans (hashObject_agree depth id)

end Hasher

end GraphSchema
