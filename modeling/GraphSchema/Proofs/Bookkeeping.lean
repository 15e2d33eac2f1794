import GraphSchema.Proofs.Table

/-!
What every step of a walk keeps, also when it fails.

- `Shape.Frames` says of a relation between states that diagnostics, levels and definitions do not disturb it.
- `Shape.shape_keeps`, `Shape.object_keeps`: such a relation holds between the states before and after every
  compilation.
- `Walk.Grows` is one: the depth is restored, and nothing that was written is taken back.
-/

namespace GraphSchema

namespace Shape

open Walk (run run_bind)

/-- `I` relates the states before and after steps: steps compose, a diagnostic does no harm, a level is left again,
and a definition that is reserved may stay so, if it fails, or be filled. -/
structure Frames (I : Walk → Walk → Prop) : Prop where
  refl : ∀ walk, I walk walk
  trans : ∀ {a b c}, I a b → I b c → I a c
  note : ∀ walk d, I walk { walk with diagnostics := walk.diagnostics ++ [d] }
  level : ∀ {walk last}, I { walk with depth := walk.depth + 1 } last → I walk { last with depth := last.depth - 1 }
  reserved : ∀ {walk mid} {node : ObjectNode}, walk.definitions.contains node.identity = false →
    I (reserving node walk) mid → I walk mid
  filled : ∀ {walk mid} {node : ObjectNode} (schema : Json), walk.definitions.contains node.identity = false →
    I (reserving node walk) mid → I walk { mid with definitions := mid.definitions.fill node.identity schema }

/-- Whatever comes out of a step, the states before and after it are related. -/
def Keeps {α : Type} (I : Walk → Walk → Prop) (body : WalkM α) : Prop :=
  ∀ walk, I walk (run body walk).2

variable {I : Walk → Walk → Prop} {α β : Type}

namespace Keeps

theorem pure (hI : Frames I) (a : α) : Keeps I (pure a) :=
  fun walk => hI.refl walk

theorem bind (hI : Frames I) {body : WalkM α} {next : α → WalkM β} (h : Keeps I body)
    (hnext : ∀ a, Keeps I (next a)) : Keeps I (body >>= next) := by
  intro walk
  have hbody := h walk
  rw [run_bind]
  rcases hrun : run body walk with ⟨e | a, mid⟩
  · rw [hrun] at hbody
    exact hbody
  · rw [hrun] at hbody
    exact hI.trans hbody (hnext a mid)

theorem map (hI : Frames I) {body : WalkM α} (f : α → β) (h : Keeps I body) : Keeps I (f <$> body) := by
  rw [map_eq_pure_bind]
  exact h.bind hI fun a => pure hI (f a)

theorem note (hI : Frames I) (identity message : String) : Keeps I (Walk.note identity message) :=
  fun walk => hI.note walk _

theorem unsupported (hI : Frames I) (identity message : String) : Keeps I (Walk.unsupported identity message) :=
  fun walk => hI.note walk _

theorem node (hI : Frames I) (setting : Setting) (id : ObjectId) : Keeps I (Walk.node setting id) := by
  intro walk
  rw [Walk.run_node]
  exact hI.refl walk

theorem deeper (hI : Frames I) {body : WalkM α} (h : Keeps I body) : Keeps I (Walk.deeper body) :=
  fun walk => hI.level (h { walk with depth := walk.depth + 1 })

end Keeps

/-! ## One node, given what its children keep -/

variable {compile : Compiler ObjectId}

theorem elements_keeps (hI : Frames I) (hc : ∀ id, Keeps I (compile id)) (ids : List ObjectId) :
    Keeps I (elements compile ids) := by
  induction ids with
  | nil => exact Keeps.pure hI _
  | cons id rest ih =>
    refine (hc id).bind hI fun schema => ?_
    cases schema with
    | none => exact Keeps.pure hI _
    | some schema =>
      refine ih.bind hI fun schemas => ?_
      cases schemas <;> exact Keeps.pure hI _

theorem arms_keeps (hI : Frames I) (hc : ∀ id, Keeps I (compile id)) (ids : List ObjectId) :
    Keeps I (arms compile ids) := by
  induction ids with
  | nil => exact Keeps.pure hI _
  | cons id rest ih => exact (hc id).bind hI fun schema => ih.bind hI fun _ => Keeps.pure hI _

theorem union_keeps (hI : Frames I) (hc : ∀ id, Keeps I (compile id)) (ids : List ObjectId) :
    Keeps I (union compile ids) :=
  (arms_keeps hI hc ids).bind hI fun _ => Keeps.pure hI _

theorem property_keeps (hI : Frames I) (hc : ∀ id, Keeps I (compile id)) (owner : String) (p : Property) :
    Keeps I (property compile owner p) := by
  unfold property
  cases p.shape with
  | override fragment =>
    dsimp only
    cases Schema.ofFragment fragment with
    | ok schema => exact Keeps.pure hI _
    | error error => exact (Keeps.unsupported hI _ _).map hI _
  | custom member default =>
    refine (hc member).bind hI fun schema => ?_
    cases schema <;> exact Keeps.pure hI _

theorem properties_keeps (hI : Frames I) (hc : ∀ id, Keeps I (compile id)) (owner : String)
    (props : List Property) : Keeps I (properties compile owner props) := by
  induction props with
  | nil => exact Keeps.pure hI _
  | cons p rest ih =>
    exact (property_keeps hI hc owner p).bind hI fun schema => ih.bind hI fun _ => Keeps.pure hI _

theorem map_keeps (hI : Frames I) (hc : ∀ id, Keeps I (compile id)) (setting : Setting) (node : ObjectNode)
    (key value : ObjectId) : Keeps I (map setting compile node key value) := by
  refine (Keeps.node hI setting key).bind hI fun keyNode => ?_
  have hvalues := (hc value).map hI (·.map mapSchema)
  dsimp only
  split_ifs
  · exact hvalues
  · cases setting.options.dictionaryKeys with
    | loose => exact hvalues.map hI _
    | strict => exact (Keeps.unsupported hI _ _).map hI _
    | silent => exact hvalues
    | skip => exact Keeps.pure hI _

theorem layer_keeps (hI : Frames I) (hc : ∀ id, Keeps I (compile id)) (setting : Setting) (node : ObjectNode) :
    Keeps I (layer setting compile node) := by
  unfold layer
  cases node.shape with
  | system primitive => exact Keeps.pure hI _
  | override fragment =>
    dsimp only
    cases Schema.ofFragment fragment with
    | ok schema => exact Keeps.pure hI _
    | error error => exact (Keeps.unsupported hI _ _).map hI _
  | nullable element => exact (hc element).map hI _
  | generic base arguments => exact (Keeps.note hI _ _).bind hI fun _ => Keeps.pure hI _
  | map base key value => exact map_keeps hI hc setting node key value
  | array base element => exact (hc element).map hI _
  | abstract implementations => exact (union_keeps hI hc implementations).map hI _
  | custom props implements => exact (properties_keeps hI hc node.identity props).bind hI fun _ => Keeps.pure hI _
  | tuple ids => exact (elements_keeps hI hc ids).map hI _

/-! ## All nodes -/

variable {shape' : Compiler ObjectNode}

theorem definition_keeps (hI : Frames I) {node : ObjectNode} (hs : Keeps I (shape' node)) :
    Keeps I (definition shape' node) := by
  refine (hs.map hI _).bind hI fun schema => ?_
  cases schema with
  | none => exact Keeps.unsupported hI _ _
  | some schema => exact Keeps.pure hI _

theorem reference_keeps (hI : Frames I) {setting : Setting} {node : ObjectNode} (hs : Keeps I (shape' node)) :
    Keeps I (reference setting shape' node) := by
  intro walk
  rw [run_reference]
  split_ifs with hknown
  · exact hI.refl walk
  · have hnew := Bool.eq_false_iff.2 (not_or.1 hknown).2
    have hdefinition := definition_keeps hI hs (reserving node walk)
    rcases hrun : run (definition shape' node) (reserving node walk) with ⟨e | schema, mid⟩
    · rw [hrun] at hdefinition
      exact hI.reserved hnew hdefinition
    · rw [hrun] at hdefinition
      exact hI.filled schema.toJson hnew hdefinition

theorem object_keeps_of_shape (hI : Frames I) {setting : Setting} (hs : ∀ node, Keeps I (shape' node))
    (id : ObjectId) : Keeps I (object setting shape' id) := by
  refine (Keeps.node hI setting id).bind hI fun node => ?_
  split_ifs
  · exact (reference_keeps hI (hs node)).map hI _
  · exact (hs node).map hI _

/-- **Every step.** What diagnostics, levels and definitions keep, the compilation of a node keeps, with any number
of levels left, whether it succeeds or fails. -/
theorem shape_keeps (hI : Frames I) (setting : Setting) (room : Nat) (node : ObjectNode) :
    Keeps I (shape setting room node) := by
  induction room generalizing node with
  | zero => exact fun walk => hI.refl walk
  | succ room ih => exact (layer_keeps hI (object_keeps_of_shape hI ih) setting node).deeper hI

theorem object_keeps (hI : Frames I) (setting : Setting) (room : Nat) (id : ObjectId) :
    Keeps I (object setting (shape setting room) id) :=
  object_keeps_of_shape hI (shape_keeps hI setting room) id

end Shape

/-! ## What a walk has written -/

/-- The depth is what it was, and all diagnostics and slots are still there. -/
structure Walk.Grows (walk after : Walk) : Prop where
  depth : after.depth = walk.depth
  diagnostics : walk.diagnostics <+: after.diagnostics
  slots : ∀ {key slot}, walk.definitions.slot? key = some slot → after.definitions.slot? key = some slot

theorem Definitions.slot?_fill_of_ne {key other : String} (hne : other ≠ key) (table : Definitions) (schema : Json) :
    (table.fill key schema).slot? other = table.slot? other := by
  unfold fill
  split_ifs
  · rfl
  · exact (slot?_withSlot table key (.built schema) other).trans (if_neg hne)

theorem Walk.Grows.contains {walk after : Walk} (h : walk.Grows after) {key : String}
    (hc : walk.definitions.contains key = true) : after.definitions.contains key = true := by
  obtain ⟨slot, hs⟩ := Definitions.contains_iff.1 hc
  exact Definitions.contains_iff.2 ⟨slot, h.slots hs⟩

theorem Walk.Grows.of_reserving {walk mid : Walk} {node : ObjectNode}
    (hnew : walk.definitions.contains node.identity = false) (h : (Shape.reserving node walk).Grows mid) :
    walk.Grows mid ∧ ∀ {key slot}, walk.definitions.slot? key = some slot → key ≠ node.identity := by
  have hne : ∀ {key slot}, walk.definitions.slot? key = some slot → key ≠ node.identity := by
    rintro key slot hs rfl
    rw [Definitions.slot?_of_not_contains hnew] at hs
    cases hs
  refine ⟨⟨h.depth, h.diagnostics, fun {key slot} hs => h.slots ?_⟩, hne⟩
  exact (Definitions.slot?_withSlot walk.definitions node.identity .reserved key).trans ((if_neg (hne hs)).trans hs)

/-- **Nothing is taken back.** -/
theorem frames_grows : Shape.Frames Walk.Grows where
  refl _ := ⟨rfl, List.prefix_rfl, id⟩
  trans h h' := ⟨h'.depth.trans h.depth, h.diagnostics.trans h'.diagnostics, fun hs => h'.slots (h.slots hs)⟩
  note _ d := ⟨rfl, List.prefix_append _ [d], id⟩
  level h := ⟨by rw [h.depth, Nat.add_sub_cancel], h.diagnostics, h.slots⟩
  reserved hnew h := (h.of_reserving hnew).1
  filled schema hnew h := by
    obtain ⟨hgrows, hne⟩ := h.of_reserving hnew
    refine ⟨hgrows.depth, hgrows.diagnostics, fun hs => ?_⟩
    rw [Definitions.slot?_fill_of_ne (hne hs)]
    exact hgrows.slots hs

end GraphSchema
