import GraphSchema.Proofs.Correspondence
import GraphSchema.Proofs.HashParts
import GraphSchema.Proofs.Simulation

/-!
What the limit of levels decides.

- `Hasher.Prevails` : whatever one step succeeds with, another one succeeds with as well.
- `Hasher.object_prevails` : a call with more levels prevails over one with fewer.
- `limit_only_refuses` : a build or a hash that succeeds comes to the same under every larger limit.
-/

namespace GraphSchema

namespace Hasher

variable {α β : Type}

/-- Whatever the first step succeeds with, the second one succeeds with as well, and leaves the same behind. -/
def Prevails (x y : HashM α) : Prop :=
  ∀ s a t, run x s = (.ok a, t) → run y s = (.ok a, t)

namespace Prevails

variable {x y : HashM α}

theorem pure (a : α) : Prevails (pure a) (pure a) :=
  fun _ _ _ h => h

theorem bind {next next' : α → HashM β} (h : Prevails x y) (hnext : ∀ a, Prevails (next a) (next' a)) :
    Prevails (x >>= next) (y >>= next') := by
  intro s b t hrun
  rw [run_bind] at hrun ⊢
  rcases hx : run x s with ⟨e | a, mid⟩
  · rw [hx] at hrun
    cases hrun
  · rw [hx] at hrun
    rw [h s a mid hx]
    exact hnext a mid b t hrun

theorem map (h : Prevails x y) (f : α → β) : Prevails (f <$> x) (f <$> y) := by
  rw [map_eq_pure_bind, map_eq_pure_bind]
  exact h.bind fun a => pure (f a)

theorem mapM {f g : α → HashM β} {as : List α} (h : ∀ a ∈ as, Prevails (f a) (g a)) :
    Prevails (as.mapM f) (as.mapM g) := by
  induction as with
  | nil => exact pure []
  | cons a rest ih =>
    rw [List.mapM_cons, List.mapM_cons]
    refine (h a List.mem_cons_self).bind fun b => ?_
    exact (ih fun a ha => h a (List.mem_cons_of_mem _ ha)).bind fun bs => pure (b :: bs)

theorem inside {body other : HashM α} (h : Prevails body other) (id : ObjectId) :
    Prevails (inside id body) (inside id other) := by
  intro s a t hrun
  rw [run_inside] at hrun ⊢
  obtain ⟨hresult, hafter⟩ := Prod.mk.inj hrun
  have hother := h _ a _ (Prod.ext hresult rfl)
  dsimp only
  rw [hother]
  exact Prod.ext rfl hafter

end Prevails

variable {graph : TypeGraph}

/-- **More levels.** A call that succeeds does the same with more levels left. The levels are counted before a cycle is
looked for, but a call that ends there has one to count. -/
theorem object_prevails {limit limit' room more : Nat} (hroom : room ≤ more) (id : ObjectId) :
    Prevails (object graph limit room id) (object graph limit' more id) := by
  induction room generalizing more id with
  | zero =>
    intro s a t hrun
    rw [run_object] at hrun ⊢
    cases hlookup : List.lookup id s.finished with
    | some h =>
      rw [hlookup] at hrun
      exact hrun
    | none =>
      rw [hlookup] at hrun
      cases hget : graph.get? id with
      | none => rw [hget] at hrun; cases hrun
      | some n => rw [hget] at hrun; cases hrun
  | succ room ih =>
    intro s a t hrun
    rw [run_object] at hrun ⊢
    cases hlookup : List.lookup id s.finished with
    | some h =>
      rw [hlookup] at hrun
      exact hrun
    | none =>
      rw [hlookup] at hrun
      cases hget : graph.get? id with
      | none => rw [hget] at hrun; cases hrun
      | some n =>
        rw [hget] at hrun
        cases more with
        | zero => exact absurd hroom (Nat.not_succ_le_zero room)
        | succ more =>
          dsimp only at hrun ⊢
          split_ifs at hrun ⊢ with hactive
          · exact hrun
          · have hparts : Prevails (node (object graph limit room) n) (node (object graph limit' more) n) := by
              rw [node_eq, node_eq]
              exact (Prevails.mapM fun part _ => ih (Nat.le_of_succ_le_succ hroom) part).map _
            rcases hin : run (inside id (node (object graph limit room) n)) s with ⟨e | h, mid⟩
            · rw [hin] at hrun
              cases hrun
            · rw [hin] at hrun
              rw [hparts.inside id s h mid hin]
              exact hrun

end Hasher

/-! ## Builds -/

theorem Schema.seen_id {s t : Schema} : s.seen id = t.seen id ↔ s = t := by
  constructor
  · intro h
    obtain ⟨members⟩ := s
    obtain ⟨_⟩ := t
    cases h
    rfl
  · rintro rfl
    rfl

/-- Where all is seen, equal schemas inside make equal schemas. -/
theorem compositional_id : Shape.Compositional id Eq where
  nullable h := by rw [Schema.seen_id] at h ⊢; rw [h]
  array h := by rw [Schema.seen_id] at h ⊢; rw [h]
  map h := by rw [Schema.seen_id] at h ⊢; rw [h]
  comment text h := by rw [Schema.seen_id] at h ⊢; rw [h]
  union h := by rw [List.map_id, List.map_id] at h; rw [h]
  object {ps qs} h := by
    have houtline : ∀ entries : List (Property × Schema), entries.map Shape.outline =
        (entries.map (Shape.entrySeen id)).map fun (name, nullability, seen) =>
          ({ name, nullability, shape := .override "" }, ⟨seen.members?.getD []⟩) := by
      intro entries
      rw [List.map_map]
      rfl
    rw [Schema.seen_id, ← Shape.objectSchema_outline ps, ← Shape.objectSchema_outline qs, houtline, houtline, h]
  tuple h := by rw [List.map_id, List.map_id] at h; rw [h]
  annotate hm h := by rw [Schema.seen_id] at h ⊢; rw [h, hm]
  default text h := by rw [Schema.seen_id] at h ⊢; rw [h]

theorem CompiledSchema.Agrees.eq {c d : CompiledSchema} (h : c.Agrees id d) : c = d := by
  have hdefs : c.defs = d.defs := by
    have hid : ∀ members : Members Json, members.mapValues id = members := fun members => List.map_id members
    have hseen := h.defs
    rwa [hid, hid] at hseen
  have hbody : c.body = d.body := by
    obtain ⟨s, t, hst, hs, ht⟩ := h.body
    rw [hs, ht, Schema.seen_id.1 hst]
  have hdocument : c.document = d.document := by
    obtain ⟨front, hc, hd⟩ := h.document
    rw [hc, hd, hbody, hdefs]
  obtain ⟨document, fileName, diagnostics⟩ := c
  obtain ⟨_, _, _⟩ := d
  obtain ⟨rfl, rfl⟩ : fileName = _ ∧ diagnostics = _ := ⟨h.fileName, h.diagnostics⟩
  exact congrArg (CompiledSchema.mk · fileName diagnostics) hdocument

/-- **The limit only refuses.** A build that succeeds comes to the same document, with the same diagnostics, under every
larger limit of levels, and so does a structural hash. -/
theorem limit_only_refuses (graph : TypeGraph) (request : RootRequest) (options : CompileOptions) (root : ObjectId)
    {limit more : Nat} (h : limit ≤ more) :
    (∀ c, build graph request { options with maxDepth := limit } = .ok c →
      build graph request { options with maxDepth := more } = .ok c) ∧
    ∀ hash, graph.structuralHash root limit = .ok hash → graph.structuralHash root more = .ok hash := by
  constructor
  · intro c hc
    have halike : BuildsAlike id Eq False graph graph request request { options with maxDepth := limit }
        { options with maxDepth := more } := .of_options graph request rfl (Or.inl rfl) h False.elim
    obtain ⟨d, hd, hagrees⟩ := (build_inStep compositional_id halike).1 c hc
    rw [hd, hagrees.eq]
  · intro hash hhash
    have hfresh : ({} : Hasher).depth = 0 := rfl
    unfold TypeGraph.structuralHash at hhash ⊢
    rw [Hasher.run_hashObject hfresh] at hhash ⊢
    rcases hrun : Hasher.run (Hasher.object graph limit limit root) {} with ⟨result, after⟩
    rw [hrun] at hhash
    dsimp only at hhash
    subst hhash
    rw [Hasher.object_prevails h root {} hash after hrun]

/-- The list of tagged nodes builds and is hashed with four levels, and ten levels change nothing. -/
theorem limit_only_refuses_taggedList : 4 ≤ 10 ∧
    (∃ c, build taggedList { root := ⟨1⟩ } { maxDepth := 4 } = .ok c ∧
      build taggedList { root := ⟨1⟩ } { maxDepth := 10 } = .ok c) ∧
    ∃ hash, taggedList.structuralHash ⟨1⟩ 4 = .ok hash ∧ taggedList.structuralHash ⟨1⟩ 10 = .ok hash := by
  have hlimit : 4 ≤ 10 := by decide
  have hbuild : (build taggedList { root := ⟨1⟩ } { maxDepth := 4 }).isOk = true := by rfl
  have hhash : (taggedList.structuralHash ⟨1⟩ 4).isOk = true := by decide +kernel
  obtain ⟨c, hc⟩ := exists_ok_of_isOk hbuild
  obtain ⟨hash, hh⟩ := exists_ok_of_isOk hhash
  obtain ⟨hbuilds, hhashes⟩ := limit_only_refuses taggedList { root := ⟨1⟩ } {} ⟨1⟩ hlimit
  exact ⟨hlimit, ⟨c, hc, hbuilds c hc⟩, hash, hh, hhashes hash hh⟩

end GraphSchema
