import Mathlib.Data.List.Nodup
import GraphSchema.Graph.Implementations
import GraphSchema.Proofs.Reach

/-!
What the linking of a graph leaves behind.

- `TypeGraph.Declares`, `TypeGraph.FirstDeclares` : who says to implement an abstract type, and who says so first among
  the object types of one identity.
- `TypeGraph.mem_firstDeclarations` : a scan keeps of each pair of identities the first declaration.
- `TypeGraph.distinct` : a list without the ids whose identity has come before, said without a memory.
- `link_completes` : linking appends the first declarers to each list of implementations, drops repetitions, and
  changes nothing else.
-/

namespace GraphSchema

namespace TypeGraph

variable {graph : TypeGraph}

/-! ## Declarations -/

/-- whether a node is an object type that names an abstract type of this identity among those it implements -/
def Declares (graph : TypeGraph) (node : ObjectNode) (identity : String) : Prop :=
  ∃ properties implements, node.shape = .custom properties implements ∧
    ∃ target ∈ implements, ∃ type, graph.get? target = some type ∧ type.kind = .abstract ∧ type.identity = identity

/-- whether a node declares to implement an abstract type, and no node of the same identity does so before it -/
def FirstDeclares (graph : TypeGraph) (identity : String) (id : ObjectId) : Prop :=
  ∃ node, graph.get? id = some node ∧ graph.Declares node identity ∧
    ∀ earlier other, earlier.index < id.index → graph.get? earlier = some other → graph.Declares other identity →
      other.identity ≠ node.identity

theorem mem_declared {node : ObjectNode} {identity : String} :
    identity ∈ graph.declared node ↔ graph.Declares node identity := by
  unfold declared Declares
  cases node.shape with
  | custom properties implements =>
    simp only [List.mem_filterMap, Option.ite_none_right_eq_some, Option.some.injEq, ObjectShape.custom.injEq]
    constructor
    · rintro ⟨type, ⟨target, htarget, hget⟩, habstract, hidentity⟩
      exact ⟨properties, implements, ⟨rfl, rfl⟩, target, htarget, type, hget, habstract, hidentity⟩
    · rintro ⟨_, _, ⟨rfl, rfl⟩, target, htarget, type, hget, habstract, hidentity⟩
      exact ⟨type, ⟨target, htarget, hget⟩, habstract, hidentity⟩
  | _ => simp

theorem mem_declarations {target name : String} {id : ObjectId} :
    (target, name, id) ∈ graph.declarations ↔
      ∃ node, graph.get? id = some node ∧ graph.Declares node target ∧ name = node.identity := by
  unfold declarations
  rw [List.mem_flatMap]
  constructor
  · rintro ⟨⟨i, node⟩, hentry, hmem⟩
    obtain ⟨t, ht, heq⟩ := List.mem_map.1 hmem
    cases heq
    exact ⟨node, mem_entries_iff.1 hentry, mem_declared.1 ht, rfl⟩
  · rintro ⟨node, hget, hdeclares, rfl⟩
    exact ⟨(id, node), mem_entries_iff.2 hget, List.mem_map.2 ⟨target, mem_declared.2 hdeclares, rfl⟩⟩

/-- Declarations stand in the order of the graph; a node has several of them side by side. -/
theorem declarations_ascending (graph : TypeGraph) :
    graph.declarations.Pairwise fun a b => a.2.2.index ≤ b.2.2.index := by
  unfold declarations
  rw [List.pairwise_flatMap]
  constructor
  · rintro ⟨id, node⟩ -
    rw [List.pairwise_map]
    exact List.pairwise_of_forall fun _ _ => Nat.le_refl _
  · refine (entries_ascending graph).imp fun {a b} hlt x hx y hy => ?_
    obtain ⟨_, _, rfl⟩ := List.mem_map.1 hx
    obtain ⟨_, _, rfl⟩ := List.mem_map.1 hy
    exact Nat.le_of_lt hlt

/-- **The scan.** Of the declarations with one pair of identities, the first one is kept, unless the pair has come
before. -/
theorem mem_firstDeclarations {seen : List (String × String)} {declarations : List (String × String × ObjectId)}
    (hascending : declarations.Pairwise fun a b => a.2.2.index ≤ b.2.2.index) {target : String} {id : ObjectId} :
    (target, id) ∈ firstDeclarations seen declarations ↔
      ∃ name, (target, name, id) ∈ declarations ∧ (target, name) ∉ seen ∧
        ∀ other, (target, name, other) ∈ declarations → id.index ≤ other.index := by
  induction declarations generalizing seen with
  | nil => simp [firstDeclarations]
  | cons declaration rest ih =>
    obtain ⟨t, n, i⟩ := declaration
    obtain ⟨hleast, hrest⟩ := List.pairwise_cons.1 hascending
    rw [firstDeclarations]
    by_cases hseen : (t, n) ∈ seen
    · rw [if_pos (List.contains_iff_mem.2 hseen), ih hrest]
      constructor
      · rintro ⟨name, hmem, hnew, hmin⟩
        refine ⟨name, List.mem_cons_of_mem _ hmem, hnew, fun other hother => ?_⟩
        rcases List.mem_cons.1 hother with heq | hother
        · cases heq
          exact absurd hseen hnew
        · exact hmin other hother
      · rintro ⟨name, hmem, hnew, hmin⟩
        rcases List.mem_cons.1 hmem with heq | hmem
        · cases heq
          exact absurd hseen hnew
        · exact ⟨name, hmem, hnew, fun other hother => hmin other (List.mem_cons_of_mem _ hother)⟩
    · rw [if_neg (mt List.contains_iff_mem.1 hseen), List.mem_cons, ih hrest]
      constructor
      · rintro (heq | ⟨name, hmem, hnew, hmin⟩)
        · cases heq
          refine ⟨n, List.mem_cons_self, hseen, fun other hother => ?_⟩
          rcases List.mem_cons.1 hother with heq | hother
          · cases heq
            exact Nat.le_refl _
          · exact hleast _ hother
        · obtain ⟨hne, hnew⟩ := not_or.1 (mt List.mem_cons.2 hnew)
          refine ⟨name, List.mem_cons_of_mem _ hmem, hnew, fun other hother => ?_⟩
          rcases List.mem_cons.1 hother with heq | hother
          · cases heq
            exact absurd rfl hne
          · exact hmin other hother
      · rintro ⟨name, hmem, hnew, hmin⟩
        by_cases hpair : (target, name) = (t, n)
        · cases hpair
          have hle : id.index ≤ i.index := hmin i List.mem_cons_self
          have hge : i.index ≤ id.index := by
            rcases List.mem_cons.1 hmem with heq | hmem
            · cases heq
              exact Nat.le_refl _
            · exact hleast _ hmem
          obtain rfl : id = i := congrArg ObjectId.mk (Nat.le_antisymm hle hge)
          exact Or.inl rfl
        · rcases List.mem_cons.1 hmem with heq | hmem
          · cases heq
            exact absurd rfl hpair
          · refine Or.inr ⟨name, hmem, ?_, fun other hother => hmin other (List.mem_cons_of_mem _ hother)⟩
            exact fun h => (List.mem_cons.1 h).elim hpair hnew

/-- A scan keeps the order of the graph, and an id once for each target. -/
theorem firstDeclarations_ascending {seen : List (String × String)} {declarations : List (String × String × ObjectId)}
    (hascending : declarations.Pairwise fun a b => a.2.2.index ≤ b.2.2.index)
    (hname : ∀ a ∈ declarations, ∀ b ∈ declarations, a.2.2 = b.2.2 → a.2.1 = b.2.1) :
    (firstDeclarations seen declarations).Pairwise fun a b => a.1 = b.1 → a.2.index < b.2.index := by
  induction declarations generalizing seen with
  | nil => exact List.Pairwise.nil
  | cons declaration rest ih =>
    obtain ⟨t, n, i⟩ := declaration
    obtain ⟨hleast, hrest⟩ := List.pairwise_cons.1 hascending
    have hnames : ∀ a ∈ rest, ∀ b ∈ rest, a.2.2 = b.2.2 → a.2.1 = b.2.1 :=
      fun a ha b hb => hname a (List.mem_cons_of_mem _ ha) b (List.mem_cons_of_mem _ hb)
    rw [firstDeclarations]
    split_ifs
    · exact ih hrest hnames
    · refine List.pairwise_cons.2 ⟨?_, ih hrest hnames⟩
      rintro ⟨target, id⟩ hmem heq
      dsimp only at heq ⊢
      subst heq
      obtain ⟨name, hdeclared, hnew, -⟩ := (mem_firstDeclarations hrest).1 hmem
      refine Nat.lt_of_le_of_ne (hleast _ hdeclared) fun hindex => hnew ?_
      -- one id with two names, since the pair of `n` has been seen
      obtain rfl : i = id := congrArg ObjectId.mk hindex
      have hsame : n = name := hname _ List.mem_cons_self _ (List.mem_cons_of_mem _ hdeclared) rfl
      exact hsame ▸ List.mem_cons_self

/-- What a scan finds for an abstract type are the first declarers, in the order of the graph. -/
theorem mem_scan {identity : String} {id : ObjectId} :
    id ∈ graph.scanImplementations.of identity ↔ graph.FirstDeclares identity id := by
  have hmem : id ∈ graph.scanImplementations.of identity ↔ (identity, id) ∈ firstDeclarations [] graph.declarations := by
    simp [Implementations.of, scanImplementations]
  rw [hmem, mem_firstDeclarations graph.declarations_ascending]
  constructor
  · rintro ⟨name, hdeclared, -, hmin⟩
    obtain ⟨node, hget, hdeclares, rfl⟩ := mem_declarations.1 hdeclared
    refine ⟨node, hget, hdeclares, fun earlier other hlt hother hothers hsame => ?_⟩
    have hle := hmin earlier (mem_declarations.2 ⟨other, hother, hothers, hsame.symm⟩)
    omega
  · rintro ⟨node, hget, hdeclares, hfirst⟩
    refine ⟨node.identity, mem_declarations.2 ⟨node, hget, hdeclares, rfl⟩, List.not_mem_nil, fun other hother => ?_⟩
    obtain ⟨n, hn, hothers, hname⟩ := mem_declarations.1 hother
    exact Nat.le_of_not_lt fun hlt => hfirst other n hlt hn hothers hname.symm

/-- Of the object types of one identity that declare something, one is the first. -/
theorem exists_firstDeclares {identity : String} {id : ObjectId} {node : ObjectNode} (hget : graph.get? id = some node)
    (hdeclares : graph.Declares node identity) :
    ∃ first other, graph.FirstDeclares identity first ∧ graph.get? first = some other ∧
      other.identity = node.identity := by
  induction hindex : id.index using Nat.strongRecOn generalizing id node with
  | ind index ih =>
    by_cases hearlier : ∃ earlier other, earlier.index < id.index ∧ graph.get? earlier = some other ∧
        graph.Declares other identity ∧ other.identity = node.identity
    · obtain ⟨earlier, other, hlt, hother, hothers, hsame⟩ := hearlier
      obtain ⟨first, found, hfirst, hfound, hidentity⟩ := ih _ (hindex ▸ hlt) hother hothers rfl
      exact ⟨first, found, hfirst, hfound, hidentity.trans hsame⟩
    · refine ⟨id, node, ⟨node, hget, hdeclares, ?_⟩, hget, rfl⟩
      exact fun earlier other hlt hother hothers hsame => hearlier ⟨earlier, other, hlt, hother, hothers, hsame⟩

theorem scan_ascending (graph : TypeGraph) (identity : String) :
    (graph.scanImplementations.of identity).Pairwise fun a b => a.index < b.index := by
  have hname : ∀ a ∈ graph.declarations, ∀ b ∈ graph.declarations, a.2.2 = b.2.2 → a.2.1 = b.2.1 := by
    rintro ⟨t, n, i⟩ ha ⟨u, m, j⟩ hb heq
    dsimp only at heq ⊢
    subst heq
    obtain ⟨a, hgeta, -, rfl⟩ := mem_declarations.1 ha
    obtain ⟨b, hgetb, -, rfl⟩ := mem_declarations.1 hb
    cases hgeta.symm.trans hgetb
    rfl
  have hscan := @firstDeclarations_ascending [] graph.declarations graph.declarations_ascending hname
  unfold Implementations.of scanImplementations
  rw [List.pairwise_map, List.pairwise_filter]
  refine hscan.imp fun {a b} hab ha hb => hab ?_
  rw [beq_iff_eq.1 ha, beq_iff_eq.1 hb]

/-! ## Repetitions -/

/-- whether two ids are in the graph and have one identity -/
def sameIdentity (graph : TypeGraph) (a b : ObjectId) : Bool :=
  (graph.get? a).any fun m => (graph.get? b).any fun n => m.identity == n.identity

/-- A list without the ids whose identity has come before. An id outside the graph has none and stays. -/
def distinct (graph : TypeGraph) : List ObjectId → List ObjectId
  | [] => []
  | id :: rest => id :: (distinct graph rest).filter fun later => !graph.sameIdentity id later

theorem distinct_subset (graph : TypeGraph) (ids : List ObjectId) : graph.distinct ids ⊆ ids := by
  induction ids with
  | nil => exact List.Subset.refl _
  | cons id rest ih =>
    rw [distinct]
    exact List.cons_subset_cons id (List.Subset.trans (List.filter_subset_self _) ih)

theorem keepFirst_eq_filter (graph : TypeGraph) (seen : List String) (ids : List ObjectId) :
    graph.keepFirst seen ids =
      (graph.distinct ids).filter fun id => (graph.get? id).all fun node => !seen.contains node.identity := by
  induction ids generalizing seen with
  | nil => rfl
  | cons id rest ih =>
    rw [keepFirst, distinct]
    cases hget : graph.get? id with
    | none =>
      have hall : ∀ later, (!graph.sameIdentity id later) = true := fun later => by simp [sameIdentity, hget]
      simp only [hall, List.filter_true, List.filter_cons, hget, Option.all_none, if_true, ih]
    | some node =>
      have hsame : ∀ later, graph.sameIdentity id later = (graph.get? later).any fun n => node.identity == n.identity :=
        fun later => by simp [sameIdentity, hget]
      simp only [hsame, List.filter_cons, hget, Option.all_some, List.filter_filter, ih]
      cases hseen : seen.contains node.identity with
      | true =>
        simp only [Bool.not_true, if_true, Bool.false_eq_true, if_false]
        refine List.filter_congr fun later _ => ?_
        cases graph.get? later with
        | none => rfl
        | some other =>
          by_cases heq : node.identity = other.identity
          · simp [← heq, List.contains_iff_mem.1 hseen]
          · simp [heq]
      | false =>
        simp only [Bool.not_false, if_true, Bool.false_eq_true, if_false]
        refine congrArg (id :: ·) (List.filter_congr fun later _ => ?_)
        cases graph.get? later with
        | none => rfl
        | some other =>
          by_cases heq : node.identity = other.identity
          · simp [heq]
          · simp [heq, Ne.symm heq]

/-- With nothing seen before, what is kept are the first ids of each identity. -/
theorem keepFirst_eq_distinct (graph : TypeGraph) (ids : List ObjectId) :
    graph.keepFirst [] ids = graph.distinct ids := by
  rw [keepFirst_eq_filter]
  refine List.filter_eq_self.2 fun id _ => ?_
  cases graph.get? id <;> rfl

theorem keepFirst_congr {seen others : List String} (h : ∀ name, name ∈ seen ↔ name ∈ others) (ids : List ObjectId) :
    graph.keepFirst seen ids = graph.keepFirst others ids := by
  rw [keepFirst_eq_filter, keepFirst_eq_filter]
  refine List.filter_congr fun id _ => ?_
  cases graph.get? id with
  | none => rfl
  | some node => simp [h]

theorem keepFirst_append (seen : List String) (front back : List ObjectId) :
    graph.keepFirst seen (front ++ back) =
      graph.keepFirst seen front ++ graph.keepFirst (graph.names front ++ seen) back := by
  induction front generalizing seen with
  | nil => rfl
  | cons id rest ih =>
    rw [List.cons_append, keepFirst, keepFirst]
    cases hget : graph.get? id with
    | none => rw [names_cons_none hget, ih, List.cons_append]
    | some node =>
      rw [names_cons_some hget]
      by_cases hseen : node.identity ∈ seen
      · dsimp only
        rw [if_pos (List.contains_iff_mem.2 hseen), if_pos (List.contains_iff_mem.2 hseen), ih]
        refine congrArg _ (keepFirst_congr (fun name => ?_) back)
        simp only [List.cons_append, List.mem_cons, List.mem_append]
        exact ⟨Or.inr, fun h => h.elim (fun he => he ▸ Or.inr hseen) fun hmem => hmem⟩
      · dsimp only
        rw [if_neg (mt List.contains_iff_mem.1 hseen), if_neg (mt List.contains_iff_mem.1 hseen), ih, List.cons_append]
        refine congrArg _ (congrArg _ (keepFirst_congr (fun name => ?_) back))
        simp only [List.cons_append, List.mem_cons, List.mem_append]
        exact or_left_comm

/-- An id that is in the list already makes no difference further behind. -/
theorem keepFirst_insert_of_mem {front : List ObjectId} {id : ObjectId} (hmem : id ∈ front) (hid : graph.Contains id)
    (seen : List String) (back : List ObjectId) :
    graph.keepFirst seen (front ++ id :: back) = graph.keepFirst seen (front ++ back) := by
  obtain ⟨node, hget⟩ := get?_of_contains hid
  have hseen : node.identity ∈ graph.names front ++ seen :=
    List.mem_append_left _ (mem_names.2 ⟨id, hmem, node, hget, rfl⟩)
  rw [keepFirst_append, keepFirst_append, keepFirst, hget]
  dsimp only
  rw [if_pos (List.contains_iff_mem.2 hseen)]

/-- So it is the same whether ids that are there already are left out at once or as repetitions. -/
theorem keepFirst_appendNew {found : List ObjectId} (hfound : ∀ id ∈ found, graph.Contains id) (seen : List String)
    (ids : List ObjectId) : graph.keepFirst seen (appendNew ids found) = graph.keepFirst seen (ids ++ found) := by
  unfold appendNew
  induction found generalizing ids with
  | nil => rw [List.foldl_nil, List.append_nil]
  | cons id rest ih =>
    obtain ⟨hid, hrest⟩ := List.forall_mem_cons.1 hfound
    rw [List.foldl_cons, ih hrest]
    split_ifs with hmem
    · rw [keepFirst_insert_of_mem (List.contains_iff_mem.1 hmem) hid]
    · rw [List.append_assoc, List.singleton_append]

theorem keepFirst_of_nodup {seen : List String} {ids : List ObjectId} (hnodup : (graph.names ids).Nodup)
    (hnew : ∀ name ∈ graph.names ids, name ∉ seen) : graph.keepFirst seen ids = ids := by
  induction ids generalizing seen with
  | nil => rfl
  | cons id rest ih =>
    rw [keepFirst]
    cases hget : graph.get? id with
    | none =>
      rw [names_cons_none hget] at hnodup hnew
      exact congrArg (id :: ·) (ih hnodup hnew)
    | some node =>
      rw [names_cons_some hget] at hnodup hnew
      obtain ⟨hfirst, hrest⟩ := List.nodup_cons.1 hnodup
      obtain ⟨hnode, hothers⟩ := List.forall_mem_cons.1 hnew
      dsimp only
      rw [if_neg (mt List.contains_iff_mem.1 hnode)]
      refine congrArg (id :: ·) (ih hrest fun name hname hmem => ?_)
      rcases List.mem_cons.1 hmem with rfl | hmem
      · exact hfirst hname
      · exact hothers name hname hmem

/-- What is kept has every identity once, and those only that have not come before. -/
theorem nodup_names_keepFirst (seen : List String) (ids : List ObjectId) :
    (graph.names (graph.keepFirst seen ids)).Nodup ∧ ∀ name ∈ graph.names (graph.keepFirst seen ids), name ∉ seen := by
  induction ids generalizing seen with
  | nil => exact ⟨List.nodup_nil, fun _ h => absurd h List.not_mem_nil⟩
  | cons id rest ih =>
    rw [keepFirst]
    cases hget : graph.get? id with
    | none =>
      dsimp only
      rw [names_cons_none hget]
      exact ih seen
    | some node =>
      dsimp only
      split_ifs with hseen
      · exact ih seen
      · obtain ⟨hnodup, hnew⟩ := ih (node.identity :: seen)
        rw [names_cons_some hget]
        refine ⟨List.nodup_cons.2 ⟨fun hmem => hnew _ hmem List.mem_cons_self, hnodup⟩, ?_⟩
        refine List.forall_mem_cons.2 ⟨fun hmem => hseen (List.contains_iff_mem.2 hmem), fun name hname hmem => ?_⟩
        exact hnew name hname (List.mem_cons_of_mem _ hmem)

/-- No identity is lost. -/
theorem mem_names_keepFirst {seen : List String} {ids : List ObjectId} {name : String} (h : name ∈ graph.names ids) :
    name ∈ seen ∨ name ∈ graph.names (graph.keepFirst seen ids) := by
  induction ids generalizing seen with
  | nil => cases h
  | cons id rest ih =>
    rw [keepFirst]
    cases hget : graph.get? id with
    | none =>
      rw [names_cons_none hget] at h
      dsimp only
      rw [names_cons_none hget]
      exact ih h
    | some node =>
      rw [names_cons_some hget] at h
      dsimp only
      split_ifs with hseen
      · rcases List.mem_cons.1 h with rfl | h
        · exact Or.inl (List.contains_iff_mem.1 hseen)
        · exact ih h
      · rw [names_cons_some hget]
        rcases List.mem_cons.1 h with rfl | h
        · exact Or.inr List.mem_cons_self
        · have hrest : name ∈ node.identity :: seen ∨
              name ∈ graph.names (graph.keepFirst (node.identity :: seen) rest) := ih h
          rcases hrest with hmem | hmem
          · rcases List.mem_cons.1 hmem with rfl | hmem
            · exact Or.inr List.mem_cons_self
            · exact Or.inl hmem
          · exact Or.inr (List.mem_cons_of_mem _ hmem)

/-- In a graph that is in order, the implementations of an abstract type are there and have different identities. -/
theorem names_of_implementations (hvalid : graph.validate = .ok ()) {id : ObjectId} {node : ObjectNode}
    (hget : graph.get? id = some node) {listed : List ObjectId} (hshape : node.shape = .abstract listed) :
    (∀ member ∈ listed, graph.Contains member) ∧ (graph.names listed).Nodup := by
  have hnode := validate_eq_ok_iff.1 hvalid id node hget
  refine ⟨fun member hmember => hnode.children member ?_, hnode.implementations listed hshape⟩
  rw [hshape]
  exact .implementation hmember

/-! ## Linking -/

/-- A node that has these implementations besides those it lists, each identity once. -/
def complete (graph : TypeGraph) (found : List ObjectId) (node : ObjectNode) : ObjectNode :=
  match node.shape with
  | .abstract listed => { node with shape := .abstract (graph.distinct (listed ++ found)) }
  | _ => node

theorem contains_of_mem_scan {identity : String} {id : ObjectId} (h : id ∈ graph.scanImplementations.of identity) :
    graph.Contains id := by
  obtain ⟨node, hget, -⟩ := mem_scan.1 h
  exact contains_of_get? hget

theorem linkNode_eq_complete (graph : TypeGraph) (node : ObjectNode) :
    graph.linkNode graph.scanImplementations node =
      graph.complete (graph.scanImplementations.of node.identity) node := by
  unfold linkNode complete
  cases node.shape with
  | abstract listed =>
    simp only [keepFirst_appendNew fun _ => contains_of_mem_scan, keepFirst_eq_distinct]
  | _ => rfl

theorem get?_linkImplementations (graph : TypeGraph) (id : ObjectId) :
    graph.linkImplementations.get? id =
      (graph.get? id).map fun node => graph.complete (graph.scanImplementations.of node.identity) node := by
  rw [← funext graph.linkNode_eq_complete]
  exact List.getElem?_map ..

/-- In a graph that is in order, a completed list begins with what was listed before, and all of it is there. -/
theorem listed_prefix (hvalid : graph.validate = .ok ()) {id : ObjectId} {node : ObjectNode}
    (hget : graph.get? id = some node) {listed : List ObjectId} (hshape : node.shape = .abstract listed) :
    listed <+: graph.distinct (listed ++ graph.scanImplementations.of node.identity) ∧
      ∀ member ∈ graph.distinct (listed ++ graph.scanImplementations.of node.identity), graph.Contains member := by
  obtain ⟨hcontains, hnodup⟩ := names_of_implementations hvalid hget hshape
  refine ⟨?_, fun member hmember => ?_⟩
  · rw [← keepFirst_eq_distinct, keepFirst_append, keepFirst_of_nodup hnodup fun _ _ => List.not_mem_nil]
    exact List.prefix_append ..
  · rcases List.mem_append.1 (distinct_subset _ _ hmember) with hlisted | hfound
    · exact hcontains member hlisted
    · exact contains_of_mem_scan hfound

end TypeGraph

/-- **What linking produces.** For each identity there is one list of those object types that are the first of their own
identity to declare that they implement an abstract type of it, in the order of the graph. Linking appends it to the
list of every abstract type of this identity, without what then has the identity of something before it, and ids
outside the graph are kept. Nothing else changes. In a graph that is in order the old list is a prefix of the new one,
in which no identity is repeated and none of a declaring type is missing. -/
theorem link_completes (graph : TypeGraph) :
    ∃ found : String → List ObjectId,
      (∀ identity, (found identity).Pairwise (fun a b => a.index < b.index) ∧
        ∀ id, id ∈ found identity ↔ graph.FirstDeclares identity id) ∧
      graph.linkImplementations.size = graph.size ∧
      (∀ id, graph.linkImplementations.get? id =
        (graph.get? id).map fun node => graph.complete (found node.identity) node) ∧
      (graph.validate = .ok () → ∀ id node listed, graph.get? id = some node → node.shape = .abstract listed →
        ∃ linked names, graph.linkImplementations.get? id = some { node with shape := .abstract linked } ∧
          listed <+: linked ∧ graph.identities? linked = some names ∧ names.Nodup ∧
          ∀ member other, graph.get? member = some other → graph.Declares other node.identity →
            other.identity ∈ names) := by
  refine ⟨graph.scanImplementations.of, fun identity => ⟨graph.scan_ascending identity, fun id => TypeGraph.mem_scan⟩,
    List.length_map .., graph.get?_linkImplementations, fun hvalid id node listed hget hshape => ?_⟩
  obtain ⟨hfront, hcontains⟩ := TypeGraph.listed_prefix hvalid hget hshape
  have hcompleted : graph.linkImplementations.get? id = some { node with
      shape := .abstract (graph.distinct (listed ++ graph.scanImplementations.of node.identity)) } := by
    rw [graph.get?_linkImplementations, hget, Option.map_some, TypeGraph.complete, hshape]
  refine ⟨_, _, hcompleted, hfront, TypeGraph.identities?_of_contains hcontains, ?_, fun member other hother hdeclares => ?_⟩
  · rw [← TypeGraph.keepFirst_eq_distinct]
    exact (TypeGraph.nodup_names_keepFirst [] _).1
  · obtain ⟨first, found, hfirst, hfound, hidentity⟩ := TypeGraph.exists_firstDeclares hother hdeclares
    have hname : other.identity ∈ graph.names (listed ++ graph.scanImplementations.of node.identity) :=
      TypeGraph.mem_names.2 ⟨first, List.mem_append_right _ (TypeGraph.mem_scan.2 hfirst), found, hfound, hidentity⟩
    rw [← TypeGraph.keepFirst_eq_distinct]
    exact (TypeGraph.mem_names_keepFirst hname).resolve_left List.not_mem_nil

/-- Shapes of which one is listed, one declares itself twice, and one comes under an identity that was there before. -/
def shapes : TypeGraph := ⟨[
  { identity := "Square", shape := .custom [] [⟨1⟩, ⟨1⟩] },
  { identity := "Shape", shape := .abstract [⟨3⟩] },
  { identity := "Square", shape := .custom [] [⟨1⟩] },
  { identity := "Circle", shape := .custom [] [⟨0⟩, ⟨1⟩] }]⟩

/-- The circle that is listed stays in front, and of the two squares the first one is appended. -/
theorem link_completes_shapes : shapes.validate = .ok () ∧ ∃ linked names,
    shapes.linkImplementations.get? ⟨1⟩ = some { identity := "Shape", shape := .abstract linked } ∧
      [⟨3⟩] <+: linked ∧ shapes.identities? linked = some names ∧ names.Nodup ∧ "Square" ∈ names := by
  have hvalid : shapes.validate = .ok () := rfl
  obtain ⟨-, -, -, -, hlists⟩ := link_completes shapes
  obtain ⟨linked, names, hget, hfront, hnames, hnodup, hdeclared⟩ := hlists hvalid ⟨1⟩ _ [⟨3⟩] rfl rfl
  refine ⟨hvalid, linked, names, hget, hfront, hnames, hnodup, hdeclared ⟨2⟩ _ rfl ?_⟩
  exact ⟨[], [⟨1⟩], rfl, ⟨1⟩, List.mem_singleton_self _, _, rfl, rfl, rfl⟩

/-- Ids outside the graph stay, however often they are listed. -/
example : (TypeGraph.linkImplementations ⟨[
    { identity := "Shape", shape := .abstract [⟨9⟩, ⟨1⟩, ⟨9⟩, ⟨2⟩] },
    { identity := "Circle", shape := .custom [] [⟨0⟩, ⟨7⟩] },
    { identity := "Circle", shape := .custom [] [⟨0⟩] },
    { identity := "Square", shape := .custom [] [⟨0⟩] }]⟩).objects.map (·.shape.parts) =
      [[⟨9⟩, ⟨1⟩, ⟨9⟩, ⟨3⟩], [], [], []] := rfl

end GraphSchema
