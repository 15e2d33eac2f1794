import GraphSchema.Graph.Implementations

/-!
Edits of a graph under construction: nodes are added, properties are pushed to object types, implementations are
linked. The graph survives an edit that fails.
-/

namespace GraphSchema

/-- a step that edits a graph -/
abbrev EditM := ExceptT GraphError (StateM TypeGraph)

/-- Runs a step from a graph. -/
def EditM.run {α : Type} (step : EditM α) (graph : TypeGraph) : Except GraphError α × TypeGraph :=
  StateT.run (ExceptT.run step) graph

inductive Edit where
  | add (node : ObjectNode)
  | push (owner : ObjectId) (property : Property)
  | link

namespace Edit

/-- whether the edit adds a node -/
def isAdd : Edit → Bool
  | add _ => true
  | push .. | link => false

/-- Carries the edit out. To add a node is answered with its id, all else with nothing. -/
def perform : Edit → EditM (Option ObjectId)
  | add node => do
    let graph ← get
    let (after, id) := graph.add node
    set after
    return some id
  | push owner property => do
    let graph ← get
    let node ← liftExcept (graph.get owner)
    match node.shape with
    | .custom properties implements =>
      let shape := .custom (properties ++ [property]) implements
      set (TypeGraph.mk (graph.objects.set owner.index { node with shape }))
      return none
    | shape => throw (.kindMismatch node.identity .custom shape.kind)
  | link => do
    modify TypeGraph.linkImplementations
    return none

/-- what the edit answers, or why it fails -/
def answer (edit : Edit) (graph : TypeGraph) : Except GraphError (Option ObjectId) :=
  (edit.perform.run graph).1

/-- the graph after the edit, whether or not it fails -/
def next (edit : Edit) (graph : TypeGraph) : TypeGraph :=
  (edit.perform.run graph).2

end Edit

namespace TypeGraph

/-- the graph after edits, any of which may fail -/
def edited (graph : TypeGraph) (edits : List Edit) : TypeGraph :=
  edits.foldl (fun graph edit => edit.next graph) graph

/-- the edits with what each of them answers -/
def editLog (graph : TypeGraph) : List Edit → List (Edit × Except GraphError (Option ObjectId))
  | [] => []
  | edit :: rest => (edit, edit.answer graph) :: editLog (edit.next graph) rest

end TypeGraph

/-! ## What each step does to a graph -/

namespace EditM

@[simp] theorem run_pure {α : Type} (a : α) (graph : TypeGraph) : run (pure a) graph = (.ok a, graph) := rfl

@[simp] theorem run_bind {α β : Type} (step : EditM α) (next : α → EditM β) (graph : TypeGraph) :
    run (step >>= next) graph =
      match run step graph with
      | (.ok a, after) => run (next a) after
      | (.error e, after) => (.error e, after) := by
  unfold run
  rw [ExceptT.run_bind, StateT.run_bind]
  rcases StateT.run (ExceptT.run step) graph with ⟨_ | _, _⟩ <;> rfl

@[simp] theorem run_throw {α : Type} (e : GraphError) (graph : TypeGraph) :
    run (throw e : EditM α) graph = (.error e, graph) := rfl

@[simp] theorem run_get (graph : TypeGraph) : run get graph = (.ok graph, graph) := rfl

@[simp] theorem run_set (new graph : TypeGraph) : run (set new) graph = (.ok ⟨⟩, new) := rfl

@[simp] theorem run_liftExcept {α : Type} (outcome : Except GraphError α) (graph : TypeGraph) :
    run (liftExcept outcome) graph = (outcome, graph) := by
  cases outcome <;> rfl

end EditM

end GraphSchema
