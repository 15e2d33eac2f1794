import GraphSchema.Graph.Basic
import GraphSchema.Compile.Options
import GraphSchema.Schema.Definitions
import GraphSchema.Schema.Reference

/-!
The state of one walk over a graph: the table of definitions, the diagnostics so far, and how many nodes the
walk is inside of. The state survives an error.
-/

namespace GraphSchema

/-- a note on a node, or on a property `Owner.name`, whose schema is not what its shape asks for -/
structure Diagnostic where
  identity : String
  message : String
  deriving Repr, DecidableEq

def Diagnostic.text (d : Diagnostic) : String :=
  d.identity ++ ": " ++ d.message

/-- what a walk has done so far -/
structure Walk where
  depth : Nat := 0
  definitions : Definitions := {}
  diagnostics : List Diagnostic := []

/-- what a walk goes over, and how -/
structure Setting where
  graph : TypeGraph
  options : CompileOptions
  /-- the identity of a root that is the document itself; references to it point there -/
  rootIdentity : Option String := none

/-- a step of a walk -/
abbrev WalkM := ExceptT GraphError (StateM Walk)

namespace Walk

/-- Runs a step from a state. -/
def run {α : Type} (step : WalkM α) (walk : Walk) : Except GraphError α × Walk :=
  StateT.run (ExceptT.run step) walk

/-- Records a diagnostic. -/
def note (identity message : String) : WalkM Unit :=
  modify fun walk => { walk with diagnostics := walk.diagnostics ++ [⟨identity, message⟩] }

/-- Records a diagnostic, and stands a marker in for what it is about. -/
def unsupported (identity message : String) : WalkM Schema := do
  note identity message
  return Schema.unsupported message

/-- Runs a step one level deeper. The level is left again also when the step fails. -/
def deeper {α : Type} (step : WalkM α) : WalkM α :=
  ExceptT.mk fun walk =>
    let (result, after) := run step { walk with depth := walk.depth + 1 }
    (result, { after with depth := after.depth - 1 })

/-- the node behind an id -/
def node (setting : Setting) (id : ObjectId) : WalkM ObjectNode :=
  liftExcept (setting.graph.get id)

/-! ## What each step does to a state -/

@[simp] theorem run_pure {α : Type} (a : α) (walk : Walk) : run (pure a) walk = (.ok a, walk) := rfl

@[simp] theorem run_bind {α β : Type} (step : WalkM α) (next : α → WalkM β) (walk : Walk) :
    run (step >>= next) walk =
      match run step walk with
      | (.ok a, after) => run (next a) after
      | (.error e, after) => (.error e, after) := by
  unfold run
  rw [ExceptT.run_bind, StateT.run_bind]
  rcases StateT.run (ExceptT.run step) walk with ⟨_ | _, _⟩ <;> rfl

@[simp] theorem run_throw {α : Type} (e : GraphError) (walk : Walk) :
    run (throw e : WalkM α) walk = (.error e, walk) := rfl

@[simp] theorem run_get (walk : Walk) : run get walk = (.ok walk, walk) := rfl

@[simp] theorem run_set (new walk : Walk) : run (set new) walk = (.ok ⟨⟩, new) := rfl

@[simp] theorem run_modify (f : Walk → Walk) (walk : Walk) :
    run (modify f) walk = (.ok ⟨⟩, f walk) := rfl

@[simp] theorem run_note (identity message : String) (walk : Walk) :
    run (note identity message) walk =
      (.ok ⟨⟩, { walk with diagnostics := walk.diagnostics ++ [⟨identity, message⟩] }) := rfl

@[simp] theorem run_node (setting : Setting) (id : ObjectId) (walk : Walk) :
    run (node setting id) walk = (setting.graph.get id, walk) := by
  unfold node
  cases setting.graph.get id <;> rfl

@[simp] theorem run_deeper {α : Type} (step : WalkM α) (walk : Walk) :
    run (deeper step) walk =
      ((run step { walk with depth := walk.depth + 1 }).1,
        { (run step { walk with depth := walk.depth + 1 }).2 with
          depth := (run step { walk with depth := walk.depth + 1 }).2.depth - 1 }) := rfl

end Walk

end GraphSchema
