import Mathlib.Data.List.Basic
import Mathlib.Tactic.Common
import GraphSchema.Command.Run
import GraphSchema.Files.Machine

/-!
Steps of a command that only ask the machine.

- `Keeps`: a step that leaves a view of every state as it is; `Still`: one that leaves all of it. Searching for files,
  resolving words and loading documents are still (`still_paths`, `still_resolve`, `still_load`), on every machine
  whose questions change nothing.
- `answer`: what a step says in a state. The answers of still steps are put together like results (`answer_bind`,
  `answer_mapM`).
-/

namespace GraphSchema

/-- a machine that is not changed by questions -/
class Host.Observable (σ : Type) [Host (StateM σ)] : Prop where
  read (path : String) (state : σ) : (StateT.run (Host.read path : StateM σ _) state).2 = state
  list (path : String) (state : σ) : (StateT.run (Host.list path : StateM σ _) state).2 = state
  isDirectory (path : String) (state : σ) : (StateT.run (Host.isDirectory path : StateM σ _) state).2 = state
  isPresent (path : String) (state : σ) : (StateT.run (Host.isPresent path : StateM σ _) state).2 = state

instance Machine.observable : Host.Observable Machine where
  read _ _ := rfl
  list _ _ := rfl
  isDirectory _ _ := rfl
  isPresent _ _ := rfl

namespace Run

variable {σ α β : Type}

/-- Runs a step from a state. -/
def perform (step : Run (StateM σ) α) (state : σ) : Except Chain α × σ :=
  StateT.run (ExceptT.run step) state

/-- what a step says in a state -/
def answer (step : Run (StateM σ) α) (state : σ) : Except Chain α :=
  (perform step state).1

@[simp] theorem perform_pure (a : α) (state : σ) : perform (pure a) state = (.ok a, state) := rfl

@[simp] theorem perform_throw (chain : Chain) (state : σ) :
    perform (throw chain : Run (StateM σ) α) state = (.error chain, state) := rfl

@[simp] theorem perform_bind (step : Run (StateM σ) α) (next : α → Run (StateM σ) β) (state : σ) :
    perform (step >>= next) state =
      match perform step state with
      | (.ok a, after) => perform (next a) after
      | (.error chain, after) => (.error chain, after) := by
  unfold perform
  rw [ExceptT.run_bind, StateT.run_bind]
  rcases StateT.run (ExceptT.run step) state with ⟨_ | _, _⟩ <;> rfl

@[simp] theorem perform_lift (step : StateM σ α) (state : σ) :
    perform (ExceptT.lift step) state = (.ok (StateT.run step state).1, (StateT.run step state).2) := rfl

@[simp] theorem perform_liftExcept (result : Except Chain α) (state : σ) :
    perform (liftExcept result) state = (result, state) := by
  cases result <;> rfl

theorem perform_bind_liftExcept (result : Except Chain α) (next : α → Run (StateM σ) β) (state : σ) :
    perform (liftExcept result >>= next) state =
      match result with
      | .ok a => perform (next a) state
      | .error chain => (.error chain, state) := by
  cases result <;> rfl

theorem perform_bind_eq_ok {step : Run (StateM σ) α} {next : α → Run (StateM σ) β} {b : β} {state after : σ} :
    perform (step >>= next) state = (.ok b, after) ↔
      ∃ a mid, perform step state = (.ok a, mid) ∧ perform (next a) mid = (.ok b, after) := by
  rw [perform_bind]
  rcases perform step state with ⟨_ | a, mid⟩
  · simp
  · simp

/-! ## Steps that leave a view of the state as it is -/

variable {τ : Type} {view : σ → τ}

/-- whether a step leaves what is seen of every state as it is -/
def Keeps (view : σ → τ) (step : Run (StateM σ) α) : Prop := ∀ state, view (perform step state).2 = view state

/-- whether a step leaves every state as it is -/
abbrev Still (step : Run (StateM σ) α) : Prop := Keeps id step

theorem Still.perform_eq {step : Run (StateM σ) α} (h : Still step) (state : σ) :
    perform step state = (answer step state, state) :=
  Prod.ext rfl (h state)

theorem Still.keeps {step : Run (StateM σ) α} (h : Still step) : Keeps view step :=
  fun state => congrArg view (h state)

theorem Keeps.view_eq {step : Run (StateM σ) α} (h : Keeps view step) {state after : σ} {result : Except Chain α}
    (hperform : perform step state = (result, after)) : view after = view state :=
  (congrArg (view ·.2) hperform).symm.trans (h state)

theorem keeps_pure (a : α) : Keeps view (pure a : Run (StateM σ) α) := fun _ => rfl

theorem keeps_throw (chain : Chain) : Keeps view (throw chain : Run (StateM σ) α) := fun _ => rfl

theorem keeps_withContext {ε : Type} (context : String) (describe : ε → Chain) (result : Except ε α) :
    Keeps view (withContext context describe result : Run (StateM σ) α) := by
  intro state
  rw [withContext, perform_liftExcept]

theorem Keeps.bind {step : Run (StateM σ) α} {next : α → Run (StateM σ) β} (h : Keeps view step)
    (hnext : ∀ a, Keeps view (next a)) : Keeps view (step >>= next) := by
  intro state
  have hstep := h state
  rw [perform_bind]
  revert hstep
  rcases perform step state with ⟨_ | a, after⟩ <;> intro hstep
  · exact hstep
  · exact (hnext a after).trans hstep

theorem Keeps.ite {condition : Prop} [Decidable condition] {yes no : Run (StateM σ) α} (hyes : Keeps view yes)
    (hno : Keeps view no) : Keeps view (if condition then yes else no) := by
  split_ifs
  · exact hyes
  · exact hno

theorem Keeps.mapM {f : α → Run (StateM σ) β} (h : ∀ a, Keeps view (f a)) (items : List α) :
    Keeps view (items.mapM f) := by
  induction items with
  | nil => exact keeps_pure []
  | cons item items ih =>
    rw [List.mapM_cons]
    exact (h item).bind fun _ => ih.bind fun _ => keeps_pure _

theorem still_inOrder {step : Search.Candidate → Run (StateM σ) (List String)} (h : ∀ candidate, Still (step candidate))
    (candidates : List Search.Candidate) : Still (Search.inOrder step candidates) := by
  induction candidates with
  | nil => exact keeps_pure []
  | cons candidate rest ih =>
    rw [Search.inOrder]
    exact (h candidate).bind fun _ => ih.bind fun _ => keeps_pure _

/-! ## Answers -/

theorem answer_bind {step : Run (StateM σ) α} (h : Still step) (next : α → Run (StateM σ) β) (state : σ) :
    answer (step >>= next) state = answer step state >>= fun a => answer (next a) state := by
  rw [answer, perform_bind, h.perform_eq]
  cases answer step state with
  | ok a => rfl
  | error chain => rfl

theorem answer_mapM {f : α → Run (StateM σ) β} (h : ∀ a, Still (f a)) (items : List α) (state : σ) :
    answer (items.mapM f) state = items.mapM fun item => answer (f item) state := by
  induction items with
  | nil => rfl
  | cons item items ih =>
    rw [List.mapM_cons, List.mapM_cons, answer_bind (h item)]
    congr 1
    funext b
    rw [answer_bind (Keeps.mapM h items), ih]
    rfl

@[simp] theorem answer_withContext {ε : Type} (context : String) (describe : ε → Chain) (result : Except ε α)
    (state : σ) : answer (withContext context describe result : Run (StateM σ) α) state =
      result.mapError fun error => context :: describe error :=
  congrArg Prod.fst (perform_liftExcept _ state)

/-! ## Searching -/

variable [Host (StateM σ)] [Host.Observable σ]

theorem still_read (path : String) : Still (Host.read path : Run (StateM σ) _) := Host.Observable.read path

theorem still_list (path : String) : Still (Host.list path : Run (StateM σ) _) := Host.Observable.list path

theorem still_isDirectory (path : String) : Still (Host.isDirectory path : Run (StateM σ) _) :=
  Host.Observable.isDirectory path

theorem still_isPresent (path : String) : Still (Host.isPresent path : Run (StateM σ) _) :=
  Host.Observable.isPresent path

theorem still_expand (path : String) (components : List (List Pattern.Token)) :
    Still (Search.expand path components : Run (StateM σ) _) := by
  induction components generalizing path with
  | nil => exact keeps_pure []
  | cons tokens rest ih =>
    have henter (next : String) : Still (if rest.isEmpty then return [(next, none)] else Search.expand next rest :
        Run (StateM σ) (List Search.Candidate)) := (keeps_pure _).ite (ih next)
    rw [Search.expand]
    cases Pattern.literal? tokens with
    | some name =>
      have hfound (next : String) (found : Bool) : Still (if found then (if rest.isEmpty then return [(next, none)]
          else Search.expand next rest) else return [] : Run (StateM σ) (List Search.Candidate)) :=
        (henter next).ite (keeps_pure [])
      exact ((still_isDirectory path).bind (hfound _)).ite ((still_isPresent _).bind (hfound _))
    | none =>
      refine (still_isDirectory path).bind fun found => ?_
      refine (keeps_pure []).ite ?_
      refine (still_list path).bind fun listed => ?_
      cases listed with
      | error error => exact keeps_throw _
      | ok names =>
        have hspecial (name : String) : Still (if tokens.head? = some (.char '.') && Pattern.matchesName tokens name
            then (if rest.isEmpty then return [(FilePath.join path name, none)]
              else Search.expand (FilePath.join path name) rest) else return [] :
            Run (StateM σ) (List Search.Candidate)) := (henter _).ite (keeps_pure [])
        exact (hspecial "..").bind fun _ => (hspecial ".").bind fun _ => keeps_pure _

/-- A path that is wanted only as a directory is kept or not. -/
theorem still_kept (directoriesOnly : Bool) (path : String) :
    Still (do if directoriesOnly && !(← Host.isDirectory path) then return [] else return [path] :
      Run (StateM σ) (List String)) := by
  exact (still_isDirectory path).bind fun _ => (keeps_pure []).ite (keeps_pure [path])

theorem still_matchPath {step : Search.Candidate → Run (StateM σ) (List String)}
    (h : ∀ candidate, Still (step candidate)) (directoriesOnly : Bool) (path : String)
    (components : List (List Pattern.Token)) : Still (Search.matchPath directoriesOnly step path components) := by
  cases components with
  | nil => exact keeps_pure []
  | cons tokens rest =>
    rw [Search.matchPath]
    refine Keeps.ite ?_ (keeps_pure [])
    refine Keeps.ite ?_ ?_
    · exact still_kept directoriesOnly path
    · exact (still_expand path rest).bind fun candidates => still_inOrder h candidates

theorem still_follow {step : Search.Candidate → Run (StateM σ) (List String)}
    (h : ∀ candidate, Still (step candidate)) (directoriesOnly : Bool) (candidate : Search.Candidate) :
    Still (Search.follow directoriesOnly step candidate) := by
  obtain ⟨path, components⟩ := candidate
  cases components with
  | none => exact still_kept directoriesOnly path
  | some components =>
    cases components with
    | nil => exact keeps_pure []
    | cons tokens rest =>
      rw [Search.follow]
      refine Keeps.ite ?_ ?_
      · refine (still_isDirectory path).bind fun found => Keeps.ite ?_ (still_matchPath h directoriesOnly path _)
        refine (still_expand path _).bind fun inside => ?_
        have hhere (here : List String) : Still (do return here ++ (← Search.inOrder step inside)) :=
          (still_inOrder h inside).bind fun _ => keeps_pure _
        exact Keeps.ite ((keeps_pure [path]).bind hhere) ((still_matchPath h directoriesOnly path _).bind hhere)
      · exact still_matchPath h directoriesOnly path _

theorem still_visit (directoriesOnly : Bool) (levels : Nat) (candidate : Search.Candidate) :
    Still (Search.visit directoriesOnly levels candidate : Run (StateM σ) _) := by
  induction levels generalizing candidate with
  | zero => exact keeps_pure []
  | succ levels ih => exact still_follow ih directoriesOnly candidate

theorem still_paths (pattern : String) : Still (Search.paths pattern : Run (StateM σ) _) := by
  unfold Search.paths
  dsimp only
  split
  · exact keeps_throw _
  · exact (still_expand _ _).bind fun candidates => still_inOrder (still_visit _ _) candidates

/-! ## Loading -/

theorem still_resolve (word : String) : Still (resolve word : Run (StateM σ) _) := by
  unfold resolve
  refine Keeps.ite ?_ (keeps_pure [word])
  refine (still_paths word).bind fun paths => ?_
  exact (keeps_throw _).ite (keeps_pure paths)

theorem still_loadDocument (scan : Bool) (source : String) : Still (loadDocument scan source : Run (StateM σ) _) := by
  refine (still_read source).bind fun content => ?_
  refine (keeps_withContext _ _ content).bind fun text => ?_
  exact (keeps_withContext _ _ _).bind fun document => keeps_pure _

theorem still_load (inputs : InputSettings) : Still (inputs.load : Run (StateM σ) _) := by
  refine (Keeps.mapM still_resolve inputs.input).bind fun sources => ?_
  exact Keeps.mapM (still_loadDocument inputs.scanImplementations) sources.flatten

end Run

end GraphSchema
