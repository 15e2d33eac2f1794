import Mathlib.Data.List.Forall2
import GraphSchema.Proofs.Acceptance
import GraphSchema.Proofs.Asking
import GraphSchema.Proofs.Runs

/-!
Compiling a batch of documents: everything is read and compiled before anything is written.

- `Fault`: what can be wrong with a batch before it is written.
- `prepare_eq_ok`, `exists_prepare_iff`: a batch without fault gives one outcome for each source, in order, and only such
  a batch gives outcomes.
- `batch_all_or_nothing`: a batch with a fault ends with code 1 and leaves files and results as they were; one without
  goes through.
-/

namespace GraphSchema

open Reading (bind_eq_ok mapError_eq_ok)

/-! ## Lists of results -/

section

variable {ε α β : Type} {f : α → Except ε β}

theorem mapM_eq_ok {items : List α} {results : List β} :
    items.mapM f = .ok results ↔ List.Forall₂ (fun a b => f a = .ok b) items results := by
  induction items generalizing results with
  | nil =>
    rw [List.forall₂_nil_left_iff, List.mapM_nil]
    exact ⟨fun h => (Except.ok.inj h).symm, fun h => h ▸ rfl⟩
  | cons item items ih =>
    rw [List.mapM_cons, List.forall₂_cons_left_iff, bind_eq_ok]
    refine exists_congr fun b => ?_
    constructor
    · rintro ⟨hitem, h⟩
      obtain ⟨others, hothers, hresults⟩ := bind_eq_ok.1 h
      exact ⟨others, hitem, ih.1 hothers, (Except.ok.inj hresults).symm⟩
    · rintro ⟨others, hitem, hothers, rfl⟩
      exact ⟨hitem, bind_eq_ok.2 ⟨others, ih.2 hothers, rfl⟩⟩

end

section

variable {α β γ : Type} {R : α → β → Prop} {S : β → γ → Prop}

theorem forall₂_comp_iff {as : List α} {cs : List γ} :
    List.Forall₂ (fun a c => ∃ b, R a b ∧ S b c) as cs ↔ ∃ bs, List.Forall₂ R as bs ∧ List.Forall₂ S bs cs := by
  constructor
  · intro h
    induction h with
    | nil => exact ⟨[], .nil, .nil⟩
    | cons hac _ ih =>
      obtain ⟨b, hr, hs⟩ := hac
      obtain ⟨bs, hrs, hss⟩ := ih
      exact ⟨b :: bs, .cons hr hrs, .cons hs hss⟩
  · rintro ⟨bs, hr, hs⟩
    induction hr generalizing cs with
    | nil =>
      cases hs
      exact .nil
    | cons hab _ ih =>
      cases hs with
      | cons hbc hs => exact .cons ⟨_, hab, hbc⟩ (ih hs)

theorem exists_forall₂ {as : List α} (h : ∀ a ∈ as, ∃ b, R a b) : ∃ bs, List.Forall₂ R as bs := by
  induction as with
  | nil => exact ⟨[], .nil⟩
  | cons a as ih =>
    obtain ⟨b, hb⟩ := h a List.mem_cons_self
    obtain ⟨bs, hbs⟩ := ih fun other hother => h other (List.mem_cons_of_mem a hother)
    exact ⟨b :: bs, .cons hb hbs⟩

/-- Every item on the left has a partner on the right. -/
theorem exists_partner {as : List α} {bs : List β} (h : List.Forall₂ R as bs) {a : α} (ha : a ∈ as) :
    ∃ b ∈ bs, R a b := by
  induction h with
  | nil => cases ha
  | cons hab _ ih =>
    rcases List.mem_cons.1 ha with rfl | ha
    · exact ⟨_, List.mem_cons_self, hab⟩
    · obtain ⟨b, hb, hr⟩ := ih ha
      exact ⟨b, List.mem_cons_of_mem _ hb, hr⟩

end

/-! ## Machines -/

/-- a machine with a tree of files and a stream of results, in which questions and messages change neither -/
class Host.Lawful (σ : Type) [Host (StateM σ)] extends Host.Observable σ where
  /-- the files and directories -/
  Tree : Type
  tree : σ → Tree
  /-- the stream of results -/
  printed : σ → String
  tree_report (text : String) (state : σ) : tree (StateT.run (Host.report text : StateM σ _) state).2 = tree state
  printed_report (text : String) (state : σ) :
    printed (StateT.run (Host.report text : StateM σ _) state).2 = printed state
  tree_print (text : String) (state : σ) : tree (StateT.run (Host.print text : StateM σ _) state).2 = tree state
  printed_print (text : String) (state : σ) :
    printed (StateT.run (Host.print text : StateM σ _) state).2 = printed state ++ text

instance Machine.lawful : Host.Lawful Machine where
  Tree := List Location × List (Location × String) × Location
  tree machine := (machine.directories, machine.files, machine.current)
  printed := Machine.printed
  tree_report _ _ := rfl
  printed_report _ _ := rfl
  tree_print _ _ := rfl
  printed_print _ _ := rfl

/-! ## Batches -/

namespace Batch

open Run

variable {σ : Type} [Host (StateM σ)]

/-- the paths that a word stands for; none for a pattern that is bad, matches nothing, or whose search fails -/
def named (state : σ) (word : String) : List String :=
  if isPattern word then (answer (Search.paths word) state).toOption.getD [] else [word]

/-- the paths of all inputs, in order -/
def sources (state : σ) (inputs : InputSettings) : List String :=
  inputs.input.flatMap (named state)

/-- what is read at a path -/
def content (state : σ) (path : String) : Except FileError String :=
  (StateT.run (Host.read path : StateM σ _) state).1

/-- whether a document is what the file at a path holds -/
def Loads (state : σ) (source : String) (document : GraphDocument) : Prop :=
  ∃ text, content state source = .ok text ∧ GraphDocument.ofText text = .ok document

/-- the document with its implementations completed, if that is asked for -/
def prepared (scan : Bool) (document : GraphDocument) : GraphDocument :=
  if scan then document.link else document

/-- what a document compiles to under the settings of a command -/
def compiled (command : CompileCommand) (document : GraphDocument) : Except GraphError CompiledSchema :=
  let document := prepared command.inputs.scanImplementations document
  build document.objects { document.request with id := command.options.id <|> document.request.id }
    (command.options.resolve document)

/-- what can be wrong with a batch before it is written -/
inductive Fault (command : CompileCommand) (state : σ) : Prop
  /-- a pattern is bad -/
  | malformed {word : String} {error : PatternError} (hgiven : word ∈ command.inputs.input)
      (hpattern : isPattern word = true) (hbad : Pattern.parse word = .error error)
  /-- a pattern matches nothing -/
  | unmatched {word : String} (hgiven : word ∈ command.inputs.input) (hpattern : isPattern word = true)
      (hnothing : named state word = [])
  /-- an input cannot be read -/
  | unreadable {source : String} {error : FileError} (hgiven : source ∈ sources state command.inputs)
      (hfailed : content state source = .error error)
  /-- an input holds no document -/
  | unparsable {source text : String} {failure : Reading.Failure} (hgiven : source ∈ sources state command.inputs)
      (hholds : content state source = .ok text) (hfailed : GraphDocument.ofText text = .error failure)
  /-- a document does not compile -/
  | uncompilable {source : String} {document : GraphDocument} {error : GraphError}
      (hgiven : source ∈ sources state command.inputs) (hloads : Loads state source document)
      (hfailed : compiled command document = .error error)
  /-- an identifier is given to several documents -/
  | ambiguous (hidentified : command.options.id.isSome = true) (hmany : 1 < (sources state command.inputs).length)

/-- whether an outcome is what comes of the document at a path -/
def Compiles (command : CompileCommand) (state : σ) (source : String) (outcome : Outcome) : Prop :=
  outcome.source = source ∧
    ∃ document, Loads state source document ∧ compiled command document = .ok outcome.compiled

variable {command : CompileCommand} {state : σ}

theorem Loads.unique {source : String} {document other : GraphDocument} (h : Loads state source document)
    (hother : Loads state source other) : document = other := by
  obtain ⟨text, htext, hdocument⟩ := h
  obtain ⟨_, hsame, hagain⟩ := hother
  obtain rfl := Except.ok.inj (htext.symm.trans hsame)
  exact Except.ok.inj (hdocument.symm.trans hagain)

theorem named_of_malformed {word : String} {error : PatternError} (hpattern : isPattern word = true)
    (hbad : Pattern.parse word = .error error) : named state word = [] := by
  have hfailed : answer (Search.paths word) state = .error ["bad glob pattern: " ++ word, error.text] := by
    unfold Search.paths
    rw [hbad]
    rfl
  rw [named, if_pos hpattern, hfailed]
  rfl

theorem compileLoaded_eq_ok {source : String} {document : GraphDocument} {outcome : Outcome} :
    compileLoaded command.options ⟨source, prepared command.inputs.scanImplementations document⟩ = .ok outcome ↔
      outcome.source = source ∧ compiled command document = .ok outcome.compiled := by
  unfold compileLoaded compiled
  dsimp only
  split
  · rename_i result hbuild
    rw [hbuild, Except.ok.injEq, Except.ok.injEq]
    constructor
    · rintro rfl
      exact ⟨rfl, rfl⟩
    · rintro ⟨rfl, rfl⟩
      rfl
  · rename_i error hbuild
    rw [hbuild]
    simp only [reduceCtorEq, and_false]

/-- An outcome comes of what is loaded. -/
theorem compiles_eq : Compiles command state = fun source outcome =>
    ∃ loaded, (∃ document, Loads state source document ∧
      loaded = ⟨source, prepared command.inputs.scanImplementations document⟩) ∧
        compileLoaded command.options loaded = .ok outcome := by
  funext source outcome
  refine propext ⟨?_, ?_⟩
  · rintro ⟨hsource, document, hloads, hcompiled⟩
    exact ⟨_, ⟨document, hloads, rfl⟩, compileLoaded_eq_ok.2 ⟨hsource, hcompiled⟩⟩
  · rintro ⟨_, ⟨document, hloads, rfl⟩, hcompiled⟩
    obtain ⟨hsource, hcompiled⟩ := compileLoaded_eq_ok.1 hcompiled
    exact ⟨hsource, document, hloads, hcompiled⟩

/-- A batch is without fault if and only if all words stand for something, an identifier is not given to several
documents, and something comes of each source. -/
theorem not_fault_iff : ¬ Fault command state ↔
    (∀ word ∈ command.inputs.input, named state word ≠ []) ∧
      ¬ (command.options.id.isSome = true ∧ 1 < (sources state command.inputs).length) ∧
        ∀ source ∈ sources state command.inputs, ∃ outcome, Compiles command state source outcome := by
  constructor
  · intro h
    refine ⟨fun word hword hnothing => ?_, fun hmany => h (.ambiguous hmany.1 hmany.2), fun source hsource => ?_⟩
    · -- a word that is no pattern stands for itself
      by_cases hpattern : isPattern word = true
      · exact h (.unmatched hword hpattern hnothing)
      · rw [named, if_neg hpattern] at hnothing
        exact List.cons_ne_nil word [] hnothing
    · cases htext : content state source with
      | error error => exact absurd (.unreadable hsource htext) h
      | ok text =>
        cases hdocument : GraphDocument.ofText text with
        | error failure => exact absurd (.unparsable hsource htext hdocument) h
        | ok document =>
          have hloads : Loads state source document := ⟨text, htext, hdocument⟩
          cases hcompiled : compiled command document with
          | error error => exact absurd (.uncompilable hsource hloads hcompiled) h
          | ok result => exact ⟨⟨source, result⟩, rfl, document, hloads, hcompiled⟩
  · rintro ⟨hfound, hsingle, hcompiles⟩ hfault
    cases hfault with
    | malformed hgiven hpattern hbad => exact hfound _ hgiven (named_of_malformed hpattern hbad)
    | unmatched hgiven _ hnothing => exact hfound _ hgiven hnothing
    | unreadable hgiven hfailed =>
      obtain ⟨_, _, _, ⟨text, htext, _⟩, _⟩ := hcompiles _ hgiven
      cases hfailed.symm.trans htext
    | unparsable hgiven hholds hfailed =>
      obtain ⟨_, _, _, ⟨text, htext, hdocument⟩, _⟩ := hcompiles _ hgiven
      obtain rfl := Except.ok.inj (hholds.symm.trans htext)
      cases hfailed.symm.trans hdocument
    | uncompilable hgiven hloaded hfailed =>
      obtain ⟨_, _, _, hloads, hcompiled⟩ := hcompiles _ hgiven
      obtain rfl := hloaded.unique hloads
      cases hfailed.symm.trans hcompiled
    | ambiguous hidentified hmany => exact hsingle ⟨hidentified, hmany⟩

/-! ## Resolving and loading -/

variable [Host.Observable σ]

theorem answer_resolve {word : String} {paths : List String} :
    answer (resolve word) state = .ok paths ↔ named state word = paths ∧ paths ≠ [] := by
  unfold resolve named
  by_cases hpattern : isPattern word = true
  · rw [if_pos hpattern, if_pos hpattern, answer_bind (still_paths word), bind_eq_ok]
    cases answer (Search.paths word) state with
    | error chain =>
      simp only [reduceCtorEq, false_and, exists_false, Except.toOption, Option.getD_none, false_iff, not_and, not_not]
      exact Eq.symm
    | ok found =>
      simp only [Except.ok.injEq, exists_eq_left', Except.toOption, Option.getD_some]
      cases found with
      | nil =>
        refine ⟨fun h => ?_, fun h => absurd h.1.symm h.2⟩
        cases h
      | cons first rest =>
        refine ⟨fun h => ?_, fun h => congrArg Except.ok h.1⟩
        obtain rfl := Except.ok.inj h
        exact ⟨rfl, List.cons_ne_nil first rest⟩
  · rw [if_neg hpattern, if_neg hpattern]
    refine ⟨fun h => ?_, fun h => congrArg Except.ok h.1⟩
    obtain rfl := Except.ok.inj h
    exact ⟨rfl, List.cons_ne_nil word []⟩

theorem mapM_resolve {words : List String} {groups : List (List String)} :
    words.mapM (fun word => answer (resolve word) state) = .ok groups ↔
      groups = words.map (named state) ∧ ∀ word ∈ words, named state word ≠ [] := by
  rw [mapM_eq_ok]
  simp only [answer_resolve]
  constructor
  · intro h
    induction h with
    | nil => exact ⟨rfl, fun _ hword => absurd hword List.not_mem_nil⟩
    | cons hfirst _ ih =>
      obtain ⟨rfl, hfound⟩ := hfirst
      exact ⟨by rw [ih.1, List.map_cons], List.forall_mem_cons.2 ⟨hfound, ih.2⟩⟩
  · rintro ⟨rfl, hfound⟩
    rw [List.forall₂_map_right_iff, List.forall₂_same]
    exact fun word hword => ⟨rfl, hfound word hword⟩

theorem answer_loadDocument {scan : Bool} {source : String} {loaded : Loaded} :
    answer (loadDocument scan source) state = .ok loaded ↔
      ∃ document, Loads state source document ∧ loaded = { source, document := prepared scan document } := by
  have hread : answer (Host.read source : Run (StateM σ) _) state = .ok (content state source) := rfl
  unfold loadDocument Loads
  simp only [answer_bind (still_read source), answer_bind (keeps_withContext _ _ _), hread, answer_withContext,
    bind_eq_ok, mapError_eq_ok, Except.ok.injEq, exists_eq_left']
  constructor
  · rintro ⟨text, htext, document, hdocument, hloaded⟩
    exact ⟨document, ⟨text, htext, hdocument⟩, (Except.ok.inj hloaded).symm⟩
  · rintro ⟨document, ⟨text, htext, hdocument⟩, rfl⟩
    exact ⟨text, htext, document, hdocument, rfl⟩

/-- All documents are loaded if and only if every word stands for some paths and every path holds a document. -/
theorem answer_load {inputs : InputSettings} {documents : List Loaded} :
    answer inputs.load state = .ok documents ↔
      (∀ word ∈ inputs.input, named state word ≠ []) ∧
        List.Forall₂ (fun source loaded => ∃ document, Loads state source document ∧
          loaded = { source, document := prepared inputs.scanImplementations document })
        (sources state inputs) documents := by
  unfold InputSettings.load
  rw [answer_bind (Keeps.mapM still_resolve inputs.input), answer_mapM still_resolve, bind_eq_ok]
  simp only [mapM_resolve]
  simp only [answer_mapM (still_loadDocument _), mapM_eq_ok, answer_loadDocument]
  constructor
  · rintro ⟨groups, ⟨rfl, hfound⟩, hloads⟩
    exact ⟨hfound, hloads⟩
  · rintro ⟨hfound, hloads⟩
    exact ⟨_, ⟨rfl, hfound⟩, hloads⟩

/-! ## What is computed before anything is written -/

/-- the outcomes of a batch -/
def prepare (command : CompileCommand) (state : σ) : Except Chain (List Outcome) := do
  let documents ← answer command.inputs.load state
  if command.options.id.isSome && 1 < documents.length then
    throw ["--id applies to a single input, got " ++ toString documents.length]
  documents.mapM (compileLoaded command.options)

/-- what is done with the outcomes of a batch -/
def conclude (command : CompileCommand) (outcomes : List Outcome) : Run (StateM σ) Unit := do
  outcomes.forM (deliver command.out (1 < outcomes.length))
  let flagged := outcomes.countP Outcome.isFlagged
  if command.denyDiagnostics && 0 < flagged then
    throw [toString flagged ++ " schema(s) carry diagnostics"]

theorem perform_run (hactive : command.noOp = false) (state : σ) :
    perform command.run state =
      match prepare command state with
      | .ok outcomes => perform (conclude command outcomes) state
      | .error chain => (.error chain, state) := by
  rw [CompileCommand.run, hactive, prepare]
  simp only [Bool.false_eq_true, if_false]
  rw [perform_bind, (still_load _).perform_eq]
  cases answer command.inputs.load state with
  | error chain => rfl
  | ok documents =>
    change perform (if _ then _ else _) state = match (if _ then _ else _ : Except Chain (List Outcome)) with
      | .ok outcomes => perform (conclude command outcomes) state
      | .error chain => (.error chain, state)
    split_ifs
    · rfl
    · rw [perform_bind_liftExcept]
      cases List.mapM (compileLoaded command.options) documents with
      | ok outcomes => rfl
      | error chain => rfl

/-- A batch gives outcomes if and only if all words stand for something, an identifier is not given to several
documents, and the outcomes are those of the sources. -/
theorem prepare_eq_ok {outcomes : List Outcome} :
    prepare command state = .ok outcomes ↔
      (∀ word ∈ command.inputs.input, named state word ≠ []) ∧
        ¬ (command.options.id.isSome = true ∧ 1 < (sources state command.inputs).length) ∧
          List.Forall₂ (Compiles command state) (sources state command.inputs) outcomes := by
  rw [compiles_eq, forall₂_comp_iff, prepare, bind_eq_ok]
  constructor
  · rintro ⟨documents, hload, h⟩
    obtain ⟨hfound, hloads⟩ := answer_load.1 hload
    have hsingle : ¬ (command.options.id.isSome && decide (1 < documents.length)) = true := by
      intro hmany
      rw [if_pos hmany] at h
      cases h
    rw [if_neg hsingle, mapM_eq_ok] at h
    refine ⟨hfound, ?_, documents, hloads, h⟩
    rwa [Bool.and_eq_true, decide_eq_true_iff, ← hloads.length_eq] at hsingle
  · rintro ⟨hfound, hsingle, documents, hloads, h⟩
    refine ⟨documents, answer_load.2 ⟨hfound, hloads⟩, ?_⟩
    rw [if_neg]
    · exact mapM_eq_ok.2 h
    · rwa [Bool.and_eq_true, decide_eq_true_iff, ← hloads.length_eq]

/-- A batch gives outcomes if and only if it has no fault. -/
theorem exists_prepare_iff : (∃ outcomes, prepare command state = .ok outcomes) ↔ ¬ Fault command state := by
  simp only [prepare_eq_ok, not_fault_iff, exists_and_left]
  refine and_congr_right fun _ => and_congr_right fun _ => ?_
  constructor
  · rintro ⟨outcomes, h⟩ source hsource
    obtain ⟨outcome, _, hcompiles⟩ := exists_partner h hsource
    exact ⟨outcome, hcompiles⟩
  · exact exists_forall₂

/-! ## Writing -/

omit [Host.Observable σ]

/-- the outcomes are all written, one after the other -/
inductive Written (out : Option String) (many : Bool) : List Outcome → σ → σ → Prop
  | nil (state : σ) : Written out many [] state state
  | cons {outcome : Outcome} {outcomes : List Outcome} {state next after : σ}
      (hfirst : perform (deliver out many outcome) state = (.ok (), next))
        (hrest : Written out many outcomes next after) :
      Written out many (outcome :: outcomes) state after

theorem perform_forM_iff {out : Option String} {many : Bool} {outcomes : List Outcome} {after : σ} :
    perform (outcomes.forM (deliver out many)) state = (.ok (), after) ↔ Written out many outcomes state after := by
  induction outcomes generalizing state with
  | nil =>
    constructor
    · intro h
      obtain rfl := (Prod.mk.inj h).2
      exact .nil state
    · rintro ⟨⟩
      rfl
  | cons outcome outcomes ih =>
    change perform (deliver out many outcome >>= fun _ => outcomes.forM (deliver out many)) state = _ ↔ _
    rw [perform_bind_eq_ok]
    constructor
    · rintro ⟨_, next, hfirst, hrest⟩
      exact .cons hfirst (ih.1 hrest)
    · rintro ⟨⟩
      exact ⟨(), _, ‹_›, ih.2 ‹_›⟩

/-- Once all outcomes are written, only diagnostics can make a batch fail. -/
theorem perform_conclude {outcomes : List Outcome} {after : σ}
    (h : Written command.out (1 < outcomes.length) outcomes state after) :
    perform (conclude command outcomes) state =
      if command.denyDiagnostics && 0 < outcomes.countP Outcome.isFlagged then
        (.error [toString (outcomes.countP Outcome.isFlagged) ++ " schema(s) carry diagnostics"], after)
      else (.ok (), after) := by
  unfold conclude
  rw [perform_bind, perform_forM_iff.2 h]
  dsimp only
  split_ifs <;> rfl

/-- Without a place for files, an outcome is printed. -/
theorem perform_deliver_none [Host.Lawful σ] (many : Bool) (outcome : Outcome) (state : σ) :
    ∃ next, perform (deliver none many outcome) state = (.ok (), next) ∧
      Host.Lawful.tree next = Host.Lawful.tree state ∧
      Host.Lawful.printed next = Host.Lawful.printed state ++ (outcome.compiled.document.pretty ++ "\n") := by
  refine ⟨_, rfl, ?_, ?_⟩
  · exact (Host.Lawful.tree_print _ _).trans (Host.Lawful.tree_report _ _)
  · exact (Host.Lawful.printed_print _ _).trans (congrArg (· ++ _) (Host.Lawful.printed_report _ _))

theorem exists_written_none [Host.Lawful σ] (many : Bool) (outcomes : List Outcome) (state : σ) :
    ∃ after, Written none many outcomes state after ∧ Host.Lawful.tree after = Host.Lawful.tree state ∧
      Host.Lawful.printed after =
        Host.Lawful.printed state ++ String.join (outcomes.map fun outcome => outcome.compiled.document.pretty ++ "\n") := by
  induction outcomes generalizing state with
  | nil => exact ⟨state, .nil state, rfl, by rw [List.map_nil, String.join_nil, String.append_empty]⟩
  | cons outcome outcomes ih =>
    obtain ⟨next, hfirst, htree, hprinted⟩ := perform_deliver_none many outcome state
    obtain ⟨after, hrest, htrees, hprints⟩ := ih next
    refine ⟨after, .cons hfirst hrest, htrees.trans htree, ?_⟩
    rw [hprints, hprinted, List.map_cons, String.join_cons, String.append_assoc]

/-! ## Runs -/

theorem run_eq {words : List String} {command : Command} (hparse : Command.parse words = some command) (state : σ) :
    StateT.run (runCommandLine words : StateM σ Nat) state =
      match perform command.run state with
      | (.ok (), after) => (0, after)
      | (.error chain, after) =>
        (1, (StateT.run (Host.report ("error: " ++ String.intercalate ": " chain ++ "\n") : StateM σ _) after).2) := by
  unfold runCommandLine perform
  rw [hparse]
  dsimp only
  rw [StateT.run_bind]
  rcases StateT.run (ExceptT.run command.run) state with ⟨_ | _, after⟩ <;> rfl

/-- A command that fails ends with code 1 and a message. -/
theorem run_of_error [Host.Lawful σ] {words : List String} {command : Command} {chain : Chain} {after : σ}
    (hparse : Command.parse words = some command) (hfails : perform command.run state = (.error chain, after)) :
    (StateT.run (runCommandLine words : StateM σ Nat) state).1 = 1 ∧
      Host.Lawful.tree (StateT.run (runCommandLine words : StateM σ Nat) state).2 = Host.Lawful.tree after ∧
      Host.Lawful.printed (StateT.run (runCommandLine words : StateM σ Nat) state).2 = Host.Lawful.printed after := by
  rw [run_eq hparse, hfails]
  exact ⟨rfl, Host.Lawful.tree_report _ _, Host.Lawful.printed_report _ _⟩

/-- A batch whose outcomes are all written fails only on diagnostics, if they are denied. -/
theorem run_of_written [Host.Lawful σ] {words : List String} {outcomes : List Outcome} {after : σ}
    (hparse : Command.parse words = some (.compile command))
    (hconclude : perform command.run state = perform (conclude command outcomes) state)
    (hwritten : Written command.out (1 < outcomes.length) outcomes state after) :
    (StateT.run (runCommandLine words : StateM σ Nat) state).1 =
        (if command.denyDiagnostics && outcomes.any Outcome.isFlagged then 1 else 0) ∧
      Host.Lawful.tree (StateT.run (runCommandLine words : StateM σ Nat) state).2 = Host.Lawful.tree after ∧
      Host.Lawful.printed (StateT.run (runCommandLine words : StateM σ Nat) state).2 = Host.Lawful.printed after := by
  have hflagged : decide (0 < outcomes.countP Outcome.isFlagged) = outcomes.any Outcome.isFlagged := by
    rw [Bool.eq_iff_iff, decide_eq_true_iff, List.countP_pos_iff, List.any_eq_true]
  have hrun : perform (Command.compile command).run state = perform (conclude command outcomes) state := hconclude
  rw [perform_conclude hwritten, hflagged] at hrun
  split_ifs at hrun ⊢
  · exact run_of_error hparse hrun
  · rw [run_eq hparse, hrun]
    exact ⟨rfl, rfl, rfl⟩

/-- A batch that ends with code 0 has all its outcomes written. -/
theorem written_of_run [Host.Observable σ] {words : List String} {after : σ}
    (hparse : Command.parse words = some (.compile command)) (hactive : command.noOp = false)
    (hrun : StateT.run (runCommandLine words : StateM σ Nat) state = (0, after)) :
    ∃ outcomes, prepare command state = .ok outcomes ∧
      Written command.out (1 < outcomes.length) outcomes state after := by
  have hperform : perform command.run state = (.ok (), after) := by
    rw [run_eq hparse] at hrun
    change (match perform command.run state with | (.ok (), after) => _ | (.error chain, after) => _) = _ at hrun
    revert hrun
    rcases perform command.run state with ⟨chain | _, last⟩ <;> intro hrun
    · cases hrun
    · rw [(Prod.mk.inj hrun).2]
  rw [perform_run hactive] at hperform
  cases hprepare : prepare command state with
  | error chain =>
    rw [hprepare] at hperform
    cases hperform
  | ok outcomes =>
    rw [hprepare] at hperform
    obtain ⟨_, last, hwritten, hend⟩ := perform_bind_eq_ok.1 hperform
    have hlast : last = after := by
      dsimp only at hend
      split_ifs at hend
      · cases hend
      · exact (Prod.mk.inj hend).2
    exact ⟨outcomes, rfl, hlast ▸ perform_forM_iff.1 hwritten⟩

/-- A batch with a fault fails before anything is written. -/
theorem run_of_fault [Host.Lawful σ] {words : List String} (hparse : Command.parse words = some (.compile command))
    (hactive : command.noOp = false) (hfault : Fault command state) :
    (StateT.run (runCommandLine words : StateM σ Nat) state).1 = 1 ∧
      Host.Lawful.printed (StateT.run (runCommandLine words : StateM σ Nat) state).2 = Host.Lawful.printed state ∧
      Host.Lawful.tree (StateT.run (runCommandLine words : StateM σ Nat) state).2 = Host.Lawful.tree state := by
  have hrun := perform_run hactive state
  cases hprepare : prepare command state with
  | ok outcomes => exact absurd hfault (exists_prepare_iff.1 ⟨outcomes, hprepare⟩)
  | error chain =>
    rw [hprepare] at hrun
    obtain ⟨hcode, htree, hprinted⟩ := run_of_error hparse hrun
    exact ⟨hcode, hprinted, htree⟩

/-- Everything is read and compiled before anything is written. A batch with a fault ends with code 1, prints nothing
and leaves all files and directories as they are. One without a fault gives one outcome for each source, in order:
without a place for files these are printed, and once all are written the code is 1 only for denied diagnostics. -/
theorem batch_all_or_nothing [Host.Lawful σ] {words : List String}
    (hparse : Command.parse words = some (.compile command)) (hactive : command.noOp = false) (state : σ) :
    let after := StateT.run (runCommandLine words : StateM σ Nat) state
    (Fault command state → after.1 = 1 ∧ Host.Lawful.printed after.2 = Host.Lawful.printed state ∧
      Host.Lawful.tree after.2 = Host.Lawful.tree state) ∧
    (¬ Fault command state → ∃ outcomes,
      List.Forall₂ (Compiles command state) (sources state command.inputs) outcomes ∧
      (command.out = none →
        Host.Lawful.printed after.2 = Host.Lawful.printed state ++
          String.join (outcomes.map fun outcome => outcome.compiled.document.pretty ++ "\n") ∧
        Host.Lawful.tree after.2 = Host.Lawful.tree state) ∧
      (command.out = none ∨ (∃ written, Written command.out (1 < outcomes.length) outcomes state written) →
        after.1 = if command.denyDiagnostics && outcomes.any Outcome.isFlagged then 1 else 0)) := by
  intro after
  refine ⟨run_of_fault hparse hactive, fun hfault => ?_⟩
  obtain ⟨outcomes, hprepare⟩ := exists_prepare_iff.2 hfault
  have hrun : perform command.run state = perform (conclude command outcomes) state := by
    rw [perform_run hactive, hprepare]
  refine ⟨outcomes, (prepare_eq_ok.1 hprepare).2.2, fun hout => ?_, fun hwritten => ?_⟩
  · obtain ⟨written, hwritten, htree, hprinted⟩ := exists_written_none (1 < outcomes.length) outcomes state
    obtain ⟨_, htrees, hprints⟩ := run_of_written hparse hrun (hout ▸ hwritten)
    exact ⟨hprints.trans hprinted, htrees.trans htree⟩
  · obtain ⟨written, hwritten⟩ : ∃ written, Written command.out (1 < outcomes.length) outcomes state written := by
      rcases hwritten with hout | hwritten
      · -- printing never fails
        obtain ⟨written, hwritten, -, -⟩ := exists_written_none (1 < outcomes.length) outcomes state
        exact ⟨written, hout ▸ hwritten⟩
      · exact hwritten
    exact (run_of_written hparse hrun hwritten).1

/-- a document with one type that is built in -/
def primitiveText (primitive : String) : String :=
  "\x7b\"root\":0,\"objects\":[\x7b\"identity\":\"A\",\"kind\":\"system\",\"primitive\":\"" ++ primitive ++ "\"\x7d]\x7d"

/-- a machine with one document -/
def deskMachine : Machine := { files := [(["good.json"], primitiveText "string")] }

/-- With a second document that is not there nothing is written of the first one; alone, that one is printed. -/
theorem batch_all_or_nothing_deskMachine :
    (let after := StateT.run (runCommandLine ["compile", "-i", "good.json", "missing.json"] : StateM Machine Nat) deskMachine
     after.1 = 1 ∧ after.2.printed = "" ∧ after.2.files = deskMachine.files) ∧
    (let after := StateT.run (runCommandLine ["compile", "-i", "good.json"] : StateM Machine Nat) deskMachine
     after.1 = 0 ∧ ∃ outcome, after.2.printed = outcome.compiled.document.pretty ++ "\n" ∧
       Compiles { inputs := { input := ["good.json"] } } deskMachine "good.json" outcome) := by
  have hparse : Command.parse ["compile", "-i", "good.json", "missing.json"] =
      some (.compile { inputs := { input := ["good.json", "missing.json"] } }) := by decide +kernel
  have hfault : Fault { inputs := { input := ["good.json", "missing.json"] } } deskMachine :=
    .unreadable (List.mem_cons_of_mem _ List.mem_cons_self) (by rfl)
  obtain ⟨hcode, hprinted, htree⟩ := (batch_all_or_nothing hparse rfl deskMachine).1 hfault
  refine ⟨⟨hcode, hprinted, congrArg (fun tree => tree.2.1) htree⟩, ?_⟩
  have hparse : Command.parse ["compile", "-i", "good.json"] = some (.compile { inputs := { input := ["good.json"] } }) := by
    decide +kernel
  have hsound : ¬ Fault { inputs := { input := ["good.json"] } } deskMachine :=
    exists_prepare_iff.1 (exists_ok_of_isOk (by decide +kernel))
  obtain ⟨outcomes, hcompiles, hnone, hcode⟩ := (batch_all_or_nothing hparse rfl deskMachine).2 hsound
  obtain ⟨outcome, rest, hfirst, hrest, rfl⟩ := List.forall₂_cons_left_iff.1 hcompiles
  obtain rfl := List.forall₂_nil_left_iff.1 hrest
  refine ⟨hcode (.inl rfl), outcome, (hnone rfl).1.trans ?_, hfirst⟩
  rw [List.map_singleton, String.join_cons, String.join_nil, String.append_empty]
  rfl

/-- With `--no-op` a fault does not show. -/
theorem noOp_hides_fault : ∃ command, Command.parse ["compile", "-i", "missing.json", "--no-op"] = some (.compile command) ∧
    Fault command ({} : Machine) ∧
    (StateT.run (runCommandLine ["compile", "-i", "missing.json", "--no-op"] : StateM Machine Nat) {}).1 = 0 := by
  refine ⟨{ inputs := { input := ["missing.json"] }, noOp := true }, by decide +kernel, ?_, by decide +kernel⟩
  exact .unreadable List.mem_cons_self (by rfl)

end Batch

end GraphSchema
