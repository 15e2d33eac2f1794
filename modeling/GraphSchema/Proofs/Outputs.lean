import GraphSchema.Proofs.Batches
import GraphSchema.Proofs.Places

/-!
What a batch leaves in the directory that it is written to.

- `Batch.contents_of_written`: a batch puts its documents where they belong, one after the other, and touches no other file.
- `Batch.outputs_kept`: after a batch each location holds the last document that belongs there. So each document has a
  file of its own if no two belong to one location, which for plain names means that no two have one name.
- `Batch.outputs_overwritten`: two sources with one stem belong to one location, and the first document is lost.
-/

namespace GraphSchema

open Run (perform Keeps keeps_pure keeps_withContext perform_bind_eq_ok)

namespace Machine

/-! ## Directories -/

/-- the files, and where relative paths start -/
def contents (machine : Machine) : List (Location × String) × Location := (machine.files, machine.current)

/-- the contents once a file is put where a path leads -/
def put (machine : Machine) (path content : String) : List (Location × String) × Location :=
  (putFile machine.files (machine.place path) content, machine.current)

theorem place_eq {machine other : Machine} (h : other.current = machine.current) : other.place = machine.place := by
  funext path
  rw [place, place, h]

theorem put_eq {machine other : Machine} (h : other.contents = machine.contents) : other.put = machine.put := by
  obtain ⟨hfiles, hcurrent⟩ := Prod.mk.inj h
  funext path content
  rw [put, put, hfiles, hcurrent, place_eq hcurrent]

theorem keeps_makeDirectory (path : String) :
    Keeps contents (Host.makeDirectory path : Run (StateM Machine) (Except FileError Unit)) := by
  intro machine
  change contents (change (·.makeDirectory path) machine).2 = contents machine
  rw [change]
  cases h : machine.makeDirectory path with
  | error error => rfl
  | ok made =>
    obtain ⟨location, rfl⟩ := makeDirectory_eq_ok h
    rfl

theorem keeps_makeAll (paths : List String) :
    Keeps contents (Host.makeAll paths : Run (StateM Machine) (Except FileError Unit)) := by
  induction paths with
  | nil => exact keeps_pure _
  | cons path above ih =>
    have hsettle (error : FileError) : Keeps contents (do return if ← Host.isDirectory path then .ok () else .error error :
        Run (StateM Machine) (Except FileError Unit)) :=
      (Run.still_isDirectory path).keeps.bind fun _ => keeps_pure _
    rw [Host.makeAll]
    refine (keeps_makeDirectory path).bind fun made => ?_
    split
    · exact keeps_pure _
    · -- the directories above are missing: they are made first
      refine ih.bind fun raised => ?_
      split
      · exact keeps_pure _
      · refine (keeps_makeDirectory path).bind fun again => ?_
        split
        · exact keeps_pure _
        · exact hsettle _
    · exact hsettle _

/-! ## Writing one file -/

theorem contents_of_write {machine after : Machine} {target content context : String} {describe : FileError → Chain}
    (h : perform (do withContext context describe (← Host.write target content) : Run (StateM Machine) Unit) machine =
      (.ok (), after)) :
    after.contents = machine.put target content := by
  obtain ⟨result, mid, hwrite, h⟩ := perform_bind_eq_ok.1 h
  have hchange : change (·.write target content) machine = (result, mid) :=
    Prod.ext (Except.ok.inj (Prod.mk.inj hwrite).1) (Prod.mk.inj hwrite).2
  rw [withContext, Run.perform_liftExcept] at h
  obtain ⟨hresult, rfl⟩ := Prod.mk.inj h
  rw [change] at hchange
  split at hchange
  · rename_i written hwritten
    rw [← (Prod.mk.inj hchange).2, write_eq_ok hwritten]
    rfl
  · rw [← (Prod.mk.inj hchange).1] at hresult
    cases hresult

theorem contents_of_writeFile {machine after : Machine} {target content : String}
    (h : perform (writeFile target content) machine = (.ok (), after)) :
    after.contents = machine.put target content := by
  unfold writeFile at h
  dsimp only at h
  split at h
  · rename_i above _
    obtain ⟨made, mid, hmake, h⟩ := perform_bind_eq_ok.1 h
    obtain ⟨_, last, hmade, h⟩ := perform_bind_eq_ok.1 h
    -- making directories puts no file anywhere
    have hmid : mid.contents = machine.contents := (keeps_makeAll (FilePath.ancestors above)).view_eq hmake
    have hlast : last.contents = mid.contents := (keeps_withContext _ _ made).view_eq hmade
    rw [contents_of_write h, put_eq (hlast.trans hmid)]
  · exact contents_of_write h

end Machine

namespace Batch

open Machine

theorem contents_of_deliver {machine after : Machine} {out : String} {outcome : Outcome}
    (h : perform (deliver (some out) true outcome) machine = (.ok (), after)) :
    after.contents = machine.put (FilePath.join out outcome.fileName) outcome.compiled.document.pretty := by
  obtain ⟨_, reported, hreport, h⟩ := perform_bind_eq_ok.1 h
  obtain ⟨_, asked, hasked, h⟩ := perform_bind_eq_ok.1 h
  rw [Bool.true_or, if_pos rfl] at h
  have hreported : reported.contents = machine.contents := by
    rw [← (Prod.mk.inj hreport).2]
    rfl
  have hasked : asked.contents = reported.contents := (Run.still_isDirectory out).keeps.view_eq hasked
  rw [contents_of_writeFile h, put_eq (hasked.trans hreported)]

/-- where an outcome belongs -/
def target (machine : Machine) (out : String) (outcome : Outcome) : Location :=
  machine.place (FilePath.join out outcome.fileName)

theorem target_eq {machine other : Machine} (h : other.current = machine.current) : target other = target machine := by
  funext out outcome
  rw [target, target, place_eq h]

/-- A batch puts its documents where they belong, one after the other, and touches no other file. -/
theorem contents_of_written {machine after : Machine} {out : String} {outcomes : List Outcome}
    (h : Written (some out) true outcomes machine after) :
    after.contents = (outcomes.foldl (fun files outcome =>
      putFile files (target machine out outcome) outcome.compiled.document.pretty) machine.files, machine.current) := by
  induction h with
  | nil state => rfl
  | cons hdelivered hrest ih =>
    have hfirst := Prod.mk.inj (contents_of_deliver hdelivered)
    rw [ih, target_eq hfirst.2, hfirst.1, hfirst.2, List.foldl_cons]
    rfl

/-- The last of some files put at a location is found there. -/
theorem lookup_foldl_putFile {α : Type} (place : α → Location) (text : α → String) (items : List α)
    (files : List (Location × String)) (location : Location) :
    List.lookup location (items.foldl (fun files item => putFile files (place item) (text item)) files) =
      ((items.filter (place · = location)).getLast?.map text).or (List.lookup location files) := by
  induction items generalizing files with
  | nil => rfl
  | cons item items ih =>
    rw [List.foldl_cons, ih, lookup_putFile]
    by_cases h : place item = location
    · rw [if_pos h.symm, List.filter_cons_of_pos (by simpa using h), List.getLast?_cons]
      cases (items.filter (place · = location)).getLast? <;> rfl
    · rw [if_neg (Ne.symm h), List.filter_cons_of_neg (by simpa using h)]

/-- What is put at a location of its own is found there. -/
theorem getLast?_filter_of_nodup {α : Type} {place : α → Location} {items : List α} (h : (items.map place).Nodup)
    {item : α} (hitem : item ∈ items) : (items.filter (place · = place item)).getLast? = some item := by
  have hmem : item ∈ items.filter (place · = place item) := List.mem_filter.2 ⟨hitem, decide_eq_true rfl⟩
  obtain ⟨last, hlast⟩ := Option.isSome_iff_exists.1 (List.getLast?_isSome.2 (List.ne_nil_of_mem hmem))
  obtain ⟨hin, hplace⟩ := List.mem_filter.1 (List.mem_of_getLast? hlast)
  rw [hlast, List.inj_on_of_nodup_map h hin hitem (of_decide_eq_true hplace)]

/-! ## Runs -/

/-- Locations differ just as names do, if these are plain. -/
theorem nodup_targets_iff {machine : Machine} {out : String} {outcomes : List Outcome}
    (h : ∀ outcome ∈ outcomes, ∀ hint, outcome.compiled.fileName = some hint → FilePath.IsPlain hint) :
    (outcomes.map (target machine out)).Nodup ↔ (outcomes.map Outcome.fileName).Nodup := by
  have hplain : ∀ outcome ∈ outcomes, FilePath.IsPlain outcome.fileName := by
    intro outcome houtcome
    cases hhint : outcome.compiled.fileName with
    | none => exact Outcome.isPlain_fileName hhint
    | some hint =>
      have hname : outcome.fileName = hint := by rw [Outcome.fileName, hhint]
      exact hname ▸ h outcome houtcome hint hhint
  have htargets : outcomes.map (target machine out) =
      (outcomes.map Outcome.fileName).map fun name => machine.place out ++ [name] := by
    rw [List.map_map]
    exact List.map_congr_left fun outcome houtcome => place_join (hplain outcome houtcome)
  rw [htargets]
  refine List.nodup_map_iff fun name other hsame => ?_
  exact List.singleton_injective (List.append_cancel_left hsame)

/-- After a batch that goes through, each location holds the last document that belongs there, or what it held before.
So each document is found in a file of its own if no two of them belong to one location; for plain names that means that
no two have one name. -/
theorem outputs_kept {words : List String} {command : CompileCommand} {out : String} {machine after : Machine}
    (hparse : Command.parse words = some (.compile command)) (hactive : command.noOp = false)
    (hout : command.out = some out) (hmany : 1 < (sources machine command.inputs).length)
    (hrun : StateT.run (runCommandLine words : StateM Machine Nat) machine = (0, after)) :
    ∃ outcomes, List.Forall₂ (Compiles command machine) (sources machine command.inputs) outcomes ∧
      (∀ location, after.fileAt? location =
        ((outcomes.filter (target machine out · = location)).getLast?.map (·.compiled.document.pretty)).or
          (machine.fileAt? location)) ∧
      ((outcomes.map (target machine out)).Nodup →
        ∀ outcome ∈ outcomes, after.fileAt? (target machine out outcome) = some outcome.compiled.document.pretty) ∧
      ((∀ outcome ∈ outcomes, ∀ hint, outcome.compiled.fileName = some hint → FilePath.IsPlain hint) →
        ((outcomes.map (target machine out)).Nodup ↔ (outcomes.map Outcome.fileName).Nodup)) := by
  obtain ⟨outcomes, hprepare, hwritten⟩ := written_of_run hparse hactive hrun
  have hcompiles := (prepare_eq_ok.1 hprepare).2.2
  rw [hout, ← hcompiles.length_eq, decide_eq_true hmany] at hwritten
  have hfiles : ∀ location, after.fileAt? location =
      ((outcomes.filter (target machine out · = location)).getLast?.map (·.compiled.document.pretty)).or
        (machine.fileAt? location) := by
    intro location
    rw [fileAt?, (Prod.mk.inj (contents_of_written hwritten)).1]
    exact lookup_foldl_putFile _ _ _ _ _
  refine ⟨outcomes, hcompiles, hfiles, fun hnodup outcome houtcome => ?_, nodup_targets_iff⟩
  rw [hfiles, getLast?_filter_of_nodup hnodup houtcome]
  rfl

/-- a machine with two documents in different directories -/
def shelfMachine (left right : String) : Machine where
  directories := [["a"], ["b"]]
  files := [(["a", left], primitiveText "boolean"), (["b", right], primitiveText "string")]

/-- the words that compile both documents into one directory -/
def shelfWords (left right : String) : List String := ["compile", "-i", "a/" ++ left, "b/" ++ right, "-o", "out"]

/-- the command of these words -/
def shelfCommand (left right : String) : CompileCommand where
  inputs := { input := ["a/" ++ left, "b/" ++ right] }
  out := some "out"

/-- Sources with different stems come into different files. -/
theorem outputs_kept_shelfMachine : ∃ left right : Outcome,
    let machine := shelfMachine "left.json" "right.json"
    let after := (StateT.run (runCommandLine (shelfWords "left.json" "right.json") : StateM Machine Nat) machine).2
    Compiles (shelfCommand "left.json" "right.json") machine "a/left.json" left ∧
      Compiles (shelfCommand "left.json" "right.json") machine "b/right.json" right ∧
      after.fileAt? ["out", "left.schema.json"] = some left.compiled.document.pretty ∧
      after.fileAt? ["out", "right.schema.json"] = some right.compiled.document.pretty := by
  have hparse : Command.parse (shelfWords "left.json" "right.json") =
      some (.compile (shelfCommand "left.json" "right.json")) := by decide +kernel
  have hcode : (StateT.run (runCommandLine (shelfWords "left.json" "right.json") : StateM Machine Nat)
      (shelfMachine "left.json" "right.json")).1 = 0 := by decide +kernel
  obtain ⟨outcomes, hcompiles, -, hkept, -⟩ := outputs_kept hparse rfl rfl (by decide) (Prod.ext hcode rfl)
  obtain ⟨left, others, hleft, hothers, rfl⟩ := List.forall₂_cons_left_iff.1 hcompiles
  obtain ⟨right, rest, hright, hrest, rfl⟩ := List.forall₂_cons_left_iff.1 hothers
  obtain rfl := List.forall₂_nil_left_iff.1 hrest
  have hprepare : prepare (shelfCommand "left.json" "right.json") (shelfMachine "left.json" "right.json") =
      .ok [left, right] :=
    prepare_eq_ok.2 ⟨by decide, fun h => absurd h.1 (by decide), hcompiles⟩
  have htargets : (prepare (shelfCommand "left.json" "right.json") (shelfMachine "left.json" "right.json")).toOption.map
      (·.map (target (shelfMachine "left.json" "right.json") "out")) =
        some [["out", "left.schema.json"], ["out", "right.schema.json"]] := by decide +kernel
  rw [hprepare] at htargets
  have htargets : [left, right].map (target (shelfMachine "left.json" "right.json") "out") =
      [["out", "left.schema.json"], ["out", "right.schema.json"]] := Option.some.inj htargets
  have hfound := hkept (htargets ▸ by decide)
  obtain ⟨hl, hrest⟩ := List.cons.inj htargets
  exact ⟨left, right, hleft, hright, hl ▸ hfound left List.mem_cons_self,
    (List.cons.inj hrest).1 ▸ hfound right (List.mem_cons_of_mem _ List.mem_cons_self)⟩

/-- Of two documents with one stem only the second is left. -/
theorem outputs_overwritten : ∃ outcome : Outcome,
    let command := shelfCommand "person.graph.json" "person.graph.json"
    let machine := shelfMachine "person.graph.json" "person.graph.json"
    let after := StateT.run (runCommandLine (shelfWords "person.graph.json" "person.graph.json") : StateM Machine Nat) machine
    Command.parse (shelfWords "person.graph.json" "person.graph.json") = some (.compile command) ∧
      Compiles command machine "a/person.graph.json" outcome ∧ after.1 = 0 ∧
      ∀ file ∈ after.2.files, file.2 ≠ outcome.compiled.document.pretty := by
  have hparse : Command.parse (shelfWords "person.graph.json" "person.graph.json") =
      some (.compile (shelfCommand "person.graph.json" "person.graph.json")) := by decide +kernel
  have hcode : (StateT.run (runCommandLine (shelfWords "person.graph.json" "person.graph.json") : StateM Machine Nat)
      (shelfMachine "person.graph.json" "person.graph.json")).1 = 0 := by decide +kernel
  obtain ⟨outcomes, hprepare, -⟩ := written_of_run hparse rfl (Prod.ext hcode rfl)
  obtain ⟨outcome, others, hcompiles, -, rfl⟩ := List.forall₂_cons_left_iff.1 (prepare_eq_ok.1 hprepare).2.2
  have hlost : (prepare (shelfCommand "person.graph.json" "person.graph.json")
      (shelfMachine "person.graph.json" "person.graph.json")).toOption.all fun outcomes => outcomes.head?.all fun outcome =>
        (StateT.run (runCommandLine (shelfWords "person.graph.json" "person.graph.json") : StateM Machine Nat)
          (shelfMachine "person.graph.json" "person.graph.json")).2.files.all
            fun file => file.2 ≠ outcome.compiled.document.pretty := by decide +kernel
  rw [hprepare] at hlost
  refine ⟨outcome, hparse, hcompiles, hcode, fun file hfile => ?_⟩
  exact of_decide_eq_true (List.all_eq_true.1 hlost file hfile)

end Batch

end GraphSchema
