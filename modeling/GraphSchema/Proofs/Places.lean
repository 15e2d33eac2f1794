import Mathlib.Data.List.Basic
import Mathlib.Tactic.Common
import GraphSchema.Command.Run
import GraphSchema.Files.Machine
import GraphSchema.Proofs.Acceptance

/-!
Where paths lead on a machine.

- `Machine.place`: the location of a path, whether or not it can be reached; `Machine.eq_place` says that it is the one
  that is found.
- `Machine.place_join`: a plain name in a directory leads to one location more, so different plain names lead to
  different locations.
- `Outcome.isPlain_fileName`: the name of a file that is taken from its source is plain.
- `Machine.lookup_putFile`: what is found after a file is put somewhere.
-/

namespace GraphSchema

open Reading (bind_eq_ok)

namespace FilePath

/-! ## Parts -/

theorem splitChars_append (begun before behind : List Char) :
    splitChars begun (before ++ '/' :: behind) = splitChars begun before ++ splitChars [] behind := by
  induction before generalizing begun with
  | nil => simp [splitChars]
  | cons c before ih =>
    by_cases hslash : c = '/'
    · simp [splitChars, hslash, ih]
    · simp [splitChars, hslash, ih]

theorem splitChars_of_not_mem {begun text : List Char} (h : '/' ∉ text) :
    splitChars begun text = [begun.reverse ++ text] := by
  induction text generalizing begun with
  | nil => simp [splitChars]
  | cons c text ih =>
    obtain ⟨hc, htext⟩ := List.ne_and_not_mem_of_not_mem_cons h
    rw [splitChars, if_neg (Ne.symm hc), ih htext]
    simp

theorem not_mem_of_mem_splitChars {begun text part : List Char} (hbegun : '/' ∉ begun)
    (h : part ∈ splitChars begun text) : '/' ∉ part := by
  induction text generalizing begun with
  | nil =>
    obtain rfl := List.mem_singleton.1 h
    simpa using hbegun
  | cons c text ih =>
    rw [splitChars] at h
    split_ifs at h with hslash
    · rcases List.mem_cons.1 h with rfl | h
      · simpa using hbegun
      · exact ih List.not_mem_nil h
    · exact ih (List.not_mem_cons_of_ne_of_not_mem (Ne.symm hslash) hbegun) h

theorem not_mem_of_mem_parts {path part : String} (h : part ∈ parts path) : '/' ∉ part.toList := by
  obtain ⟨chars, hchars, rfl⟩ := List.mem_map.1 h
  rw [String.toList_ofList]
  exact not_mem_of_mem_splitChars List.not_mem_nil hchars

/-- the names on a path -/
def names (path : String) : List String :=
  (parts path).filter (· != "")

theorem names_append_slash (path name : String) : names (path ++ "/" ++ name) = names path ++ names name := by
  have htext : (path ++ "/" ++ name).toList = path.toList ++ '/' :: name.toList := by simp
  rw [names, parts, htext, splitChars_append, List.map_append, List.filter_append]
  rfl

/-- A slash at the end adds no name. -/
theorem names_slash (path : String) : names (path ++ "/") = names path := by
  have hslash := names_append_slash path ""
  rw [String.append_empty] at hslash
  exact hslash.trans (List.append_nil _)

theorem exists_of_endsInSlash {path : String} (h : endsInSlash path = true) : ∃ before, path = before ++ "/" := by
  obtain ⟨before, hbefore⟩ := List.getLast?_eq_some_iff.1 (beq_iff_eq.1 h)
  refine ⟨String.ofList before, String.toList_injective ?_⟩
  rw [hbefore, String.toList_append, String.toList_ofList]
  rfl

/-- Appending a relative path appends its names. -/
theorem names_join {path name : String} (hrelative : isAbsolute name = false) :
    names (join path name) = names path ++ names name := by
  unfold join
  rw [hrelative, Bool.false_or]
  split_ifs with hempty hslash
  · obtain rfl : path = "" := by simpa using hempty
    rfl
  · obtain ⟨before, rfl⟩ := exists_of_endsInSlash hslash
    rw [names_append_slash, names_slash]
  · exact names_append_slash path name

theorem isAbsolute_append {path name : String} (h : path ≠ "") : isAbsolute (path ++ name) = isAbsolute path := by
  have htext : path.toList ≠ [] := by simpa using h
  obtain ⟨c, rest, hpath⟩ := List.exists_cons_of_ne_nil htext
  rw [isAbsolute, isAbsolute, String.toList_append, hpath]
  rfl

theorem isAbsolute_join {path name : String} (hrelative : isAbsolute name = false) :
    isAbsolute (join path name) = isAbsolute path := by
  unfold join
  rw [hrelative, Bool.false_or]
  split_ifs with hempty hslash
  · obtain rfl : path = "" := by simpa using hempty
    exact hrelative
  · exact isAbsolute_append (by simpa using hempty)
  · rw [String.append_assoc]
    exact isAbsolute_append (by simpa using hempty)

/-- whether a text is the name of a file, and no more than that -/
structure IsPlain (name : String) : Prop where
  nonempty : name ≠ ""
  slash_notMem : '/' ∉ name.toList
  not_here : name ≠ "."
  not_above : name ≠ ".."

theorem IsPlain.isAbsolute {name : String} (h : IsPlain name) : isAbsolute name = false := by
  rw [FilePath.isAbsolute, beq_eq_false_iff_ne]
  intro hfirst
  exact h.slash_notMem (List.mem_of_mem_head? hfirst)

theorem IsPlain.names {name : String} (h : IsPlain name) : names name = [name] := by
  rw [FilePath.names, parts, splitChars_of_not_mem h.slash_notMem]
  simp [h.nonempty]

/-! ## Names of files -/

theorem eq_or_mem_of_mem_components {path component : String} (h : component ∈ components path) :
    component = "/" ∨ component ∈ parts path := by
  unfold components at h
  split at h
  · exact absurd h List.not_mem_nil
  · rename_i first rest hparts
    have hbehind : ∀ c ∈ rest.filter (!isIdle ·), c ∈ parts path := fun c hc =>
      hparts ▸ List.mem_cons_of_mem first (List.mem_filter.1 hc).1
    dsimp only at h
    split_ifs at h
    · exact (List.mem_cons.1 h).imp id (hbehind _)
    · exact .inr (hbehind _ h)
    · rcases List.mem_cons.1 h with rfl | h
      · exact .inr (hparts ▸ List.mem_cons_self)
      · exact .inr (hbehind _ h)

theorem not_mem_fileName {path name : String} (h : fileName? path = some name) : '/' ∉ name.toList := by
  unfold fileName? at h
  split at h
  · rename_i last hlast
    split_ifs at h with hspecial
    obtain rfl := Option.some.inj h
    have hroot : last ≠ "/" := by
      rintro rfl
      exact hspecial rfl
    exact not_mem_of_mem_parts ((eq_or_mem_of_mem_components (List.mem_of_getLast? hlast)).resolve_left hroot)
  · cases h

theorem stem_subset (name : String) : (stem name).toList ⊆ name.toList := by
  unfold stem
  split
  · exact List.Subset.refl _
  · rw [String.toList_ofList]
    intro c hc
    have hdropped := List.mem_reverse.1 ((List.dropLast_subset _) hc)
    exact List.mem_reverse.1 ((List.dropWhile_sublist _).subset hdropped)

theorem dropEnding_subset (text ending : String) : (dropEnding text ending).toList ⊆ text.toList := by
  unfold dropEnding
  split_ifs
  · rw [String.toList_ofList]
    exact List.take_subset _ _
  · exact List.Subset.refl _

end FilePath

/-- A name that is not given as a hint is plain. -/
theorem Outcome.isPlain_fileName {outcome : Outcome} (h : outcome.compiled.fileName = none) :
    FilePath.IsPlain outcome.fileName := by
  have hname : outcome.fileName =
      FilePath.dropEnding ((FilePath.fileStem? outcome.source).getD "schema") ".graph" ++ ".schema.json" := by
    rw [Outcome.fileName, h]
  have hlength : 12 ≤ outcome.fileName.length := by
    rw [hname, String.length_append]
    exact Nat.le_add_left _ _
  have hslash : '/' ∉ ((FilePath.fileStem? outcome.source).getD "schema").toList := by
    cases hfile : FilePath.fileName? outcome.source with
    | none =>
      rw [FilePath.fileStem?, hfile]
      decide
    | some name =>
      rw [FilePath.fileStem?, hfile]
      exact fun hmem => FilePath.not_mem_fileName hfile (FilePath.stem_subset name hmem)
  constructor
  · intro hempty
    rw [hempty] at hlength
    exact absurd hlength (by decide)
  · rw [hname, String.toList_append, List.mem_append]
    rintro (hmem | hmem)
    · exact hslash (FilePath.dropEnding_subset _ _ hmem)
    · exact absurd hmem (by decide)
  · intro hhere
    rw [hhere] at hlength
    exact absurd hlength (by decide)
  · intro habove
    rw [habove] at hlength
    exact absurd hlength (by decide)

namespace Machine

open FilePath

/-! ## Locations -/

/-- The location that a path leads to, if it leads anywhere. -/
def place (machine : Machine) (path : String) : Location :=
  (names path).foldl follow (if isAbsolute path then [] else machine.current)

theorem eq_foldl_of_walk {machine : Machine} {start location : Location} {names : List String}
    (h : machine.walk start names = .ok location) : location = names.foldl follow start := by
  induction names generalizing start with
  | nil => exact (Except.ok.inj h).symm
  | cons name names ih =>
    rw [walk] at h
    split_ifs at h
    exact ih h

theorem eq_place {machine : Machine} {path : String} {location : Location} (h : machine.locate path = .ok location) :
    location = machine.place path := by
  unfold locate at h
  dsimp only at h
  split_ifs at h with _ _ _ habsolute
  · rw [place, if_pos habsolute]
    exact eq_foldl_of_walk h
  · rw [place, if_neg habsolute]
    exact eq_foldl_of_walk h

theorem follow_of_isPlain {location : Location} {name : String} (h : IsPlain name) :
    follow location name = location ++ [name] := by
  rw [follow, if_neg h.not_above, if_neg h.not_here]

/-- A plain name in a directory leads to one location more. -/
theorem place_join {machine : Machine} {path name : String} (h : IsPlain name) :
    machine.place (join path name) = machine.place path ++ [name] := by
  rw [place, names_join h.isAbsolute, isAbsolute_join h.isAbsolute, List.foldl_append, h.names]
  exact follow_of_isPlain h

/-! ## Writing -/

theorem lookup_cons_eq_ite {α β : Type} [BEq α] [LawfulBEq α] [DecidableEq α] (key other : α) (value : β)
    (rest : List (α × β)) :
    List.lookup other ((key, value) :: rest) = if other = key then some value else List.lookup other rest := by
  by_cases h : other = key
  · rw [if_pos h, h, List.lookup_cons_self]
  · rw [if_neg h, List.lookup_cons, beq_eq_false_iff_ne.2 h]

theorem lookup_putFile (files : List (Location × String)) (location other : Location) (content : String) :
    List.lookup other (putFile files location content) =
      if other = location then some content else List.lookup other files := by
  induction files with
  | nil => exact lookup_cons_eq_ite location other content []
  | cons file files ih =>
    obtain ⟨here, old⟩ := file
    rw [putFile]
    by_cases hhere : here = location
    · rw [if_pos hhere, hhere, lookup_cons_eq_ite, lookup_cons_eq_ite]
      split_ifs <;> rfl
    · rw [if_neg hhere, lookup_cons_eq_ite, lookup_cons_eq_ite, ih]
      split_ifs with hother hlocation
      · exact absurd (hother.symm.trans hlocation) hhere
      · rfl
      · rfl
      · rfl

theorem write_eq_ok {machine after : Machine} {path content : String} (h : machine.write path content = .ok after) :
    after = { machine with files := putFile machine.files (machine.place path) content } := by
  obtain ⟨location, hlocation, h⟩ := bind_eq_ok.1 h
  obtain rfl := eq_place hlocation
  split_ifs at h
  exact (Except.ok.inj h).symm

theorem makeDirectory_eq_ok {machine after : Machine} {path : String} (h : machine.makeDirectory path = .ok after) :
    ∃ location, after = { machine with directories := machine.directories ++ [location] } := by
  obtain ⟨location, _, h⟩ := bind_eq_ok.1 h
  split_ifs at h
  exact ⟨location, (Except.ok.inj h).symm⟩

end Machine

end GraphSchema
