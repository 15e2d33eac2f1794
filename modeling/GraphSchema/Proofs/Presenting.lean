import GraphSchema.Metadata.Format
import GraphSchema.Proofs.Acceptance

/-!
Typed reading of a known value, from a text or from where it was put aside.

- `Source.Presents` : a source presents a value if it holds it, or if its outline is read as it.
- `Source.Reads` : what a reader makes of a value, whatever presents it; one lemma for each way of reading.
- `Source.Takes` : how a draft takes in the members of a record one after the other (`reads_record`).
-/

namespace GraphSchema.Reading.Source

open Json (Path Place Lexeme Outline Key Ending)

/-- The source holds the value, or is a part of a text that is read as it. -/
def Presents : Source → Json → Prop
  | part path room outline, value => outline.read room path = .ok value
  | held found, value => found = value

/-- `read` reads the value as `a` from every source that presents it. -/
def Reads {α : Type} (read : Source → Result α) (value : Json) (a : α) : Prop :=
  ∀ source : Source, source.Presents value → read source = .ok a

/-! ## Brackets -/

section Brackets

variable {room : Nat} {path : Path} {opened : Lexeme} {ending : Ending} {outline : Outline} {value : Json}

theorem read_array {items : List Outline} (h : Outline.read room path (.array opened items ending) = .ok value) :
    ∃ inner values, room = inner + 1 ∧ value = .arr values ∧ Outline.readItems inner path 0 items = .ok values ∧
      ending.readArray = .ok () := by
  cases room with
  | zero => cases h
  | succ inner =>
    rw [Outline.read] at h
    obtain ⟨values, hread, h⟩ := bind_eq_ok.1 h
    obtain ⟨_, hended, h⟩ := bind_eq_ok.1 h
    exact ⟨inner, values, rfl, (Except.ok.inj h).symm, hread, mapError_eq_ok.1 hended⟩

theorem read_object {parts : List (Key × Outline × Lexeme)}
    (h : Outline.read room path (.object opened parts ending) = .ok value) :
    ∃ inner members, room = inner + 1 ∧ value = .obj members ∧ Outline.readMembers inner path parts = .ok members ∧
      ending.readObject parts.isEmpty = .ok () := by
  cases room with
  | zero => cases h
  | succ inner =>
    rw [Outline.read] at h
    obtain ⟨members, hread, h⟩ := bind_eq_ok.1 h
    obtain ⟨_, hended, h⟩ := bind_eq_ok.1 h
    exact ⟨inner, members, rfl, (Except.ok.inj h).symm, hread, mapError_eq_ok.1 hended⟩

/-- A lexeme has no value with brackets. -/
theorem scalar?_held {lexeme : Lexeme} (h : lexeme.scalar = .ok value) : (held value).scalar? = some value := by
  unfold Lexeme.scalar at h
  split at h
  case h_1 | h_2 => cases h; rfl
  case h_3 | h_4 =>
    obtain ⟨found, -, rfl⟩ := map_eq_ok.1 h
    rfl
  all_goals cases h

/-- A source has the same scalar as what it presents. -/
theorem Presents.scalar? {source : Source} (h : source.Presents value) : source.scalar? = (held value).scalar? := by
  cases source with
  | held found => rw [show found = value from h]
  | part path room outline =>
    have hread : outline.read room path = .ok value := h
    cases outline with
    | leaf lexeme =>
      rw [Outline.read] at hread
      have hscalar := mapError_eq_ok.1 hread
      rw [scalar?_held hscalar, Source.scalar?, hscalar]
      rfl
    | uncoloned next => cases hread
    | array opened items ending =>
      obtain ⟨_, _, -, rfl, -⟩ := read_array hread
      rfl
    | object opened parts ending =>
      obtain ⟨_, _, -, rfl, -⟩ := read_object hread
      rfl

/-- The outline of an array is one of an array. -/
theorem of_read_arr {values : List Json} (h : outline.read room path = .ok (.arr values)) :
    ∃ inner opened items ending, room = inner + 1 ∧ outline = .array opened items ending ∧
      Outline.readItems inner path 0 items = .ok values ∧ ending.readArray = .ok () := by
  cases outline with
  | leaf lexeme =>
    rw [Outline.read] at h
    cases scalar?_held (mapError_eq_ok.1 h)
  | uncoloned next => cases h
  | array opened items ending =>
    obtain ⟨inner, _, hroom, hsame, hread, hended⟩ := read_array h
    cases hsame
    exact ⟨inner, opened, items, ending, hroom, rfl, hread, hended⟩
  | object opened parts ending =>
    obtain ⟨_, _, -, hsame, -⟩ := read_object h
    cases hsame

/-- The outline of an object is one of an object. -/
theorem of_read_obj {members : List (String × Json)} (h : outline.read room path = .ok (.obj members)) :
    ∃ inner opened parts ending, room = inner + 1 ∧ outline = .object opened parts ending ∧
      Outline.readMembers inner path parts = .ok members ∧ ending.readObject parts.isEmpty = .ok () := by
  cases outline with
  | leaf lexeme =>
    rw [Outline.read] at h
    cases scalar?_held (mapError_eq_ok.1 h)
  | uncoloned next => cases h
  | array opened items ending =>
    obtain ⟨_, _, -, hsame, -⟩ := read_array h
    cases hsame
  | object opened parts ending =>
    obtain ⟨inner, _, hroom, hsame, hread, hended⟩ := read_object h
    cases hsame
    exact ⟨inner, opened, parts, ending, hroom, rfl, hread, hended⟩

end Brackets

/-! ## Scalars -/

section Scalars

variable {α : Type} {read : Source → Result α} {value : Json} {a : α}

theorem reads_text (s : String) : Reads text (.str s) s := by
  intro source hpresents
  rw [text, hpresents.scalar?]
  rfl

theorem reads_flag (b : Bool) : Reads flag (.bool b) b := by
  intro source hpresents
  rw [flag, hpresents.scalar?]
  rfl

theorem reads_count (n : Nat) : Reads count (.nat n) n := by
  intro source hpresents
  rw [count, hpresents.scalar?]
  rfl

theorem reads_map {β : Type} {change : α → β} (h : Reads read value a) :
    Reads (fun source => change <$> read source) value (change a) := by
  intro source hpresents
  exact map_eq_ok.2 ⟨a, h source hpresents, rfl⟩

/-- What is not `null` is read as a value that is there. -/
theorem reads_optional (h : Reads read value a) (hpresent : value ≠ .null) : Reads (optional read) value (some a) := by
  intro source hpresents
  have hscalar := hpresents.scalar?
  rw [optional]
  split
  · rename_i hnull
    rw [hnull] at hscalar
    cases value with
    | null => exact absurd rfl hpresent
    | _ => cases hscalar
  · rw [h source hpresents]
    rfl

theorem reads_raw (value : Json) : Reads raw value value := by
  intro source hpresents
  cases source with
  | held found => exact congrArg Except.ok hpresents
  | part path room outline =>
    have hread : outline.read room path = .ok value := hpresents
    rw [raw, hread]
    rfl

theorem reads_any (value : Json) : Reads any value value.collapse := by
  intro source hpresents
  rw [any, reads_raw value source hpresents]
  rfl

theorem reads_choice {known : List (String × α)} {name : String} (h : named known name = .ok a) :
    Reads (choice known) (.str name) a := by
  intro source hpresents
  have hscalar := hpresents.scalar?
  cases source with
  | held found =>
    rw [show found = .str name from hpresents]
    exact h
  | part path room outline =>
    cases outline with
    | leaf lexeme =>
      have htext : text (part path 0 (.leaf lexeme)) = .ok name := by
        have hsame : Source.scalar? (part path 0 (.leaf lexeme)) = some (.str name) := hscalar
        rw [text, hsame]
      have htoken : lexeme.token = .text (.ok name) := by
        have htext := scalar_of_leaf hscalar
        unfold Lexeme.scalar at htext
        split at htext
        case h_4 hlexeme =>
          obtain ⟨found, rfl, hsame⟩ := map_eq_ok.1 htext
          cases hsame
          exact hlexeme
        case h_3 => obtain ⟨found, -, hsame⟩ := map_eq_ok.1 htext; cases hsame
        all_goals cases htext
      simp only [choice, htoken]
      rw [htext]
      exact settled_eq_ok.2 h
    | _ => cases hscalar

end Scalars

/-! ## Lists -/

section Lists

variable {α : Type} {read : Source → Result α} {write : α → Json} {values : List α}

theorem listItems_of_readItems (heach : ∀ a ∈ values, Reads read (write a) a) {path : Path} {room index : Nat}
    {items : List Outline} (h : Outline.readItems room path index items = .ok (values.map write)) :
    listItems read path room index items = .ok values := by
  induction items generalizing index values with
  | nil =>
    rw [Outline.readItems] at h
    rw [List.map_eq_nil_iff.1 (Except.ok.inj h).symm]
    rfl
  | cons item items ih =>
    rw [Outline.readItems] at h
    obtain ⟨value, hread, h⟩ := bind_eq_ok.1 h
    obtain ⟨others, hreads, h⟩ := bind_eq_ok.1 h
    cases values with
    | nil => cases h
    | cons a values =>
      obtain ⟨rfl, rfl⟩ := List.cons.inj (Except.ok.inj h)
      have hfirst := heach a List.mem_cons_self (part (path ++ [Json.Segment.index index]) room item) hread
      have hbehind := ih (fun b hmem => heach b (List.mem_cons_of_mem _ hmem)) hreads
      exact bind_eq_ok.2 ⟨a, hfirst, bind_eq_ok.2 ⟨values, hbehind, rfl⟩⟩

theorem mapM_held (heach : ∀ a ∈ values, Reads read (write a) a) :
    (values.map write).mapM (fun item => read (held item)) = .ok values := by
  induction values with
  | nil => rfl
  | cons a values ih =>
    rw [List.map_cons, List.mapM_cons, heach a List.mem_cons_self (held (write a)) rfl,
      ih fun b hmem => heach b (List.mem_cons_of_mem _ hmem)]
    rfl

/-- A list is read item by item. -/
theorem reads_list (heach : ∀ a ∈ values, Reads read (write a) a) :
    Reads (list read) (.arr (values.map write)) values := by
  intro source hpresents
  cases source with
  | held found =>
    rw [show found = .arr (values.map write) from hpresents]
    exact mapM_held heach
  | part path room outline =>
    obtain ⟨inner, opened, items, ending, rfl, rfl, hreads, hended⟩ := of_read_arr hpresents
    exact bind_eq_ok.2 ⟨values, listItems_of_readItems heach hreads, bind_eq_ok.2 ⟨(), malformed_eq_ok.2 hended, rfl⟩⟩

end Lists

/-! ## Records -/

section Records

variable {α δ : Type} {take : δ → String → Source → Result δ} {draft next last : δ} {name : String}
  {members others : List (String × Json)} {a : α}

/-- The draft takes in the members one after the other, whatever presents their values. -/
inductive Takes (take : δ → String → Source → Result δ) : δ → List (String × Json) → δ → Prop
  | nil {draft : δ} : Takes take draft [] draft
  | cons {draft next last : δ} {name : String} {value : Json} {others : List (String × Json)}
      (hfirst : Reads (take draft name) value next) (hbehind : Takes take next others last) :
      Takes take draft ((name, value) :: others) last

theorem Takes.append (h : Takes take draft members next) (hbehind : Takes take next others last) :
    Takes take draft (members ++ others) last := by
  induction h with
  | nil => exact hbehind
  | cons hfirst _ ih => exact .cons hfirst (ih hbehind)

/-- A member that may come once: `put` fills its slot in a draft, which is empty before. -/
theorem takes_once {β : Type} {read : Source → Result β} {value : Json} {b : β} (put : Option β → δ)
    (h : Reads read value b)
    (hstep : ∀ source, take (put none) name source = once name none (read source) >>= fun slot => .ok (put slot)) :
    Takes take (put none) [(name, value)] (put (some b)) := by
  refine .cons (fun source hpresents => ?_) .nil
  rw [hstep, h source hpresents]
  rfl

/-- A member that is left out when there is no value. -/
theorem takes_member {β : Type} {read : Source → Result β} {write : β → Json} (put : Option (Option β) → δ)
    (value : Option β) (h : ∀ b, value = some b → Reads read (write b) b) (hpresent : ∀ b, write b ≠ .null)
    (hstep : ∀ source, take (put none) name source =
      once name none (optional read source) >>= fun slot => .ok (put slot)) :
    Takes take (put none) (Metadata.member name (value.map write)) (put (value.map some)) := by
  cases value with
  | none => exact .nil
  | some b => exact takes_once put (reads_optional (h b rfl) (hpresent b)) hstep

/-- Members that are put aside, in order. -/
theorem takes_aside (put : List (String × Json) → δ)
    (hstep : ∀ front, ∀ member ∈ members, Reads (take (put front) member.1) member.2 (put (front ++ [member])))
    (front : List (String × Json)) : Takes take (put front) members (put (front ++ members)) := by
  induction members generalizing front with
  | nil =>
    rw [List.append_nil]
    exact .nil
  | cons member members ih =>
    have hbehind := ih (fun front other hmem => hstep front other (List.mem_cons_of_mem _ hmem)) (front ++ [member])
    rw [List.append_assoc] at hbehind
    exact .cons (hstep front member List.mem_cons_self) hbehind

theorem takeHeld_of_takes (h : Takes take draft members last) : takeHeld take draft members = .ok last := by
  induction h with
  | nil => rfl
  | cons hfirst _ ih => exact bind_eq_ok.2 ⟨_, hfirst (held _) rfl, ih⟩

theorem takeMembers_of_takes (h : Takes take draft members last) {path : Path} {room : Nat}
    {parts : List (Key × Outline × Lexeme)} (hreads : Outline.readMembers room path parts = .ok members) :
    takeMembers take path room draft parts = .ok last := by
  induction h generalizing parts with
  | nil =>
    cases parts with
    | nil => rfl
    | cons part parts =>
      rw [Outline.readMembers] at hreads
      obtain ⟨_, -, hreads⟩ := bind_eq_ok.1 hreads
      obtain ⟨_, -, hreads⟩ := bind_eq_ok.1 hreads
      obtain ⟨_, -, hreads⟩ := bind_eq_ok.1 hreads
      cases hreads
  | cons hfirst _ ih =>
    cases parts with
    | nil => cases hreads
    | cons member parts =>
      obtain ⟨key, outline, after⟩ := member
      rw [Outline.readMembers] at hreads
      obtain ⟨name, hkey, hreads⟩ := bind_eq_ok.1 hreads
      obtain ⟨value, hread, hreads⟩ := bind_eq_ok.1 hreads
      obtain ⟨others, hbehind, hsame⟩ := bind_eq_ok.1 hreads
      cases hsame
      refine bind_eq_ok.2 ⟨_, malformed_eq_ok.2 (mapError_eq_ok.1 hkey), ?_⟩
      have htaken := hfirst (part (path ++ [Json.Segment.key _]) room outline) hread
      exact bind_eq_ok.2 ⟨_, settled_eq_ok.2 htaken, ih hbehind⟩

variable {form : Form δ α} {expected : String}

theorem heldRecord_of_takes (h : Takes form.take form.start members last) (hfinish : form.finish last = .ok a) :
    heldRecord form members = .ok a :=
  bind_eq_ok.2 ⟨last, takeHeld_of_takes h, hfinish⟩

/-- **Records.** If a draft takes in the members and finishes, the record is read. -/
theorem reads_record (h : Takes form.take form.start members last) (hfinish : form.finish last = .ok a) :
    Reads (record expected form) (.obj members) a := by
  intro source hpresents
  cases source with
  | held found =>
    rw [show found = .obj members from hpresents]
    exact heldRecord_of_takes h hfinish
  | part path room outline =>
    obtain ⟨inner, opened, parts, ending, rfl, rfl, hreads, hended⟩ := of_read_obj hpresents
    refine bind_eq_ok.2 ⟨last, takeMembers_of_takes h hreads, ?_⟩
    exact bind_eq_ok.2 ⟨(), malformed_eq_ok.2 hended, settled_eq_ok.2 hfinish⟩

theorem reads_recordOrRow {columns : Columns δ α} (h : Takes form.take form.start members last)
    (hfinish : form.finish last = .ok a) : Reads (recordOrRow expected form columns) (.obj members) a := by
  intro source hpresents
  have hasRecord : record expected form source = .ok a := reads_record h hfinish source hpresents
  cases source with
  | held found =>
    obtain rfl : found = .obj members := hpresents
    exact hasRecord
  | part path room outline =>
    obtain ⟨inner, opened, parts, ending, rfl, rfl, -⟩ := of_read_obj hpresents
    exact hasRecord

end Records

/-! ## Records of several kinds -/

section Kinds

variable {κ α : Type} {known : List (String × κ)} {name : String} {kind : κ} {a : α} {members : List (String × Json)}

theorem splitKind_of_notMem (kind : κ) (hother : ∀ member ∈ members, member.1 ≠ "kind") :
    splitKind known (some kind) members = .ok (kind, members) := by
  induction members with
  | nil => rfl
  | cons member members ih =>
    rw [splitKind, if_neg (hother member List.mem_cons_self), ih fun m hmem => hother m (List.mem_cons_of_mem _ hmem)]
    rfl

/-- The kind in front decides how the other members are read. -/
theorem tagged_of_kind {read : κ → List (String × Json) → Result α} (hkind : named known name = .ok kind)
    (hother : ∀ member ∈ members, member.1 ≠ "kind") (hread : read kind members = .ok a) :
    tagged known read (("kind", .str name) :: members) = .ok a := by
  refine bind_eq_ok.2 ⟨(kind, members), ?_, hread⟩
  rw [splitKind, if_pos rfl]
  refine bind_eq_ok.2 ⟨some kind, ?_, splitKind_of_notMem kind hother⟩
  exact map_eq_ok.2 ⟨kind, hkind, rfl⟩

end Kinds

end GraphSchema.Reading.Source
