import Mathlib.Data.List.Dedup
import GraphSchema.Proofs.ByteOrder
import GraphSchema.Proofs.Document

/-!
The table of definitions against the history of what was asked of it.

A slot is reserved or built, in any order and any number of times. The history alone says what the table has to answer: a
key is taken once it was reserved or filled, and the schema under it is the first one that it was filled with.

- `Access`, `answers` : what can be asked of a table, and its answers along a run.
- `Access.due` : the answer that is due after a history, by the history alone.
- `Reflects` : the relation between a table and a history. Each access keeps it (`Reflects.perform`), and where it holds
  each answer is the one that is due (`Reflects.answer`).
- `first_writer_wins` : so it is along every run, and in the sorted entries at its end.
-/

namespace GraphSchema

namespace Definitions

/-! ## Accesses -/

/-- something that is asked of a table -/
inductive Access where
  | reserve (key : String)
  | fill (key : String) (schema : Json)
  | get (key : String)
  | size

/-- what a table answers -/
inductive Answer where
  | free (was : Bool)
  | filled
  | found (schema : Option Json)
  | size (count : Nat)

namespace Access

/-- the answer of a table, and the table after it -/
def perform (table : Definitions) : Access → Answer × Definitions
  | reserve key => (.free (table.reserve key).1, (table.reserve key).2)
  | fill key schema => (.filled, table.fill key schema)
  | get key => (.found (table.get? key), table)
  | size => (.size table.size, table)

/-- the key that is taken from then on -/
def takes : Access → Option String
  | reserve key | fill key _ => some key
  | get _ | size => none

/-- the schema that is offered for a key -/
def offers (key : String) : Access → Option Json
  | fill filled schema => if filled = key then some schema else none
  | reserve _ | get _ | size => none

end Access

/-- the table after accesses -/
def after (table : Definitions) (accesses : List Access) : Definitions :=
  accesses.foldl (fun table access => (access.perform table).2) table

/-- the answers to accesses, one after the other -/
def answers (table : Definitions) : List Access → List Answer
  | [] => []
  | access :: rest => (access.perform table).1 :: answers (access.perform table).2 rest

/-! ## Histories -/

/-- the keys that were reserved or filled, as often as they were -/
def taken (history : List Access) : List String :=
  history.filterMap Access.takes

/-- the first schema that a key was filled with -/
def firstOffered (history : List Access) (key : String) : Option Json :=
  history.findSome? (Access.offers key)

/-- The answer that is due after a history. A key is free if it was neither reserved nor filled, the schema that is found
is the first one that was offered, and the size is the number of different keys that were taken. -/
def Access.due (history : List Access) : Access → Answer
  | reserve key => .free (key ∉ taken history)
  | fill .. => .filled
  | get key => .found (firstOffered history key)
  | size => .size (taken history).dedup.length

theorem mem_taken_append {history : List Access} {access : Access} {key : String} :
    key ∈ taken (history ++ [access]) ↔ access.takes = some key ∨ key ∈ taken history := by
  simp [taken, List.filterMap_append, or_comm]

theorem firstOffered_append (history : List Access) (access : Access) (key : String) :
    firstOffered (history ++ [access]) key = (firstOffered history key).or (access.offers key) := by
  rw [firstOffered, List.findSome?_append, List.findSome?_singleton, firstOffered]

/-! ## What each access does to a table -/

variable {table : Definitions} {key k : String} {schema : Json}

theorem reserve_of_contains (h : table.contains key = true) : table.reserve key = (false, table) :=
  if_pos h

theorem reserve_of_free (h : table.contains key = false) : table.reserve key = (true, table.withSlot key .reserved) :=
  if_neg (Bool.eq_false_iff.1 h)

theorem fst_reserve (table : Definitions) (key : String) : (table.reserve key).1 = !table.contains key := by
  cases h : table.contains key with
  | true => rw [reserve_of_contains h]; rfl
  | false => rw [reserve_of_free h]; rfl

theorem get?_withSlot (table : Definitions) (key : String) (slot : Slot) (k : String) :
    (table.withSlot key slot).get? k = if k = key then slot.schema? else table.get? k := by
  have hslot : Members.get? (table.withSlot key slot).slots k = _ := slot?_withSlot table key slot k
  rw [get?, hslot]
  split_ifs <;> rfl

/-- A reservation is not found. -/
theorem get?_reserve (table : Definitions) (key k : String) : (table.reserve key).2.get? k = table.get? k := by
  cases h : table.contains key with
  | true => rw [reserve_of_contains h]
  | false =>
    rw [reserve_of_free h, get?_withSlot]
    split_ifs with hk
    · rw [hk, get?_of_not_contains h]
      rfl
    · rfl

/-- A schema is found that was there, or else one that is filled in. -/
theorem get?_fill (table : Definitions) (key : String) (schema : Json) (k : String) :
    (table.fill key schema).get? k = (table.get? k).or (if key = k then some schema else none) := by
  unfold fill
  cases h : table.get? key with
  | some stored =>
    rw [Option.isSome_some, if_pos rfl]
    split_ifs with hk
    · rw [← hk, h]
      rfl
    · rw [Option.or_none]
  | none =>
    rw [Option.isSome_none, if_neg Bool.false_ne_true]
    refine (get?_withSlot table key (.built schema) k).trans ?_
    by_cases hk : k = key
    · rw [if_pos hk, if_pos hk.symm, hk, h]
      rfl
    · rw [if_neg hk, if_neg (Ne.symm hk), Option.or_none]

theorem contains_reserve : (table.reserve key).2.contains k = true ↔ k = key ∨ table.contains k = true := by
  cases h : table.contains key with
  | true =>
    rw [reserve_of_contains h]
    exact ⟨Or.inr, fun hk => hk.elim (fun hsame => hsame ▸ h) id⟩
  | false =>
    rw [reserve_of_free h]
    exact contains_withSlot

/-! ## Tables and histories -/

/-- Each key stands in the table once. A key is in the table if the history has taken it, and it has the schema that the
history has offered first. -/
structure Reflects (table : Definitions) (history : List Access) : Prop where
  distinct : (Members.keys table.slots).Nodup
  keys : ∀ key, table.contains key = true ↔ key ∈ taken history
  schemas : ∀ key, table.get? key = firstOffered history key

namespace Reflects

variable {history : List Access}

theorem empty : Reflects empty [] where
  distinct := List.nodup_nil
  keys key := by simp [taken, contains, Members.contains, Members.get?, Definitions.empty]
  schemas key := rfl

/-- **One access.** What is asked of the table is put into the history, and the table reflects it. -/
theorem perform (h : table.Reflects history) (access : Access) :
    (access.perform table).2.Reflects (history ++ [access]) := by
  cases access with
  | reserve key =>
    refine ⟨?_, fun k => ?_, fun k => ?_⟩
    · cases hkey : table.contains key with
      | true =>
        rw [Access.perform, reserve_of_contains hkey]
        exact h.distinct
      | false =>
        rw [Access.perform, reserve_of_free hkey]
        exact Members.nodup_keys_insert h.distinct key .reserved
    · rw [mem_taken_append, ← h.keys, Access.takes, Option.some_inj, @eq_comm _ key k]
      exact contains_reserve
    · rw [firstOffered_append, ← h.schemas, Access.offers, Option.or_none]
      exact get?_reserve table key k
  | fill key schema =>
    refine ⟨?_, fun k => ?_, fun k => ?_⟩
    · rw [Access.perform, fill]
      split_ifs
      · exact h.distinct
      · exact Members.nodup_keys_insert h.distinct key _
    · rw [mem_taken_append, ← h.keys, Access.takes, Option.some_inj, @eq_comm _ key k]
      exact contains_fill
    · rw [firstOffered_append, ← h.schemas, Access.offers]
      exact get?_fill table key schema k
  | get key | size =>
    refine ⟨h.distinct, fun k => ?_, fun k => ?_⟩
    · rw [mem_taken_append, Access.takes]
      simpa [Access.perform] using h.keys k
    · rw [firstOffered_append, Access.offers, Option.or_none]
      exact h.schemas k

/-- There are as many slots as different keys were taken. -/
theorem size (h : table.Reflects history) : table.size = (taken history).dedup.length := by
  have hperm : (Members.keys table.slots).Perm (taken history).dedup := by
    rw [List.perm_ext_iff_of_nodup h.distinct (List.nodup_dedup _)]
    intro key
    rw [List.mem_dedup, ← h.keys, contains, Members.contains_iff]
  calc table.size
      = (Members.keys table.slots).length := (List.length_map ..).symm
    _ = (taken history).dedup.length := hperm.length_eq

/-- **One answer.** A table answers what is due after the history that it reflects. -/
theorem answer (h : table.Reflects history) (access : Access) : (access.perform table).1 = access.due history := by
  cases access with
  | reserve key =>
    have hfree : (!table.contains key) = decide (key ∉ taken history) := by
      rw [Bool.eq_iff_iff, Bool.not_eq_true', decide_eq_true_iff, ← h.keys, Bool.not_eq_true]
    rw [Access.perform, Access.due, fst_reserve, hfree]
  | fill key schema => rfl
  | get key => rw [Access.perform, Access.due, h.schemas]
  | size => rw [Access.perform, Access.due, h.size]

/-- What the table reflects along a run. -/
theorem after (h : table.Reflects history) (accesses : List Access) :
    (table.after accesses).Reflects (history ++ accesses) := by
  induction accesses generalizing table history with
  | nil => rwa [List.append_nil]
  | cons access rest ih =>
    have hrest := ih (h.perform access)
    rwa [List.append_assoc, List.singleton_append] at hrest

/-- The answers along a run. -/
theorem answers (h : table.Reflects history) (accesses : List Access) (i : Nat) :
    (table.answers accesses)[i]? = accesses[i]?.map (Access.due (history ++ accesses.take i)) := by
  induction accesses generalizing table history i with
  | nil => simp [Definitions.answers]
  | cons access rest ih =>
    cases i with
    | zero => simp [Definitions.answers, h.answer]
    | succ i =>
      have hrest := ih (h.perform access) i
      rwa [List.append_assoc, List.singleton_append] at hrest

end Reflects

end Definitions

open Definitions

/-- **The first writer wins.** Take any accesses to a fresh table. Each is answered with what is due after those before it: a
reservation succeeds exactly if its key was neither reserved nor filled; what is found under a key is the first schema
that it was filled with, and nothing if it was not filled, be it reserved or not; the size is the number of different keys
that were reserved or filled. In the end the sorted entries ascend strictly by the bytes of their keys, so that no key comes
twice, and they are the keys that were filled, each with its first schema. -/
theorem first_writer_wins (accesses : List Access) :
    (∀ i, (Definitions.empty.answers accesses)[i]? = accesses[i]?.map (Access.due (accesses.take i))) ∧
    Members.AscendingInBytes (Definitions.empty.after accesses).sorted ∧
    ∀ key schema, (key, schema) ∈ (Definitions.empty.after accesses).sorted ↔
      firstOffered accesses key = some schema := by
  have hfinal : (Definitions.empty.after accesses).Reflects accesses := Reflects.empty.after accesses
  have hascending : Members.Ascending (Definitions.empty.after accesses).sorted := Members.ascending_sortedByKey _
  refine ⟨Reflects.empty.answers accesses, Members.ascending_iff_bytes.1 hascending, fun key schema => ?_⟩
  rw [← Members.get?_eq_some_iff hascending.nodup, get?_sorted hfinal.distinct, hfinal.schemas]

/-- A key is filled without a reservation, one is filled twice, and one is never filled. -/
example :
    let accesses : List Access := [.reserve "b", .get "b", .fill "a" (.bool true), .reserve "a", .fill "b" .null,
      .fill "b" (.bool false), .reserve "c", .get "b", .size]
    Definitions.empty.answers accesses = [.free true, .found none, .filled, .free false, .filled, .filled, .free true,
        .found (some .null), .size 3] ∧
      (Definitions.empty.after accesses).sorted = [("a", .bool true), ("b", .null)] :=
  ⟨rfl, rfl⟩

end GraphSchema
