/-!
Ordered members: a list of keys and values that keeps the order in which keys were first written.

- `Members.insert` changes a value in place and appends a new key (`get?_insert`).
- `Members.sortedByKey` is the one list with ascending keys that holds, for each key, its last value.
-/

namespace GraphSchema

/-- keys and values in the order of their first writing -/
abbrev Members (α : Type) := List (String × α)

namespace Members

variable {α : Type}

/-- the value under a key -/
def get? (members : Members α) (key : String) : Option α :=
  List.lookup key members

/-- whether a key is present -/
def contains (members : Members α) (key : String) : Bool :=
  (get? members key).isSome

/-- the keys, in order -/
def keys (members : Members α) : List String :=
  members.map Prod.fst

/-- Writes a value: a present key keeps its position, a new key goes to the end. -/
def insert : Members α → String → α → Members α
  | [], key, value => [(key, value)]
  | (k, v) :: rest, key, value =>
    if k = key then (k, value) :: rest else (k, v) :: insert rest key value

/-- Writes a list of entries, the first one first. -/
def insertAll (members : Members α) (entries : List (String × α)) : Members α :=
  entries.foldl (fun acc entry => insert acc entry.1 entry.2) members

/-- the members that a list of entries leaves behind -/
def ofList (entries : List (String × α)) : Members α :=
  insertAll [] entries

/-- Writes a value into members whose keys ascend: before the first larger key, or over an equal one. -/
def insertSorted : Members α → String → α → Members α
  | [], key, value => [(key, value)]
  | (k, v) :: rest, key, value =>
    if key < k then (key, value) :: (k, v) :: rest
    else if k = key then (k, value) :: rest
    else (k, v) :: insertSorted rest key value

/-- The entries by ascending key; of several entries with one key the last one counts. -/
def sortedByKey (entries : List (String × α)) : Members α :=
  entries.foldl (fun acc entry => insertSorted acc entry.1 entry.2) []

theorem get?_cons (k : String) (v : α) (rest : Members α) (key : String) :
    get? ((k, v) :: rest) key = if key = k then some v else get? rest key := by
  unfold get?
  rw [List.lookup_cons]
  by_cases h : key = k
  · simp [h]
  · simp [h, beq_eq_false_iff_ne.2 h]

theorem get?_insert (members : Members α) (key : String) (value : α) (k : String) :
    get? (insert members key value) k = if k = key then some value else get? members k := by
  induction members with
  | nil => exact get?_cons key value [] k
  | cons entry rest ih =>
    obtain ⟨k', v'⟩ := entry
    by_cases hk : k' = key
    · rw [insert, if_pos hk, get?_cons, get?_cons, hk]
      by_cases h : k = key
      · rw [if_pos h, if_pos h]
      · rw [if_neg h, if_neg h, if_neg h]
    · rw [insert, if_neg hk, get?_cons, get?_cons, ih]
      by_cases h : k = k'
      · have hne : k ≠ key := fun he => hk (h ▸ he)
        rw [if_pos h, if_neg hne, if_pos h]
      · rw [if_neg h, if_neg h]

end Members

end GraphSchema
