import Mathlib.Data.List.Nodup
import Mathlib.Tactic.Common
import GraphSchema.Members

/-!
Laws of ordered members.

- `get?_eq_some_iff`: in a list without repeated keys, looking up is membership.
- `insertAll_of_nodup`: writing entries of new and different keys appends them.
- `ascending_sortedByKey`, `get?_sortedByKey`: sorting gives strictly ascending keys, each with its last value, and
  leaves members alone that are in order (`sortedByKey_of_ascending`).
- `map_insert`, `mapValues_sortedByKey`: values can be changed before or after writing and sorting.
-/

namespace GraphSchema.Members

variable {α : Type}

/-! ## Looking up -/

theorem get?_append (front back : Members α) (key : String) :
    get? (front ++ back) key = (get? front key).or (get? back key) :=
  List.lookup_append

theorem contains_iff {members : Members α} {key : String} :
    contains members key = true ↔ key ∈ keys members := by
  unfold contains get? keys
  rw [List.lookup_isSome_iff, List.mem_map]
  constructor
  · rintro ⟨entry, hm, he⟩
    exact ⟨entry, hm, (beq_iff_eq.1 he).symm⟩
  · rintro ⟨entry, hm, rfl⟩
    exact ⟨entry, hm, beq_self_eq_true _⟩

theorem get?_eq_none_iff {members : Members α} {key : String} :
    get? members key = none ↔ key ∉ keys members := by
  rw [← contains_iff, contains]
  cases get? members key <;> simp

theorem mem_of_get? {members : Members α} {key : String} {value : α}
    (h : get? members key = some value) : (key, value) ∈ members := by
  obtain ⟨front, back, rfl, -⟩ := List.lookup_eq_some_iff.1 h
  exact List.mem_append_right _ List.mem_cons_self

theorem mem_keys_of_mem {members : Members α} {key : String} {value : α} (h : (key, value) ∈ members) :
    key ∈ keys members :=
  List.mem_map.2 ⟨(key, value), h, rfl⟩

/-- Where no key is repeated, a member is found under its key. -/
theorem get?_eq_some_iff {members : Members α} (hn : (keys members).Nodup) {key : String} {value : α} :
    get? members key = some value ↔ (key, value) ∈ members := by
  refine ⟨mem_of_get?, fun hm => ?_⟩
  induction members with
  | nil => simp at hm
  | cons entry rest ih =>
    obtain ⟨k, v⟩ := entry
    obtain ⟨hk, hrest⟩ := List.nodup_cons.1 hn
    rw [get?_cons]
    rcases List.mem_cons.1 hm with he | hm
    · cases he
      exact if_pos rfl
    · have hne : key ≠ k := fun he => hk (he ▸ mem_keys_of_mem hm)
      rw [if_neg hne]
      exact ih hrest hm

/-- Members without repeated keys that hold the same values under all keys differ in order only. -/
theorem perm_of_get?_eq {first second : Members α} (hdistinct : (keys first).Nodup)
    (hdistinctOther : (keys second).Nodup)
    (hsame : ∀ key, get? first key = get? second key) : first.Perm second := by
  refine (List.perm_ext_iff_of_nodup (List.Nodup.of_map _ hdistinct) (List.Nodup.of_map _ hdistinctOther)).2 ?_
  rintro ⟨key, value⟩
  rw [← get?_eq_some_iff hdistinct, ← get?_eq_some_iff hdistinctOther, hsame key]

/-! ## Writing -/

theorem insert_of_notMem {members : Members α} {key : String} (h : key ∉ keys members) (value : α) :
    insert members key value = members ++ [(key, value)] := by
  induction members with
  | nil => rfl
  | cons entry rest ih =>
    obtain ⟨k, v⟩ := entry
    obtain ⟨hk, hrest⟩ : key ≠ k ∧ key ∉ keys rest := by simpa [keys] using h
    rw [insert, if_neg hk.symm, ih hrest]
    rfl

theorem keys_insert_of_mem {members : Members α} {key : String} (h : key ∈ keys members) (value : α) :
    keys (insert members key value) = keys members := by
  induction members with
  | nil => simp [keys] at h
  | cons entry rest ih =>
    obtain ⟨k, v⟩ := entry
    by_cases hk : k = key
    · simp [insert, keys, hk]
    · have hrest : key ∈ keys rest := by simpa [keys, Ne.symm hk] using h
      rw [insert, if_neg hk]
      exact congrArg (k :: ·) (ih hrest)

theorem mem_keys_insert {members : Members α} {key k : String} {value : α} :
    k ∈ keys (insert members key value) ↔ k = key ∨ k ∈ keys members := by
  by_cases h : key ∈ keys members
  · rw [keys_insert_of_mem h]
    exact ⟨Or.inr, fun hk => hk.elim (fun he => he ▸ h) id⟩
  · rw [insert_of_notMem h]
    simp [keys, or_comm]

theorem mem_insert {members : Members α} {key : String} {value : α} {entry : String × α}
    (h : entry ∈ insert members key value) : entry = (key, value) ∨ entry ∈ members := by
  induction members with
  | nil => exact Or.inl (by simpa [insert] using h)
  | cons head rest ih =>
    obtain ⟨k, v⟩ := head
    by_cases hk : k = key
    · rw [insert, if_pos hk] at h
      rcases List.mem_cons.1 h with he | hm
      · exact Or.inl (hk ▸ he)
      · exact Or.inr (List.mem_cons_of_mem _ hm)
    · rw [insert, if_neg hk] at h
      rcases List.mem_cons.1 h with he | hm
      · exact Or.inr (he ▸ List.mem_cons_self)
      · exact (ih hm).imp_right (List.mem_cons_of_mem _)

theorem nodup_keys_insert {members : Members α} (hn : (keys members).Nodup) (key : String) (value : α) :
    (keys (insert members key value)).Nodup := by
  by_cases h : key ∈ keys members
  · rwa [keys_insert_of_mem h]
  · rw [insert_of_notMem h]
    simpa [keys, List.nodup_append] using ⟨hn, fun k v hm he => h (he ▸ mem_keys_of_mem hm)⟩

theorem insertAll_cons (members : Members α) (entry : String × α) (entries : List (String × α)) :
    insertAll members (entry :: entries) = insertAll (insert members entry.1 entry.2) entries := rfl

theorem mem_insertAll {members : Members α} {entries : List (String × α)} {entry : String × α}
    (h : entry ∈ insertAll members entries) : entry ∈ members ∨ entry ∈ entries := by
  induction entries generalizing members with
  | nil => exact Or.inl h
  | cons head rest ih =>
    rw [insertAll_cons] at h
    rcases ih h with hm | hm
    · rcases mem_insert hm with he | hm
      · exact Or.inr (he ▸ List.mem_cons_self)
      · exact Or.inl hm
    · exact Or.inr (List.mem_cons_of_mem _ hm)

theorem nodup_keys_insertAll {members : Members α} (hn : (keys members).Nodup) (entries : List (String × α)) :
    (keys (insertAll members entries)).Nodup := by
  induction entries generalizing members with
  | nil => exact hn
  | cons head rest ih => exact ih (nodup_keys_insert hn head.1 head.2)

theorem nodup_keys_ofList (entries : List (String × α)) : (keys (ofList entries)).Nodup := by
  have hnil : (keys ([] : Members α)).Nodup := List.nodup_nil
  exact nodup_keys_insertAll hnil entries

/-- Entries whose keys are new and different go to the end as they stand. -/
theorem insertAll_of_nodup {members : Members α} {entries : List (String × α)}
    (hn : (keys (members ++ entries)).Nodup) : insertAll members entries = members ++ entries := by
  induction entries generalizing members with
  | nil => simp [insertAll]
  | cons head rest ih =>
    have hnew : head.1 ∉ keys members := by
      intro hm
      rw [keys, List.map_append, List.nodup_append] at hn
      exact hn.2.2 _ hm _ List.mem_cons_self rfl
    have happ : members ++ head :: rest = (members ++ [head]) ++ rest := by simp
    rw [insertAll_cons, insert_of_notMem hnew, happ]
    exact ih (happ ▸ hn)

/-! ## Sorting -/

/-- whether keys ascend strictly -/
def Ascending (members : Members α) : Prop := (keys members).Pairwise (· < ·)

theorem Ascending.nodup {members : Members α} (h : Ascending members) : (keys members).Nodup :=
  List.Pairwise.imp String.ne_of_lt h

theorem Ascending.get?_of_mem {members : Members α} (h : Ascending members) {entry : String × α}
    (hm : entry ∈ members) : get? members entry.1 = some entry.2 :=
  (get?_eq_some_iff h.nodup).2 hm

theorem get?_insertSorted (members : Members α) (key : String) (value : α) (k : String) :
    get? (insertSorted members key value) k = if k = key then some value else get? members k := by
  induction members with
  | nil => exact get?_cons key value [] k
  | cons entry rest ih =>
    obtain ⟨k', v'⟩ := entry
    by_cases hlt : key < k'
    · rw [insertSorted, if_pos hlt, get?_cons]
    by_cases heq : k' = key
    · rw [insertSorted, if_neg hlt, if_pos heq, get?_cons, get?_cons, heq]
      split_ifs <;> rfl
    · rw [insertSorted, if_neg hlt, if_neg heq, get?_cons, get?_cons, ih]
      by_cases hk : k = k'
      · have hne : k ≠ key := fun h => heq (hk ▸ h)
        rw [if_pos hk, if_neg hne, if_pos hk]
      · rw [if_neg hk, if_neg hk]

theorem mem_keys_insertSorted {members : Members α} {key k : String} {value : α} :
    k ∈ keys (insertSorted members key value) ↔ k = key ∨ k ∈ keys members := by
  have h := get?_insertSorted members key value k
  by_cases hk : k = key
  · rw [if_pos hk] at h
    exact iff_of_true (mem_keys_of_mem (mem_of_get? h)) (Or.inl hk)
  · rw [if_neg hk] at h
    rw [← not_iff_not, ← get?_eq_none_iff, h, get?_eq_none_iff]
    simp [hk]

theorem ascending_insertSorted {members : Members α} (h : Ascending members) (key : String) (value : α) :
    Ascending (insertSorted members key value) := by
  induction members with
  | nil => exact List.pairwise_singleton _ _
  | cons entry rest ih =>
    obtain ⟨k, v⟩ := entry
    obtain ⟨hk, hrest⟩ := List.pairwise_cons.1 h
    unfold insertSorted
    split_ifs with hlt heq
    · refine List.pairwise_cons.2 ⟨fun k' hk' => ?_, h⟩
      rcases List.mem_cons.1 hk' with rfl | hm
      · exact hlt
      · exact String.lt_trans hlt (hk k' hm)
    · exact h
    · refine List.pairwise_cons.2 ⟨fun k' hk' => ?_, ih hrest⟩
      rcases mem_keys_insertSorted.1 hk' with rfl | hm
      · -- neither smaller nor equal: the new key is larger
        exact Std.not_le.1 fun hle => heq (String.le_antisymm (String.not_lt.1 hlt) hle)
      · exact hk k' hm

/-- **Order.** Sorted members have strictly ascending keys. -/
theorem ascending_sortedByKey (entries : List (String × α)) : Ascending (sortedByKey entries) := by
  suffices hgen : ∀ acc : Members α, Ascending acc →
      Ascending (entries.foldl (fun acc entry => insertSorted acc entry.1 entry.2) acc) from
    hgen [] List.Pairwise.nil
  induction entries with
  | nil => exact fun acc h => h
  | cons head rest ih => exact fun acc h => ih _ (ascending_insertSorted h head.1 head.2)

/-- **Values.** Of several entries with one key the last one is found. -/
theorem get?_sortedByKey (entries : List (String × α)) (key : String) :
    get? (sortedByKey entries) key = get? entries.reverse key := by
  suffices hgen : ∀ acc : Members α,
      get? (entries.foldl (fun acc entry => insertSorted acc entry.1 entry.2) acc) key =
        (get? entries.reverse key).or (get? acc key) by
    rw [sortedByKey, hgen]
    exact Option.or_none
  induction entries with
  | nil => exact fun acc => rfl
  | cons head rest ih =>
    intro acc
    rw [List.foldl_cons, ih, get?_insertSorted, List.reverse_cons, get?_append, get?_cons, Option.or_assoc]
    split_ifs <;> rfl

theorem get?_sortedByKey_of_nodup {entries : List (String × α)} (hn : (keys entries).Nodup) (key : String) :
    get? (sortedByKey entries) key = get? entries key := by
  have hr : (keys entries.reverse).Nodup := by
    rw [keys, List.map_reverse]
    exact (List.reverse_perm _).nodup_iff.2 hn
  rw [get?_sortedByKey]
  ext value
  rw [get?_eq_some_iff hr, get?_eq_some_iff hn, List.mem_reverse]

theorem mem_of_mem_sortedByKey {entries : List (String × α)} {entry : String × α}
    (h : entry ∈ sortedByKey entries) : entry ∈ entries := by
  have hget := (ascending_sortedByKey entries).get?_of_mem h
  rw [get?_sortedByKey] at hget
  exact List.mem_reverse.1 (mem_of_get? hget)

/-- A key behind all others goes to the end. -/
theorem insertSorted_of_lt {members : Members α} {key : String} (h : ∀ k ∈ keys members, k < key) (value : α) :
    insertSorted members key value = members ++ [(key, value)] := by
  induction members with
  | nil => rfl
  | cons entry rest ih =>
    obtain ⟨k, v⟩ := entry
    have hlt : k < key := h k List.mem_cons_self
    rw [insertSorted, if_neg (String.lt_asymm hlt), if_neg (String.ne_of_lt hlt)]
    rw [ih fun k' hk' => h k' (List.mem_cons_of_mem _ hk')]
    rfl

/-- Sorting leaves members alone that are in order. -/
theorem sortedByKey_of_ascending {members : Members α} (h : Ascending members) : sortedByKey members = members := by
  suffices hgen : ∀ front : Members α, Ascending (front ++ members) →
      members.foldl (fun acc entry => insertSorted acc entry.1 entry.2) front = front ++ members from hgen [] h
  induction members with
  | nil => exact fun front _ => (List.append_nil front).symm
  | cons entry rest ih =>
    intro front hfront
    have hlt : ∀ k ∈ keys front, k < entry.1 := by
      intro k hk
      rw [Ascending, keys, List.map_append, List.pairwise_append] at hfront
      exact hfront.2.2 k hk entry.1 List.mem_cons_self
    rw [List.foldl_cons, insertSorted_of_lt hlt, ih (List.Pairwise.of_cons h), List.append_assoc]
    · rfl
    · rwa [List.append_assoc]

theorem sortedByKey_eq_nil_iff {entries : List (String × α)} : sortedByKey entries = [] ↔ entries = [] := by
  constructor
  · intro hnil
    rw [List.eq_nil_iff_forall_not_mem]
    intro entry hm
    have hget := get?_sortedByKey entries entry.1
    rw [hnil] at hget
    have hnone := get?_eq_none_iff.1 hget.symm
    exact hnone (List.mem_map_of_mem (List.mem_reverse.2 hm))
  · rintro rfl
    rfl

/-! ## Changing values -/

section

variable {β : Type} (change : String → α → β)

/-- Changing the values of members, by their keys, and writing a member can be swapped. -/
theorem map_insert (members : Members α) (key : String) (value : α) :
    (insert members key value).map (fun (k, v) => (k, change k v)) =
      insert (members.map fun (k, v) => (k, change k v)) key (change key value) := by
  induction members with
  | nil => rfl
  | cons entry rest ih =>
    obtain ⟨k, v⟩ := entry
    simp only [insert, List.map_cons]
    split_ifs with hk
    · rw [hk]; rfl
    · rw [List.map_cons, ih]

theorem map_ofList (entries : List (String × α)) :
    (ofList entries).map (fun (k, v) => (k, change k v)) = ofList (entries.map fun (k, v) => (k, change k v)) := by
  suffices h : ∀ members : Members α, (insertAll members entries).map (fun (k, v) => (k, change k v)) =
      insertAll (members.map fun (k, v) => (k, change k v)) (entries.map fun (k, v) => (k, change k v)) from h []
  induction entries with
  | nil => intro members; rfl
  | cons entry rest ih =>
    intro members
    rw [insertAll_cons, ih, map_insert]
    rfl

theorem get?_map (members : Members α) (key : String) :
    get? (members.map fun (k, v) => (k, change k v)) key = (get? members key).map (change key) := by
  induction members with
  | nil => rfl
  | cons entry rest ih =>
    obtain ⟨k, v⟩ := entry
    rw [List.map_cons, get?_cons, get?_cons, ih]
    split_ifs with hk
    · rw [hk]; rfl
    · rfl

end

/-- the members with their values changed -/
def mapValues {β : Type} (f : α → β) (members : Members α) : Members β :=
  members.map fun (key, value) => (key, f value)

section

variable {β : Type} (f : α → β)

theorem keys_mapValues (members : Members α) : keys (members.mapValues f) = keys members := by
  rw [keys, mapValues, List.map_map]
  rfl

theorem mapValues_insert (members : Members α) (key : String) (value : α) :
    (insert members key value).mapValues f = insert (members.mapValues f) key (f value) :=
  map_insert (fun _ => f) members key value

theorem mapValues_ofList (entries : List (String × α)) :
    (ofList entries).mapValues f = ofList (mapValues f entries) :=
  map_ofList (fun _ => f) entries

theorem get?_mapValues (members : Members α) (key : String) :
    get? (members.mapValues f) key = (get? members key).map f :=
  get?_map (fun _ => f) members key

theorem contains_mapValues (members : Members α) (key : String) :
    contains (members.mapValues f) key = contains members key := by
  rw [contains, get?_mapValues, Option.isSome_map, contains]

theorem mapValues_insertSorted (members : Members α) (key : String) (value : α) :
    (insertSorted members key value).mapValues f = insertSorted (members.mapValues f) key (f value) := by
  induction members with
  | nil => rfl
  | cons entry rest ih =>
    obtain ⟨k, v⟩ := entry
    simp only [mapValues] at ih
    simp only [insertSorted, mapValues, List.map_cons]
    split_ifs with hlt heq
    · rfl
    · rfl
    · rw [List.map_cons, ih]

theorem mapValues_sortedByKey (entries : List (String × α)) :
    (sortedByKey entries).mapValues f = sortedByKey (mapValues f entries) := by
  suffices h : ∀ members : Members α,
      mapValues f (entries.foldl (fun acc entry => insertSorted acc entry.1 entry.2) members) =
        (mapValues f entries).foldl (fun acc entry => insertSorted acc entry.1 entry.2) (members.mapValues f) from
    h []
  induction entries with
  | nil => exact fun members => rfl
  | cons entry rest ih =>
    intro members
    rw [List.foldl_cons, ih, mapValues_insertSorted]
    rfl

end

end GraphSchema.Members
