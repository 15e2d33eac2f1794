import Mathlib.Data.List.Perm.Basic
import GraphSchema.Proofs.ByteOrder

/-!
Sorting by keys, told apart into its two steps.

`sortedByKey` puts each entry into its place at once. The order of this is lost in the result, so sorting comes to the same
as a stable sort of the entries and then writing them one by one, where a key that comes again keeps its place and takes
the new value.

- `IsLast` : an entry behind which its key does not come again.
- `sortedByKey_unique` : order and values determine the result.
- `filter_mergeSort` : a stable sort leaves the entries of each key in their order.
- `ascending_ofList` : entries that are written in order leave strictly ascending keys.
- `sorting_keeps_last` : what sorting comes to, for any entries.
-/

namespace GraphSchema.Members

variable {α : Type} {entries members : Members α} {key : String} {value : α}

/-! ## The last entry of a key -/

/-- whether the entry stands in the list, with no entry of its key behind it -/
def IsLast (entries : List (String × α)) (key : String) (value : α) : Prop :=
  ∃ front back, entries = front ++ (key, value) :: back ∧ key ∉ keys back

theorem get?_reverse_eq_some_iff : get? entries.reverse key = some value ↔ IsLast entries key value := by
  unfold get?
  rw [List.lookup_eq_some_iff]
  constructor
  · rintro ⟨late, early, heq, hother⟩
    refine ⟨early.reverse, late.reverse, ?_, ?_⟩
    · rw [← List.reverse_inj, heq]
      simp
    · intro hmem
      obtain ⟨entry, hentry, rfl⟩ := List.mem_map.1 hmem
      simpa using hother entry (List.mem_reverse.1 hentry)
  · rintro ⟨front, back, rfl, hback⟩
    refine ⟨back.reverse, front.reverse, by simp, fun entry hentry => ?_⟩
    rw [bne_iff_ne]
    rintro rfl
    exact hback (mem_keys_of_mem (List.mem_reverse.1 hentry))

/-- What is found under a key depends on the entries of that key only. -/
theorem get?_filter (entries : List (String × α)) (key : String) :
    get? (entries.filter (·.1 = key)) key = get? entries key := by
  induction entries with
  | nil => rfl
  | cons entry rest ih =>
    obtain ⟨k, v⟩ := entry
    by_cases hk : k = key
    · rw [List.filter_cons_of_pos (by simpa using hk), get?_cons, get?_cons, if_pos hk.symm, if_pos hk.symm]
    · rw [List.filter_cons_of_neg (by simpa using hk), get?_cons, if_neg (Ne.symm hk), ih]

/-- So is the last entry of it. -/
theorem get?_reverse_congr {other : List (String × α)}
    (h : other.filter (·.1 = key) = entries.filter (·.1 = key)) : get? other.reverse key = get? entries.reverse key := by
  rw [← get?_filter, List.filter_reverse, h, ← List.filter_reverse, get?_filter]

/-! ## Order and values are enough -/

/-- Members in order are the same if they hold the same values. -/
theorem Ascending.ext {other : Members α} (h : Ascending members) (h' : Ascending other)
    (hsame : ∀ key, get? members key = get? other key) : members = other := by
  have hentries : ∀ {entries : Members α}, Ascending entries → entries.Pairwise fun a b => a.1 < b.1 :=
    fun hascending => List.pairwise_map.1 hascending
  refine List.Perm.eq_of_pairwise ?_ (hentries h) (hentries h') (perm_of_get?_eq h.nodup h'.nodup hsame)
  intro a b _ _ hab hba
  exact absurd hba (String.lt_asymm hab)

/-- **Order and values.** The sorted entries are the only members in order that hold, under each key, its last value. -/
theorem sortedByKey_unique :
    members = sortedByKey entries ↔ Ascending members ∧ ∀ key, get? members key = get? entries.reverse key := by
  constructor
  · rintro rfl
    exact ⟨ascending_sortedByKey entries, get?_sortedByKey entries⟩
  · rintro ⟨hascending, hvalues⟩
    apply hascending.ext (ascending_sortedByKey entries)
    intro key
    rw [hvalues, get?_sortedByKey]

theorem mem_keys_sortedByKey : key ∈ keys (sortedByKey entries) ↔ key ∈ keys entries := by
  have hreverse : key ∈ keys entries.reverse ↔ key ∈ keys entries := by
    rw [keys, List.map_reverse, List.mem_reverse, keys]
  rw [← not_iff_not, ← get?_eq_none_iff, get?_sortedByKey, get?_eq_none_iff, hreverse]

/-! ## A stable sort -/

/-- whether the key of an entry is not behind that of another one, byte by byte -/
def keyLe (a b : String × α) : Bool :=
  Text.bytes a.1 ≤ Text.bytes b.1

theorem keyLe_iff {a b : String × α} : keyLe a b = true ↔ a.1 ≤ b.1 := by
  rw [keyLe, decide_eq_true_iff, ← List.not_lt, Text.bytes_lt_iff, String.not_lt]

theorem keyLe_trans (a b c : String × α) (hab : keyLe a b = true) (hbc : keyLe b c = true) : keyLe a c = true := by
  rw [keyLe_iff] at hab hbc ⊢
  exact String.le_trans hab hbc

theorem keyLe_total (a b : String × α) : (keyLe a b || keyLe b a) = true := by
  rw [Bool.or_eq_true, keyLe_iff, keyLe_iff]
  exact String.le_total a.1 b.1

/-- **Stability.** The entries of one key are in order whatever their values, so a stable sort leaves them as they are. -/
theorem filter_mergeSort (entries : List (String × α)) (key : String) :
    (entries.mergeSort keyLe).filter (·.1 = key) = entries.filter (·.1 = key) := by
  have hordered : (entries.filter (·.1 = key)).Pairwise fun a b => keyLe a b = true := by
    apply List.pairwise_of_forall_mem_list
    intro a ha b hb
    have hka : a.1 = key := by simpa using (List.mem_filter.1 ha).2
    have hkb : b.1 = key := by simpa using (List.mem_filter.1 hb).2
    have hle : b.1 ≤ b.1 := String.le_refl b.1
    exact keyLe_iff.2 (hka.trans hkb.symm ▸ hle)
  have hkept : (entries.filter (·.1 = key)).Sublist (entries.mergeSort keyLe) :=
    List.sublist_mergeSort keyLe_trans keyLe_total hordered List.filter_sublist
  have hsublist : (entries.filter (·.1 = key)).Sublist ((entries.mergeSort keyLe).filter (·.1 = key)) := by
    have hfiltered := hkept.filter (·.1 = key)
    rwa [List.filter_filter, List.filter_congr fun entry _ => Bool.and_self _] at hfiltered
  have hlength := ((List.mergeSort_perm entries keyLe).filter (·.1 = key)).length_eq
  exact (hsublist.eq_of_length hlength.symm).symm

/-! ## Writing entries that are in order -/

theorem get?_insertAll (members : Members α) (entries : List (String × α)) (key : String) :
    get? (insertAll members entries) key = (get? entries.reverse key).or (get? members key) := by
  induction entries generalizing members with
  | nil => rfl
  | cons head rest ih =>
    rw [insertAll_cons, ih, get?_insert, List.reverse_cons, get?_append, get?_cons, Option.or_assoc]
    split_ifs <;> rfl

/-- Of several entries with one key the last one stays. -/
theorem get?_ofList (entries : List (String × α)) (key : String) : get? (ofList entries) key = get? entries.reverse key := by
  rw [ofList, get?_insertAll]
  exact Option.or_none

/-- A key that is not behind any other one is new at the end or is there. -/
theorem Ascending.insert (h : Ascending members) (hlast : ∀ k ∈ keys members, k ≤ key) (value : α) :
    Ascending (insert members key value) := by
  by_cases hkey : key ∈ keys members
  · rwa [Ascending, keys_insert_of_mem hkey]
  · rw [insert_of_notMem hkey, Ascending, keys, List.map_append, List.pairwise_append]
    refine ⟨h, List.pairwise_singleton _ _, ?_⟩
    intro k hk other hother
    have hsame : other = key := List.mem_singleton.1 hother
    have hafter : ¬ key ≤ k := fun hle => hkey (String.le_antisymm (hlast k hk) hle ▸ hk)
    rw [hsame]
    exact String.not_le.1 hafter

/-- Entries that are in order are written behind each other. -/
theorem ascending_ofList (h : entries.Pairwise fun a b => a.1 ≤ b.1) : Ascending (ofList entries) := by
  suffices hgen : ∀ members : Members α, Ascending members → (∀ k ∈ keys members, ∀ entry ∈ entries, k ≤ entry.1) →
      Ascending (insertAll members entries) from hgen [] List.Pairwise.nil fun k hk => absurd hk List.not_mem_nil
  induction entries with
  | nil => exact fun members hascending _ => hascending
  | cons head rest ih =>
    intro members hascending hbefore
    obtain ⟨hhead, hrest⟩ := List.pairwise_cons.1 h
    rw [insertAll_cons]
    apply ih hrest
    · exact hascending.insert (fun k hk => hbefore k hk head List.mem_cons_self) head.2
    · intro k hk entry hentry
      rcases mem_keys_insert.1 hk with rfl | hk
      · exact hhead entry hentry
      · exact hbefore k hk entry (List.mem_cons_of_mem _ hentry)

/-- **Two steps.** To sort by keys is to sort stably, and then to write the entries one by one. -/
theorem sortedByKey_eq_ofList (entries : List (String × α)) :
    sortedByKey entries = ofList (entries.mergeSort keyLe) := by
  symm
  rw [sortedByKey_unique]
  constructor
  · apply ascending_ofList
    exact (List.pairwise_mergeSort keyLe_trans keyLe_total entries).imp keyLe_iff.1
  · intro key
    rw [get?_ofList, get?_reverse_congr (filter_mergeSort entries key)]

end GraphSchema.Members

namespace GraphSchema

open Members

variable {α : Type}

/-- **Sorting keeps the last.** Whatever the entries, however often a key comes: the sorted members ascend strictly by the
bytes of their keys. They have the keys of the entries, and each has the value of the last entry with its key. Entries that
are moved around, such that those of each key stay in their order, are sorted to the same. What is sorted stays as it is
when it is sorted again. And all this is a stable sort by the bytes of the keys, with the entries then written one by one
to members, where a key that is there keeps its place and takes the new value. -/
theorem sorting_keeps_last (entries : List (String × α)) :
    AscendingInBytes (sortedByKey entries) ∧
    (∀ key, key ∈ keys (sortedByKey entries) ↔ key ∈ keys entries) ∧
    (∀ key value, (key, value) ∈ sortedByKey entries ↔
      ∃ front back, entries = front ++ (key, value) :: back ∧ key ∉ keys back) ∧
    (∀ moved : List (String × α), (∀ key, moved.filter (·.1 = key) = entries.filter (·.1 = key)) →
      sortedByKey moved = sortedByKey entries) ∧
    sortedByKey (sortedByKey entries) = sortedByKey entries ∧
    sortedByKey entries = ofList (entries.mergeSort fun a b => Text.bytes a.1 ≤ Text.bytes b.1) := by
  have hascending := ascending_sortedByKey entries
  refine ⟨ascending_iff_bytes.1 hascending, fun key => mem_keys_sortedByKey, fun key value => ?_, fun moved hmoved => ?_,
    sortedByKey_of_ascending hascending, sortedByKey_eq_ofList entries⟩
  · rw [← get?_eq_some_iff hascending.nodup, get?_sortedByKey]
    exact get?_reverse_eq_some_iff
  · rw [sortedByKey_unique]
    refine ⟨ascending_sortedByKey moved, fun key => ?_⟩
    rw [get?_sortedByKey, get?_reverse_congr (hmoved key)]

/-- Entries of three keys, one of them three times and one twice, and one whose character comes behind all of one byte. -/
def scattered : List (String × Nat) :=
  [("b", 1), ("é", 2), ("a", 3), ("b", 4), ("é", 5), ("b", 6)]

/-- The same entries with those of one key gathered. -/
theorem sorting_keeps_last_scattered :
    let moved : List (String × Nat) := [("é", 2), ("é", 5), ("b", 1), ("b", 4), ("b", 6), ("a", 3)]
    (∀ key, moved.filter (·.1 = key) = scattered.filter (·.1 = key)) ∧ sortedByKey moved = sortedByKey scattered ∧
      ("b", 6) ∈ sortedByKey scattered := by
  intro moved
  obtain ⟨-, -, hlast, hmoves, -⟩ := sorting_keeps_last scattered
  have hmoved : ∀ key, moved.filter (·.1 = key) = scattered.filter (·.1 = key) := by
    intro key
    by_cases hb : "b" = key
    · subst hb
      decide
    by_cases he : "é" = key
    · subst he
      decide
    by_cases ha : "a" = key
    · subst ha
      decide
    · simp [moved, scattered, hb, he, ha]
  exact ⟨hmoved, hmoves moved hmoved, (hlast "b" 6).2 ⟨scattered.take 5, [], rfl, List.not_mem_nil⟩⟩

example : sortedByKey scattered = [("a", 3), ("b", 6), ("é", 5)] := by decide

end GraphSchema
