import GraphSchema.Proofs.Members
import GraphSchema.Json.Basic

/-!
Properties of values.

- `Number.InRange` : the integers of 64 bits, which are the ones that a text can hold.
- `Json.Fits` : the brackets of a value nest no deeper than some level, and its integers are in range.
- `Json.reals` : the numbers of a value that are no integers; `Json.Integral` : they are all negative zeros.
- `Json.Collapsed` : a value without repeated keys; `collapsed_collapse` : what a reader keeps is one.
-/

namespace GraphSchema

/-- whether a number is a float, or an integer that fits into 64 bits with or without a sign -/
def Number.InRange : Number → Prop
  | .int n => -9223372036854775808 ≤ n ∧ n < 18446744073709551616
  | .real _ => True

namespace Json

/-- At most `room` brackets are open at any place of the value, and its integers are in range. -/
inductive Fits : Nat → Json → Prop
  | null {room : Nat} : Fits room .null
  | bool {room : Nat} {b : Bool} : Fits room (.bool b)
  | num {room : Nat} {number : Number} (hrange : number.InRange) : Fits room (.num number)
  | str {room : Nat} {s : String} : Fits room (.str s)
  | arr {room : Nat} {items : List Json} (hinner : ∀ item ∈ items, Fits room item) : Fits (room + 1) (.arr items)
  | obj {room : Nat} {members : List (String × Json)} (hinner : ∀ member ∈ members, Fits room member.2) :
      Fits (room + 1) (.obj members)

mutual

/-- the numbers of a value that are no integers, in order -/
def reals : Json → List Float
  | .num (.real x) => [x]
  | .arr items => realsItems items
  | .obj members => realsMembers members
  | _ => []

def realsItems : List Json → List Float
  | [] => []
  | item :: rest => reals item ++ realsItems rest

def realsMembers : List (String × Json) → List Float
  | [] => []
  | (_, value) :: rest => reals value ++ realsMembers rest

end

theorem realsItems_eq (items : List Json) : realsItems items = items.flatMap reals := by
  induction items with
  | nil => rfl
  | cons item rest ih => rw [realsItems, ih, List.flatMap_cons]

theorem realsMembers_eq (members : List (String × Json)) : realsMembers members = members.flatMap (·.2.reals) := by
  induction members with
  | nil => rfl
  | cons member rest ih => rw [realsMembers, ih, List.flatMap_cons]

/-- Every number of the value is an integer, or a negative zero, which the reader takes for a float even where
it has neither a point nor an exponent. -/
def Integral (value : Json) : Prop :=
  ∀ x ∈ value.reals, x = -0.0

theorem Integral.item {items : List Json} (h : (Json.arr items).Integral) {item : Json} (hmem : item ∈ items) :
    item.Integral := by
  intro x hreal
  refine h x ?_
  rw [reals, realsItems_eq]
  exact List.mem_flatMap.2 ⟨item, hmem, hreal⟩

theorem Integral.member {members : List (String × Json)} (h : (Json.obj members).Integral) {member : String × Json}
    (hmem : member ∈ members) : member.2.Integral := by
  intro x hreal
  refine h x ?_
  rw [reals, realsMembers_eq]
  exact List.mem_flatMap.2 ⟨member, hmem, hreal⟩

/-! ## Repeated keys -/

/-- No object in the value repeats a key, so a reader keeps all of it. -/
def Collapsed (value : Json) : Prop :=
  value.collapse = value

theorem collapseItems_eq (items : List Json) : collapseItems items = items.map collapse := by
  induction items with
  | nil => rfl
  | cons item rest ih => rw [collapseItems, ih, List.map_cons]

theorem collapseMembers_eq (members : List (String × Json)) :
    collapseMembers members = members.map fun entry => (entry.1, entry.2.collapse) := by
  induction members with
  | nil => rfl
  | cons entry rest ih => rw [collapseMembers, ih, List.map_cons]

theorem collapsed_arr {items : List Json} (heach : ∀ item ∈ items, item.Collapsed) : (Json.arr items).Collapsed := by
  have hsame : collapseItems items = items := by
    rw [collapseItems_eq]
    exact (List.map_congr_left heach).trans (List.map_id items)
  rw [Collapsed, collapse, hsame]

theorem collapsed_obj {members : List (String × Json)} (hnames : (Members.keys members).Nodup)
    (heach : ∀ entry ∈ members, entry.2.Collapsed) : (Json.obj members).Collapsed := by
  have hsame : collapseMembers members = members := by
    rw [collapseMembers_eq]
    refine (List.map_congr_left fun entry hmem => ?_).trans (List.map_id members)
    exact Prod.ext rfl (heach entry hmem)
  have hkept : Members.ofList members = members := Members.insertAll_of_nodup hnames
  rw [Collapsed, collapse, hsame, hkept]

mutual

/-- **What a reader keeps** repeats no key. -/
theorem collapsed_collapse (value : Json) : value.collapse.Collapsed := by
  cases value with
  | arr items => exact collapsed_arr (collapsed_items items)
  | obj members =>
    refine collapsed_obj (Members.nodup_keys_ofList _) fun entry hmem => ?_
    rcases Members.mem_insertAll hmem with hnone | hmem
    · cases hnone
    · exact collapsed_members members entry hmem
  | _ => rfl

theorem collapsed_items (items : List Json) : ∀ item ∈ collapseItems items, item.Collapsed := by
  cases items with
  | nil => exact List.forall_mem_nil _
  | cons item rest => exact List.forall_mem_cons.2 ⟨collapsed_collapse item, collapsed_items rest⟩

theorem collapsed_members (members : List (String × Json)) : ∀ entry ∈ collapseMembers members, entry.2.Collapsed := by
  match members with
  | [] => exact List.forall_mem_nil _
  | (_, value) :: rest => exact List.forall_mem_cons.2 ⟨collapsed_collapse value, collapsed_members rest⟩

end

theorem Fits.collapse {room : Nat} {value : Json} (h : value.Fits room) : value.collapse.Fits room := by
  induction h with
  | null => exact .null
  | bool => exact .bool
  | num hrange => exact .num hrange
  | str => exact .str
  | arr hinner ih =>
    rw [Json.collapse, collapseItems_eq]
    exact .arr (List.forall_mem_map.2 ih)
  | obj hinner ih =>
    rw [Json.collapse, collapseMembers_eq]
    refine .obj fun entry hmem => ?_
    rcases Members.mem_insertAll hmem with hnone | hmem
    · cases hnone
    · obtain ⟨written, hwritten, rfl⟩ := List.mem_map.1 hmem
      exact ih written hwritten

end Json

end GraphSchema
