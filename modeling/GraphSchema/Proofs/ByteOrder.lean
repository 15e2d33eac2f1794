import Mathlib.Data.List.Basic
import Mathlib.Tactic.Common
import GraphSchema.Proofs.Members
import GraphSchema.Text.Bytes

/-!
Texts are ordered by their characters. Their bytes in UTF-8 give the same order.

- `encodeChar_lt`: a smaller character has smaller bytes, whatever follows both.
- `bytes_lt_iff`: one text is smaller than another exactly if its bytes are.
- `Members.ascending_iff_bytes`: keys that ascend, ascend in the order of their bytes.
-/

namespace GraphSchema.Text

/-- Lists of bytes are compared at their heads, and behind them only if the heads are equal. -/
theorem cons_lt_cons {m n : Nat} (hm : m < 256) (hn : n < 256) (hle : m ≤ n) {front back : List UInt8}
    (h : m = n → front < back) : UInt8.ofNat m :: front < UInt8.ofNat n :: back := by
  rw [List.cons_lt_cons_iff]
  rcases Nat.lt_or_eq_of_le hle with hlt | heq
  · left
    rw [UInt8.lt_iff_toNat_lt, UInt8.toNat_ofNat', UInt8.toNat_ofNat']
    omega
  · exact Or.inr ⟨congrArg UInt8.ofNat heq, h heq⟩

/-- A smaller character has smaller bytes, whatever follows both. -/
theorem encodeChar_lt {c d : Char} (h : c < d) (front back : List UInt8) :
    String.utf8EncodeChar c ++ front < String.utf8EncodeChar d ++ back := by
  have hlt : c.val.toNat < d.val.toNat := h
  have hd : d.val.toNat < 1114112 := by
    rcases d.valid with h | h
    · exact Nat.lt_trans h (by decide)
    · exact h.2
  unfold String.utf8EncodeChar
  generalize c.val.toNat = v at *
  generalize d.val.toNat = w at *
  dsimp only
  -- Either the first bytes differ, or both take the same number of bytes and a later digit of `v` is smaller.
  split_ifs
  all_goals
    simp only [List.cons_append, List.nil_append]
    repeat
      apply cons_lt_cons (by omega) (by omega) (by omega)
      intro _
    omega

theorem nil_lt_bytes (d : Char) (back : List UInt8) : [] < String.utf8EncodeChar d ++ back := by
  have hpos : 0 < (String.utf8EncodeChar d).length := by
    rw [String.length_utf8EncodeChar]
    exact Char.utf8Size_pos d
  cases hd : String.utf8EncodeChar d with
  | nil => simp [hd] at hpos
  | cons first rest => exact List.nil_lt_cons first (rest ++ back)

theorem bytes_lt_of_lt {a b : String} (h : a < b) : bytes a < bytes b := by
  have hlists : a.toList < b.toList := h
  unfold bytes
  generalize a.toList = front at *
  generalize b.toList = back at *
  induction front generalizing back with
  | nil =>
    cases back with
    | nil => exact absurd hlists (List.lt_irrefl [])
    | cons d back => exact nil_lt_bytes d (back.flatMap String.utf8EncodeChar)
  | cons c front ih =>
    cases back with
    | nil => exact absurd hlists (List.not_lt_nil _)
    | cons d back =>
      rw [List.flatMap_cons, List.flatMap_cons]
      rcases List.cons_lt_cons_iff.1 hlists with hlt | ⟨rfl, htail⟩
      · exact encodeChar_lt hlt _ _
      · exact List.append_left_lt (ih back htail)

/-- **Order.** One text is smaller than another exactly if its bytes are. -/
theorem bytes_lt_iff {a b : String} : bytes a < bytes b ↔ a < b := by
  constructor
  · intro h
    by_contra hnot
    by_cases hlt : b < a
    · exact List.lt_asymm h (bytes_lt_of_lt hlt)
    · have heq : a = b := String.le_antisymm (String.not_lt.1 hlt) (String.not_lt.1 hnot)
      rw [heq] at h
      exact List.lt_irrefl _ h
  · exact bytes_lt_of_lt

end GraphSchema.Text

namespace GraphSchema.Members

/-- whether keys ascend strictly by their bytes -/
def AscendingInBytes {α : Type} (members : Members α) : Prop :=
  (keys members).Pairwise fun a b => Text.bytes a < Text.bytes b

theorem ascending_iff_bytes {α : Type} {members : Members α} : Ascending members ↔ AscendingInBytes members := by
  unfold Ascending AscendingInBytes
  simp only [Text.bytes_lt_iff]

end GraphSchema.Members
