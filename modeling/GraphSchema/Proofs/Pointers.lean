import Mathlib.Data.List.Basic
import Mathlib.Logic.Function.Basic
import GraphSchema.Schema.Reference

/-!
References, and the keys that are read off them.

- `Reference.Fragment` : a URI fragment, by the characters that may stand in one.
- `Reference.percentDecode` : the bytes that a fragment spells. `Reference.unescape` : the key that a pointer token spells.
- `Reference.key?` : the key that a reference leads to.
- `Reference.fragment_encode`, `Reference.decode?_encode`, `Reference.unescape_escape` : what is written is a fragment, and
  each of the two ways of writing is undone.
- `pointer_decodes` : so the reference to a key leads back to that key and to no other one.
-/

namespace GraphSchema

namespace Reference

/-! ## Fragments -/

/-- the marks that stand for themselves in a fragment, besides letters and digits -/
def marks : List Char :=
  ['-', '.', '_', '~', '!', '$', '&', '\x27', '(', ')', '*', '+', ',', ';', '=', ':', '@', '/', '?']

/-- whether a character may stand in a fragment, other than the percent sign -/
def IsFragmentChar (c : Char) : Prop :=
  c.isAlphanum = true ∨ c ∈ marks

instance (c : Char) : Decidable (IsFragmentChar c) :=
  inferInstanceAs (Decidable (_ ∨ _))

/-- whether a character is a hexadecimal digit in upper case -/
def IsUpperHex (c : Char) : Prop :=
  c ∈ "0123456789ABCDEF".toList

/-- the characters of a fragment: some stand for themselves, and a percent sign stands before two digits -/
inductive Fragment : List Char → Prop
  | nil : Fragment []
  | char {c : Char} {rest : List Char} (hallowed : IsFragmentChar c) (htail : Fragment rest) : Fragment (c :: rest)
  | byte {high low : Char} {rest : List Char} (hhigh : IsUpperHex high) (hlow : IsUpperHex low)
      (htail : Fragment rest) : Fragment ('%' :: high :: low :: rest)

/-! ## Reading -/

/-- the value of a hexadecimal digit, in upper or lower case -/
def hexValue? (c : Char) : Option Nat :=
  if '0' ≤ c ∧ c ≤ '9' then some (c.toNat - 48)
  else if 'A' ≤ c ∧ c ≤ 'F' then some (c.toNat - 55)
  else if 'a' ≤ c ∧ c ≤ 'f' then some (c.toNat - 87)
  else none

/-- The bytes that a fragment spells. A percent sign and two digits are one byte, other characters are their own bytes. -/
def percentDecode : List Char → Option (List UInt8)
  | [] => some []
  | '%' :: high :: low :: rest => do
    let h ← hexValue? high
    let l ← hexValue? low
    return UInt8.ofNat (16 * h + l) :: (← percentDecode rest)
  | '%' :: _ => none
  | c :: rest => (percentDecode rest).map (String.utf8EncodeChar c ++ ·)

/-- Replaces every tilde that stands before a digit, together with the digit, from left to right. -/
def substitute (digit result : Char) : List Char → List Char
  | '~' :: c :: rest =>
    if c = digit then result :: substitute digit result rest else '~' :: substitute digit result (c :: rest)
  | c :: rest => c :: substitute digit result rest
  | [] => []

/-- The key that a token of a JSON Pointer spells: first `~1` is read as a slash, and then `~0` as a tilde. -/
def unescape (token : String) : String :=
  String.ofList (substitute '0' '~' (substitute '1' '/' token.toList))

/-- The text that a fragment spells, if its bytes are that of a text. -/
def decode? (fragment : String) : Option String :=
  (percentDecode fragment.toList).bind fun bytes => String.fromUTF8? bytes.toByteArray

/-- what every reference to a definition starts with -/
def base : String := "#/" ++ definitionsKeyword ++ "/"

/-- The key that a reference leads to, if it leads to a definition. -/
def key? (reference : String) : Option String :=
  (reference.toList.dropPrefix? base.toList).bind fun rest => (decode? (String.ofList rest)).map unescape

/-! ## What is written -/

theorem fragment_append {front back : List Char} (hf : Fragment front) (hb : Fragment back) : Fragment (front ++ back) := by
  induction hf with
  | nil => exact hb
  | char hallowed _ ih => exact .char hallowed ih
  | byte hhigh hlow _ ih => exact .byte hhigh hlow ih

theorem fragment_of_chars {chars : List Char} (hallowed : ∀ c ∈ chars, IsFragmentChar c) : Fragment chars := by
  induction chars with
  | nil => exact .nil
  | cons c rest ih =>
    obtain ⟨hfirst, hothers⟩ := List.forall_mem_cons.1 hallowed
    exact .char hfirst (ih hothers)

theorem fragment_flatMap {α : Type} {f : α → List Char} {items : List α} (h : ∀ item ∈ items, Fragment (f item)) :
    Fragment (items.flatMap f) := by
  induction items with
  | nil => exact .nil
  | cons item rest ih =>
    obtain ⟨hfirst, hothers⟩ := List.forall_mem_cons.1 h
    exact fragment_append hfirst (ih hothers)

theorem isUpperHex_upperHex {n : Nat} (h : n < 16) : IsUpperHex (Text.upperHex n) := by
  have hall : ∀ n : Fin 16, Text.upperHex n ∈ "0123456789ABCDEF".toList := by decide
  exact hall ⟨n, h⟩

theorem hexValue?_upperHex {n : Nat} (h : n < 16) : hexValue? (Text.upperHex n) = some n := by
  have hall : ∀ n : Fin 16, hexValue? (Text.upperHex n) = some n.val := by decide
  exact hall ⟨n, h⟩

theorem high_lt (byte : UInt8) : byte.toNat / 16 < 16 := by
  have := byte.toNat_lt
  omega

theorem low_lt (byte : UInt8) : byte.toNat % 16 < 16 :=
  Nat.mod_lt _ (by decide)

theorem fragment_percent (byte : UInt8) : Fragment (percent byte) :=
  .byte (isUpperHex_upperHex (high_lt byte)) (isUpperHex_upperHex (low_lt byte)) .nil

/-- The characters that are written as they are may all stand in a fragment. -/
theorem isFragmentChar_of_isPlain {c : Char} (h : isPlain c = true) : IsFragmentChar c := by
  have hall : ∀ n : Fin 127, isPlain (Char.ofNat n) = true → IsFragmentChar (Char.ofNat n) := by decide
  have hsmall : c.toNat < 127 := by
    simp only [isPlain, Bool.and_eq_true, decide_eq_true_eq] at h
    exact h.1.2
  have hchar := hall ⟨c.toNat, hsmall⟩
  rw [Char.ofNat_toNat] at hchar
  exact hchar h

theorem ne_percent_of_isPlain {c : Char} (h : isPlain c = true) : c ≠ '%' := by
  rintro rfl
  exact absurd h (by decide)

theorem fragment_encodeChar (c : Char) : Fragment (encodeChar c) := by
  unfold encodeChar
  split_ifs with hplain
  · exact .char (isFragmentChar_of_isPlain hplain) .nil
  · exact fragment_flatMap fun byte _ => fragment_percent byte

/-- **A fragment.** Whatever the token, it is written with characters that may stand in a fragment. -/
theorem fragment_encode (token : String) : Fragment (encode token).toList := by
  rw [encode, String.toList_ofList]
  exact fragment_flatMap fun c _ => fragment_encodeChar c

/-! ## Bytes -/

theorem percentDecode_percent (byte : UInt8) (rest : List Char) :
    percentDecode (percent byte ++ rest) = (percentDecode rest).map (byte :: ·) := by
  have hwhole : UInt8.ofNat (16 * (byte.toNat / 16) + byte.toNat % 16) = byte := by
    rw [Nat.div_add_mod, UInt8.ofNat_toNat]
  show percentDecode ('%' :: Text.upperHex (byte.toNat / 16) :: Text.upperHex (byte.toNat % 16) :: rest) = _
  rw [percentDecode, hexValue?_upperHex (high_lt byte), hexValue?_upperHex (low_lt byte)]
  simp only [bind, Option.bind, hwhole]
  cases percentDecode rest <;> rfl

theorem percentDecode_bytes (bytes : List UInt8) (rest : List Char) :
    percentDecode (bytes.flatMap percent ++ rest) = (percentDecode rest).map (bytes ++ ·) := by
  induction bytes with
  | nil => simp
  | cons byte others ih =>
    rw [List.flatMap_cons, List.append_assoc, percentDecode_percent, ih, Option.map_map]
    rfl

theorem percentDecode_encodeChar (c : Char) (rest : List Char) :
    percentDecode (encodeChar c ++ rest) = (percentDecode rest).map (String.utf8EncodeChar c ++ ·) := by
  unfold encodeChar
  split_ifs with hplain
  · have hother := ne_percent_of_isPlain hplain
    show percentDecode (c :: rest) = _
    rw [percentDecode]
    · exact fun _ _ _ hsame _ => hother hsame
    · exact fun hsame => hother hsame
  · exact percentDecode_bytes _ rest

theorem percentDecode_flatMap (chars : List Char) :
    percentDecode (chars.flatMap encodeChar) = some (chars.flatMap String.utf8EncodeChar) := by
  induction chars with
  | nil => rfl
  | cons c rest ih =>
    rw [List.flatMap_cons, percentDecode_encodeChar, ih]
    rfl

/-- **Percent signs are undone.** The bytes that a written token spells are those of the token. -/
theorem decode?_encode (token : String) : decode? (encode token) = some token := by
  have hvalid : (token.toList.flatMap String.utf8EncodeChar).toByteArray.IsValidUTF8 :=
    ByteArray.isValidUTF8_utf8Encode
  rw [decode?, encode, String.toList_ofList, percentDecode_flatMap, Option.bind_some, String.fromUTF8?, dif_pos hvalid]
  exact congrArg some (String.ofList_toList)

/-! ## Tildes -/

theorem substitute_cons_of_ne {digit result c : Char} (hother : c ≠ '~') (rest : List Char) :
    substitute digit result (c :: rest) = c :: substitute digit result rest := by
  rw [substitute]
  exact fun _ _ hsame _ => hother hsame

theorem substitute_hit (digit result : Char) (rest : List Char) :
    substitute digit result ('~' :: digit :: rest) = result :: substitute digit result rest := by
  rw [substitute, if_pos rfl]

theorem substitute_miss {digit result c : Char} (hmiss : c ≠ digit) (hother : c ≠ '~') (rest : List Char) :
    substitute digit result ('~' :: c :: rest) = '~' :: c :: substitute digit result rest := by
  rw [substitute, if_neg hmiss, substitute_cons_of_ne hother]

/-- a key in which tildes are written out, and slashes are not -/
def escapeTilde (c : Char) : List Char :=
  if c = '~' then ['~', '0'] else [c]

/-- Reading slashes first leaves the tildes as they are written. -/
theorem substitute_slashes (key : List Char) :
    substitute '1' '/' (key.flatMap escapeChar) = key.flatMap escapeTilde := by
  induction key with
  | nil => rfl
  | cons c rest ih =>
    rw [List.flatMap_cons, List.flatMap_cons, ← ih, escapeChar, escapeTilde]
    split_ifs with htilde hslash
    · exact substitute_miss (by decide) (by decide) _
    · subst hslash
      exact substitute_hit ..
    · exact substitute_cons_of_ne htilde _

theorem substitute_tildes (key : List Char) : substitute '0' '~' (key.flatMap escapeTilde) = key := by
  induction key with
  | nil => rfl
  | cons c rest ih =>
    rw [List.flatMap_cons, escapeTilde]
    split_ifs with htilde
    · subst htilde
      exact (substitute_hit ..).trans (congrArg _ ih)
    · exact (substitute_cons_of_ne htilde _).trans (congrArg _ ih)

/-- **Tildes are undone.** -/
theorem unescape_escape (key : String) : unescape (escape key) = key := by
  rw [unescape, escape, String.toList_ofList, substitute_slashes, substitute_tildes, String.ofList_toList]

/-! ## Slashes -/

theorem slash_notMem_percent (byte : UInt8) : '/' ∉ percent byte := by
  have hdigit : ∀ n : Fin 16, '/' ≠ Text.upperHex n := by decide
  have hhigh := hdigit ⟨_, high_lt byte⟩
  have hlow := hdigit ⟨_, low_lt byte⟩
  simp [percent, hhigh, hlow]

theorem slash_notMem_encodeChar {c : Char} (hother : c ≠ '/') : '/' ∉ encodeChar c := by
  unfold encodeChar
  split_ifs
  · simpa using hother.symm
  · intro hmem
    obtain ⟨byte, -, hmem⟩ := List.mem_flatMap.1 hmem
    exact slash_notMem_percent byte hmem

theorem ne_slash_of_mem_escapeChar {c d : Char} (hmem : d ∈ escapeChar c) : d ≠ '/' := by
  rintro rfl
  unfold escapeChar at hmem
  split_ifs at hmem with htilde hslash
  · exact absurd hmem (by decide)
  · exact absurd hmem (by decide)
  · exact hslash (List.mem_singleton.1 hmem).symm

/-- A token has no slash. -/
theorem slash_notMem_token (key : String) : '/' ∉ (encode (escape key)).toList := by
  rw [encode, escape, String.toList_ofList, String.toList_ofList]
  intro hmem
  obtain ⟨d, hescaped, hmem⟩ := List.mem_flatMap.1 hmem
  obtain ⟨c, -, hescaped⟩ := List.mem_flatMap.1 hescaped
  exact slash_notMem_encodeChar (ne_slash_of_mem_escapeChar hescaped) hmem

/-! ## References -/

/-- What stands between the sign for a fragment and a token is a fragment. -/
theorem fragment_definitions : Fragment "/$defs/".toList := by
  have hchars : "/$defs/".toList = ['/', '$', 'd', 'e', 'f', 's', '/'] := rfl
  have hallowed : ∀ c ∈ ['/', '$', 'd', 'e', 'f', 's', '/'], IsFragmentChar c := by
    simp only [List.forall_mem_cons, List.not_mem_nil, false_implies, implies_true, and_true]
    decide
  exact fragment_of_chars (hchars ▸ hallowed)

theorem pointer_eq (key : String) : pointer key = base ++ encode (escape key) := rfl

/-- A reference leads to the key that it was written for. -/
theorem key?_pointer (key : String) : key? (pointer key) = some key := by
  have hsplit : (pointer key).toList.dropPrefix? base.toList = some (encode (escape key)).toList := by
    rw [List.dropPrefix?_eq_some_iff]
    exact ⟨base.toList, by rw [pointer_eq, String.toList_append], by simp⟩
  rw [key?, hsplit, Option.bind_some, String.ofList_toList, decode?_encode, Option.map_some, unescape_escape]

/-- A reference to a definition is never the reference to the document. -/
theorem pointer_ne (key : String) : pointer key ≠ "#" := by
  intro hsame
  have hfound := key?_pointer key
  rw [hsame] at hfound
  cases hfound

/-- Different keys have different references. -/
theorem pointer_injective : Function.Injective pointer := by
  intro a b hsame
  have hkeys := congrArg key? hsame
  rwa [key?_pointer, key?_pointer, Option.some.injEq] at hkeys

end Reference

/-- **References decode.** The reference to a key starts with a fixed base, is a URI fragment behind the sign for one, and
has no further slash behind the base. What stands there, with its percent signs undone, and then its slashes and its
tildes, is the key. So different keys have different references. -/
theorem pointer_decodes :
    (∀ key, ∃ token, Reference.pointer key = "#/$defs/" ++ token ∧ Reference.Fragment ("/$defs/" ++ token).toList ∧
      '/' ∉ token.toList ∧ (Reference.decode? token).map Reference.unescape = some key) ∧
    Function.Injective Reference.pointer := by
  refine ⟨fun key => ?_, Reference.pointer_injective⟩
  refine ⟨Reference.encode (Reference.escape key), rfl, ?_, Reference.slash_notMem_token key, ?_⟩
  · rw [String.toList_append]
    exact Reference.fragment_append Reference.fragment_definitions (Reference.fragment_encode _)
  · rw [Reference.decode?_encode, Option.map_some, Reference.unescape_escape]

/-- A key with both kinds of special characters, as it is referred to and read back. -/
example : Reference.pointer "a/b~1 ß" = "#/$defs/a~1b~01%20%C3%9F" := by decide +kernel

end GraphSchema
