import GraphSchema.Json.Printer
import GraphSchema.Proofs.Lexemes
import GraphSchema.Proofs.Values

/-!
Scalars as they are written, and the lexemes that they are read as.

- `exists_numeral` : the text of an integer in range, and that of a negative zero, is the numeral of that number.
- `scanText_escaped` : the escapes of a string are undone.
- `Lexes` : a text is one lexeme before whatever does not go on with a numeral (`lexes_number`, `lexes_text`,
  `lexes_null`, `lexes_bool`).
-/

namespace GraphSchema.Json

/-- nothing at the start of a text goes on with a numeral -/
def Parted (rest : List Char) : Prop :=
  ∀ c, rest.head? = some c → continuesNumeral c = false

theorem parted_nil : Parted [] := nofun

theorem parted_cons {c : Char} (rest : List Char) (hother : continuesNumeral c = false) : Parted (c :: rest) := by
  intro c' hsame
  cases hsame
  exact hother

/-! ## Numbers -/

namespace Numeral

theorem gather_of_lt {limit n : Nat} {digits : List Char} (hfits : Nat.ofDigitChars 10 digits n < limit) :
    gather limit n digits = (Nat.ofDigitChars 10 digits n, []) := by
  induction digits generalizing n with
  | nil => rfl
  | cons d digits ih =>
    have hnext : n * 10 + (d.toNat - '0'.toNat) = 10 * n + (d.toNat - '0'.toNat) := by omega
    rw [Nat.ofDigitChars_cons] at hfits ⊢
    -- appending further digits does not make a number smaller
    have hbelow : 10 * n + (d.toNat - '0'.toNat) < limit := by
      rw [Nat.ofDigitChars_eq_ofDigitChars_zero] at hfits
      have hpositive : 0 < 10 ^ digits.length := Nat.pow_pos (by decide)
      have hgrows := Nat.le_mul_of_pos_left (10 * n + (d.toNat - '0'.toNat)) hpositive
      omega
    rw [gather, hnext, if_pos hbelow, ih hfits]

theorem value_of_plain {numeral : Numeral} (hplain : numeral.fraction = [] ∧ numeral.exponent = none)
    (hfits : Nat.ofDigitChars 10 numeral.whole 0 < Nat.pow 2 64) :
    numeral.value = .ok (integer numeral.negative (Nat.ofDigitChars 10 numeral.whole 0)) := by
  simp only [value, gather_of_lt hfits, hplain.1, hplain.2, List.isEmpty_nil, Option.isNone_none, Bool.and_self,
    if_true]

theorem value_toDigits (negative : Bool) {n : Nat} (hfits : n < Nat.pow 2 64) :
    value ⟨negative, Nat.toDigits 10 n, [], none⟩ = .ok (integer negative n) := by
  have hdigits := @Nat.ofDigitChars_ten_toDigits n
  have hvalue := @value_of_plain ⟨negative, Nat.toDigits 10 n, [], none⟩ ⟨rfl, rfl⟩ (hdigits.symm ▸ hfits)
  rwa [hdigits] at hvalue

/-- Decimal digits have no zero before them. -/
theorem isWhole_toDigits (n : Nat) : IsWhole (Nat.toDigits 10 n) where
  nonempty := Nat.toDigits_ne_nil
  all := fun _ hmem => Nat.isDigit_of_mem_toDigits (by decide) (by decide) hmem
  zero_alone := by
    induction n using Nat.strongRecOn with
    | ind n ih =>
      intro hzero
      by_cases hsmall : n < 10
      · rw [Nat.toDigits_of_lt_base hsmall] at hzero ⊢
        rw [Option.some.inj hzero]
      · have hfront : (Nat.toDigits 10 (n / 10)).head? = some '0' := by
          rw [Nat.toDigits_of_base_le (by decide) (by omega), List.head?_append] at hzero
          cases hdigits : Nat.toDigits 10 (n / 10) with
          | nil => exact absurd hdigits Nat.toDigits_ne_nil
          | cons d more => simpa [hdigits] using hzero
        have hnothing : n / 10 = 0 := by
          have := @Nat.ofDigitChars_ten_toDigits (n / 10)
          rw [ih (n / 10) (by omega) hfront] at this
          exact this.symm
        omega

theorem spells_integer (negative : Bool) (n : Nat) :
    Spells ⟨negative, Nat.toDigits 10 n, [], none⟩ (signChars negative ++ Nat.toDigits 10 n) where
  whole := isWhole_toDigits n
  fraction := nofun
  parts := ⟨[], .none, by simp [fractionChars]⟩

/-- the numeral of a negative zero as it is written -/
def negativeZero : Numeral := ⟨true, ['0'], ['0'], none⟩

theorem value_negativeZero : negativeZero.value = .ok (.real (-0.0)) := by
  have hscaled : scale? (UInt64.ofNat 0).toFloat (-1) = some 0.0 := by
    rw [scale?, if_pos (by decide), if_neg (by decide)]
    exact congrArg some (by decide +kernel)
  have hdigits : gather (Nat.pow 2 64) 0 ['0'] = (0, []) := rfl
  simp only [value, negativeZero, hdigits, List.isEmpty_nil, List.isEmpty_cons, Bool.and_false, Bool.false_and]
  have hstart : ((([] : List Char).length : Int) - (['0'].length - ([] : List Char).length : Nat)) = -1 := rfl
  rw [if_neg Bool.false_ne_true, hstart, hscaled]
  rfl

theorem spells_negativeZero : Spells negativeZero (realChars (-0.0)) := by
  have hwritten : realChars (-0.0) = ['-', '0', '.', '0'] := by decide +kernel
  have hall : AllDigits ['0'] := by simp [AllDigits]
  rw [hwritten]
  exact ⟨⟨by decide, hall, by decide⟩, hall, [], .none, rfl⟩

/-- **Numbers.** The text of an integer in range, or of a negative zero, is a numeral that stands for it. -/
theorem exists_numeral {number : Number} (hrange : number.InRange) (hzero : ∀ x, number = .real x → x = -0.0) :
    ∃ numeral : Numeral, numeral.Spells (numberChars number) ∧ numeral.value = .ok number := by
  match number with
  | .real x =>
    rw [hzero x rfl]
    exact ⟨negativeZero, spells_negativeZero, value_negativeZero⟩
  | .int (.ofNat n) =>
    have hfits : n < Nat.pow 2 64 := by
      have : (n : Int) < 18446744073709551616 := hrange.2
      show n < 18446744073709551616
      omega
    exact ⟨_, spells_integer false n, value_toDigits false hfits⟩
  | .int (.negSucc n) =>
    have hlow : n + 1 ≤ Nat.pow 2 63 := by
      have : -9223372036854775808 ≤ Int.negSucc n := hrange.1
      show n + 1 ≤ 9223372036854775808
      omega
    refine ⟨_, spells_integer true (n + 1), ?_⟩
    rw [value_toDigits true (Nat.lt_of_le_of_lt hlow (by decide)), integer, if_pos rfl, if_neg (by omega)]
    rfl

end Numeral

/-! ## Strings -/

section Strings

variable {place : Place} {chars rest : List Char}

theorem hexCode_control : ∀ n < 32, hexCode? '0' '0' (Text.lowerHex (n / 16)) (Text.lowerHex (n % 16)) = some n := by
  decide

/-- How a character is written: behind a backslash by a letter, by its code, or as it is. -/
theorem escapedChar_cases (c : Char) :
    (∃ e, e ≠ 'u' ∧ letterEscape? e = some c ∧ escapedChar c = ['\\', e]) ∨
    (c.toNat < 32 ∧ escapedChar c =
      ['\\', 'u', '0', '0', Text.lowerHex (c.toNat / 16), Text.lowerHex (c.toNat % 16)]) ∨
    (c ≠ '"' ∧ c ≠ '\\' ∧ ¬ c.toNat < 32 ∧ escapedChar c = [c]) := by
  unfold escapedChar
  split
  · rename_i hsame; subst hsame; exact .inl ⟨'"', by decide, rfl, rfl⟩
  split
  · rename_i hsame; subst hsame; exact .inl ⟨'\\', by decide, rfl, rfl⟩
  split
  · rename_i hsame; subst hsame; exact .inl ⟨'b', by decide, rfl, rfl⟩
  split
  · rename_i hsame; subst hsame; exact .inl ⟨'t', by decide, rfl, rfl⟩
  split
  · rename_i hsame; subst hsame; exact .inl ⟨'n', by decide, rfl, rfl⟩
  split
  · rename_i hsame; subst hsame; exact .inl ⟨'f', by decide, rfl, rfl⟩
  split
  · rename_i hsame; subst hsame; exact .inl ⟨'r', by decide, rfl, rfl⟩
  split
  · rename_i hcontrol; exact .inr (.inl ⟨hcontrol, rfl⟩)
  · rename_i hquote hescape _ _ _ _ _ hcontrol; exact .inr (.inr ⟨hquote, hescape, hcontrol, rfl⟩)

/-- The code of a control character is no surrogate. -/
theorem takeUnit_control {c : Char} (hcontrol : c.toNat < 32) :
    takeUnit (.ok chars) none c.toNat place = (.ok (c :: chars), none) := by
  have hnotLow : ¬ (0xDC00 ≤ c.toNat ∧ c.toNat ≤ 0xDFFF) := by omega
  have hnotHigh : ¬ (0xD800 ≤ c.toNat ∧ c.toNat ≤ 0xDBFF) := by omega
  simp only [takeUnit, if_neg hnotLow, if_neg hnotHigh, Char.ofNat_toNat]
  rfl

/-- A character is found again behind its escape. -/
theorem scanText_escapedChar (c : Char) : ∃ stop,
    scanText place (.ok chars) none (escapedChar c ++ rest) = scanText stop (.ok (c :: chars)) none rest := by
  rcases escapedChar_cases c with ⟨e, hother, hescapeOf, hescaped⟩ | ⟨hcontrol, hescaped⟩ |
    ⟨hquote, hescape, hcontrol, hescaped⟩
  · rw [hescaped]
    exact ⟨_, scanText_letter hother hescapeOf⟩
  · rw [hescaped]
    exact ⟨_, scanText_unit (hexCode_control c.toNat hcontrol) (takeUnit_control hcontrol)⟩
  · rw [hescaped]
    exact ⟨_, scanText_plain hquote hescape hcontrol⟩

/-- **Strings.** A string that is written with escapes is found again up to its closing quote. -/
theorem scanText_escaped (text : List Char) : ∃ stop,
    scanText place (.ok chars) none (text.flatMap escapedChar ++ '"' :: rest) =
      .closed (.ok (String.ofList (chars.reverse ++ text))) stop rest := by
  induction text generalizing place chars with
  | nil =>
    refine ⟨place.right 1, ?_⟩
    rw [List.append_nil]
    exact scanText_quote
  | cons c text ih =>
    obtain ⟨next, hfirst⟩ := @scanText_escapedChar place chars (text.flatMap escapedChar ++ '"' :: rest) c
    obtain ⟨stop, hbehind⟩ := @ih next (c :: chars)
    refine ⟨stop, ?_⟩
    rw [List.flatMap_cons, List.append_assoc, hfirst, hbehind, List.reverse_cons, List.append_assoc]
    rfl

end Strings

/-! ## Lexemes -/

/-- Before what does not go on with a numeral, a text is one lexeme. -/
def Lexes (chars : List Char) (token : Token) : Prop :=
  ∀ place rest, Parted rest →
    ∃ stop, lexemesFrom place (chars ++ rest) = ⟨token, place, stop⟩ :: lexemesFrom stop rest

section Tokens

variable {place : Place} {c : Char} {text : List Char} {piece : Piece}

theorem lexemesFrom_piece (hblank : isBlank c = false) (hfirst : firstPiece place c text = piece)
    (hwhole : piece.token.isLast = false) :
    lexemesFrom place (c :: text) = ⟨piece.token, place, piece.stop⟩ :: lexemesFrom piece.stop piece.rest := by
  rw [lexemesFrom_token (by rw [hblank]; decide) (by rw [hfirst, hwhole]), hfirst]

/-- A bracket, a comma or a colon is a lexeme before anything. -/
theorem lexemesFrom_mark {token : Token} (hmark : mark? c = some token) (hblank : isBlank c = false)
    (hwhole : token.isLast = false) :
    lexemesFrom place (c :: text) = ⟨token, place, place.right 1⟩ :: lexemesFrom (place.right 1) text := by
  have hfirst : firstPiece place c text = ⟨token, place.right 1, text⟩ := by simp only [firstPiece, hmark]
  exact lexemesFrom_piece hblank hfirst hwhole

theorem lexes_null : Lexes ['n', 'u', 'l', 'l'] .null :=
  fun _ _ _ => ⟨_, lexemesFrom_piece rfl rfl rfl⟩

theorem lexes_bool (b : Bool) : Lexes (compactChars (.bool b)) (.bool b) := by
  intro place rest _
  cases b with
  | true => exact ⟨_, lexemesFrom_piece rfl rfl rfl⟩
  | false => exact ⟨_, lexemesFrom_piece rfl rfl rfl⟩

theorem lexes_text (s : String) : Lexes (quotedChars s) (.text (.ok s)) := by
  intro place rest _
  obtain ⟨stop, hscanned⟩ := @scanText_escaped (place.right 1) [] rest s.toList
  have hfirst : firstPiece place '"' (s.toList.flatMap escapedChar ++ '"' :: rest) = ⟨.text (.ok s), stop, rest⟩ := by
    rw [List.reverse_nil, List.nil_append, String.ofList_toList] at hscanned
    simp only [firstPiece, mark?, word?, textPiece, hscanned]
    rfl
  refine ⟨stop, ?_⟩
  rw [quotedChars, List.cons_append, List.append_assoc]
  exact lexemesFrom_piece rfl hfirst rfl

/-- A numeral starts with a minus sign or a digit. -/
theorem ne_of_starts (hstarts : c = '-' ∨ c.isDigit) {d : Char} (hsign : d ≠ '-') (hnotDigit : d.isDigit = false) :
    c ≠ d := by
  rintro rfl
  rcases hstarts with hsame | hdigit
  · exact hsign hsame
  · rw [hnotDigit] at hdigit
    cases hdigit

theorem isBlank_number (hstarts : c = '-' ∨ c.isDigit) : isBlank c = false := by
  simp only [isBlank, beq_eq_false_iff_ne.2 (ne_of_starts hstarts (d := ' ') (by decide) rfl),
    beq_eq_false_iff_ne.2 (ne_of_starts hstarts (d := '\t') (by decide) rfl),
    beq_eq_false_iff_ne.2 (ne_of_starts hstarts (d := '\n') (by decide) rfl),
    beq_eq_false_iff_ne.2 (ne_of_starts hstarts (d := '\r') (by decide) rfl), Bool.or_self]

theorem firstPiece_number (hstarts : c = '-' ∨ c.isDigit) :
    firstPiece place c text = numberPiece place (c :: text) := by
  have hmark : mark? c = none := by
    cases hfound : mark? c with
    | none => rfl
    | some token =>
      rcases hstarts with rfl | hdigit
      · cases hfound
      · rw [isDigit_eq_false_of_mark hfound] at hdigit
        cases hdigit
  have hword : word? c = none := by
    simp only [word?, if_neg (ne_of_starts hstarts (d := 'n') (by decide) rfl),
      if_neg (ne_of_starts hstarts (d := 't') (by decide) rfl),
      if_neg (ne_of_starts hstarts (d := 'f') (by decide) rfl)]
  simp only [firstPiece, hmark, hword, if_neg (ne_of_starts hstarts (d := '"') (by decide) rfl), if_pos hstarts]

theorem Numeral.Spells.exists_cons {numeral : Numeral} {chars : List Char} (h : numeral.Spells chars) :
    ∃ c more, chars = c :: more ∧ (c = '-' ∨ c.isDigit) := by
  obtain ⟨exponent, -, rfl⟩ := h.parts
  obtain ⟨d, more, hwhole⟩ := List.exists_cons_of_ne_nil h.whole.nonempty
  have hdigit : d.isDigit := h.whole.all d (by rw [hwhole]; exact List.mem_cons_self)
  rw [hwhole]
  cases numeral.negative with
  | true => exact ⟨'-', _, rfl, .inl rfl⟩
  | false => exact ⟨d, _, rfl, .inr hdigit⟩

theorem lexes_number {number : Number} (hrange : number.InRange) (hzero : ∀ x, number = .real x → x = -0.0) :
    Lexes (numberChars number) (.number (.ok number)) := by
  intro place rest hparted
  obtain ⟨numeral, hspelt, hvalue⟩ := Numeral.exists_numeral hrange hzero
  obtain ⟨c, more, hchars, hstarts⟩ := hspelt.exists_cons
  have hends : numeral.Ends rest := hspelt.ends fun _ next _ hnext _ => hparted next hnext
  have hscanned : Numeral.scan? place (c :: (more ++ rest)) = .ok (numeral, rest) :=
    Numeral.scan?_eq_ok_iff.2 ⟨numberChars number, by rw [hchars]; rfl, hspelt, hends⟩
  let stop := place.right ((c :: (more ++ rest)).length - rest.length)
  have hfirst : firstPiece place c (more ++ rest) = ⟨.number (.ok number), stop, rest⟩ := by
    rw [firstPiece_number hstarts, numberPiece, hscanned]
    simp only [hvalue]
    rfl
  refine ⟨stop, ?_⟩
  rw [hchars]
  exact lexemesFrom_piece (isBlank_number hstarts) hfirst rfl

end Tokens

end GraphSchema.Json
