import GraphSchema.Json.Numeral

/-!
The grammar of numerals.

- `Numeral.Spells` : the characters of a numeral; `Numeral.Ends` : what follows does not belong to it.
- `Numeral.scan?_eq_ok_iff` : a scan takes exactly the numeral off a text.
- `Numeral.plain_of_value` : only numerals without a point and an exponent stand for integers.
-/

namespace GraphSchema.Json.Numeral

variable {place : Place} {text found rest : List Char}

/-! ## Digits -/

/-- whether all characters are digits -/
def AllDigits (chars : List Char) : Prop :=
  ∀ c ∈ chars, c.isDigit

/-- whether a text does not go on with a digit -/
def NoDigit (rest : List Char) : Prop :=
  ∀ c, rest.head? = some c → c.isDigit = false

theorem digits_eq_iff : digits text = (found, rest) ↔ text = found ++ rest ∧ AllDigits found ∧ NoDigit rest := by
  constructor
  · intro h
    obtain ⟨rfl, rfl⟩ := Prod.mk.inj h
    refine ⟨List.takeWhile_append_dropWhile.symm, List.all_eq_true.1 List.all_takeWhile, ?_⟩
    intro c hc
    have hstop := List.head?_dropWhile_not Char.isDigit text
    simpa [hc] using hstop
  · rintro ⟨rfl, hall, hstop⟩
    have hbehind : rest.takeWhile Char.isDigit = [] ∧ rest.dropWhile Char.isDigit = rest := by
      cases rest with
      | nil => exact ⟨rfl, rfl⟩
      | cons c rest => simp [hstop c rfl]
    rw [digits, List.takeWhile_append_of_pos hall, List.dropWhile_append_of_pos hall, hbehind.1, hbehind.2,
      List.append_nil]

/-! ## The parts of a numeral -/

/-- digits before the point: at least one, and a zero stands alone -/
structure IsWhole (digits : List Char) : Prop where
  nonempty : digits ≠ []
  all : AllDigits digits
  zero_alone : digits.head? = some '0' → digits = ['0']

theorem scanWhole_eq_ok_iff :
    scanWhole place text = .ok (found, rest) ↔ text = found ++ rest ∧ IsWhole found ∧ NoDigit rest := by
  have hsplit := @digits_eq_iff text
  unfold scanWhole
  split
  · rename_i other hnone
    obtain ⟨rfl, -, hstop⟩ := hsplit.1 hnone
    constructor
    · intro h; cases h
    · rintro ⟨hsame, hwhole, -⟩
      obtain ⟨d, more, rfl⟩ := List.exists_cons_of_ne_nil hwhole.nonempty
      subst hsame
      have hdigit := hwhole.all d List.mem_cons_self
      have := hstop d rfl
      simp [hdigit] at this
  · rename_i next more other hzero
    obtain ⟨rfl, hall, hstop⟩ := hsplit.1 hzero
    constructor
    · intro h; cases h
    · rintro ⟨hsame, hwhole, hstop'⟩
      have := hsplit.2 ⟨hsame, hwhole.all, hstop'⟩
      rw [hzero] at this
      obtain ⟨rfl, rfl⟩ := Prod.mk.inj this
      exact absurd (hwhole.zero_alone rfl) (by simp)
  · rename_i hnotNone hnotZero
    constructor
    · intro h
      injection h with h
      obtain ⟨hsame, hall, hstop⟩ := hsplit.1 h
      rcases found with _ | ⟨d, more⟩
      · exact absurd h (hnotNone rest)
      · refine ⟨hsame, ⟨by simp, hall, ?_⟩, hstop⟩
        intro hzero
        obtain rfl : d = '0' := by simpa using hzero
        rcases more with _ | ⟨next, more⟩
        · rfl
        · exact absurd h (hnotZero next more rest)
    · rintro ⟨hsame, hwhole, hstop⟩
      rw [hsplit.2 ⟨hsame, hwhole.all, hstop⟩]

/-- the point and the digits behind it -/
def fractionChars : List Char → List Char
  | [] => []
  | found => '.' :: found

theorem scanFraction_eq_ok_iff :
    scanFraction place text = .ok (found, rest) ↔
      text = fractionChars found ++ rest ∧ AllDigits found ∧
        (if found = [] then rest.head? ≠ some '.' else NoDigit rest) := by
  unfold scanFraction
  split
  · rename_i tail
    have hsplit := @digits_eq_iff tail
    split
    · rename_i hnone
      obtain ⟨hwhole, -, hstop⟩ := hsplit.1 hnone
      rw [List.nil_append] at hwhole
      constructor
      · intro h; cases h
      · rintro ⟨hsame, hall, hstop'⟩
        rcases found with _ | ⟨d, more⟩
        · simp only [fractionChars, List.nil_append] at hsame
          subst hsame
          simp at hstop'
        · have hbehind : tail = d :: more ++ rest := by simpa [fractionChars] using hsame
          have := hstop d (by rw [← hwhole, hbehind]; rfl)
          simp [hall d List.mem_cons_self] at this
    · rename_i hnotNone
      constructor
      · intro h
        injection h with h
        obtain ⟨rfl, hall, hstop⟩ := hsplit.1 h
        rcases found with _ | ⟨d, more⟩
        · exact absurd h (hnotNone rest)
        · exact ⟨by simp [fractionChars], hall, by simpa using hstop⟩
      · rintro ⟨hsame, hall, hstop⟩
        rcases found with _ | ⟨d, more⟩
        · simp only [fractionChars, List.nil_append] at hsame
          subst hsame
          simp at hstop
        · rw [if_neg (by simp)] at hstop
          rw [hsplit.2 ⟨by simpa [fractionChars] using hsame, hall, hstop⟩]
  · rename_i hnotPoint
    constructor
    · intro h
      cases h
      refine ⟨rfl, by simp [AllDigits], ?_⟩
      rw [if_pos rfl]
      intro hpoint
      obtain ⟨tail, rfl⟩ : ∃ tail, text = '.' :: tail := by
        cases text with
        | nil => simp at hpoint
        | cons c tail => exact ⟨tail, by simpa using hpoint⟩
      exact hnotPoint tail rfl
    · rintro ⟨hsame, hall, hstop⟩
      rcases found with _ | ⟨d, more⟩
      · simp only [fractionChars, List.nil_append] at hsame
        rw [hsame]
      · exact absurd hsame (hnotPoint (d :: more ++ rest))

/-- the characters of an exponent: a mark, a sign that may be left out if it is a plus, and digits -/
inductive IsExponent : Option (Bool × List Char) → List Char → Prop
  | none : IsExponent none []
  | signed (mark : Char) (sign : List Char) (negative : Bool) (found : List Char)
      (hmarked : mark = 'e' ∨ mark = 'E')
      (hsigned : negative = true ∧ sign = ['-'] ∨ negative = false ∧ (sign = ['+'] ∨ sign = []))
      (hnonempty : found ≠ []) (hall : AllDigits found) :
      IsExponent (some (negative, found)) (mark :: (sign ++ found))

theorem exponentSign_append {sign : List Char} {negative : Bool}
    (hsigned : negative = true ∧ sign = ['-'] ∨ negative = false ∧ (sign = ['+'] ∨ sign = []))
    (hnonempty : found ≠ []) (hall : AllDigits found) :
    exponentSign (sign ++ found ++ rest) = (negative, found ++ rest) := by
  rcases hsigned with ⟨rfl, rfl⟩ | ⟨rfl, rfl | rfl⟩
  · rfl
  · rfl
  · obtain ⟨d, more, rfl⟩ := List.exists_cons_of_ne_nil hnonempty
    have hdigit := hall d List.mem_cons_self
    simp only [List.nil_append, List.cons_append]
    unfold exponentSign
    split
    · rename_i h; obtain ⟨rfl, -⟩ := List.cons.inj h; exact absurd hdigit (by decide)
    · rename_i h; obtain ⟨rfl, -⟩ := List.cons.inj h; exact absurd hdigit (by decide)
    · rfl

theorem exponentSign_split (text : List Char) :
    ∃ sign, text = sign ++ (exponentSign text).2 ∧
      ((exponentSign text).1 = true ∧ sign = ['-'] ∨ (exponentSign text).1 = false ∧ (sign = ['+'] ∨ sign = [])) := by
  unfold exponentSign
  split
  · exact ⟨['-'], rfl, by simp⟩
  · exact ⟨['+'], rfl, by simp⟩
  · exact ⟨[], rfl, by simp⟩

/-- the exponent marks -/
def isMark (c : Char) : Bool :=
  c = 'e' || c = 'E'

theorem scanExponent_eq_ok_iff {exponent : Option (Bool × List Char)} :
    scanExponent place text = .ok (exponent, rest) ↔
      ∃ used, text = used ++ rest ∧ IsExponent exponent used ∧
        (if exponent = none then ∀ c, rest.head? = some c → isMark c = false else NoDigit rest) := by
  constructor
  · intro h
    unfold scanExponent at h
    split at h
    · cases h
      exact ⟨[], rfl, .none, by simp⟩
    · rename_i mark tail
      split at h
      · rename_i hmarked
        obtain ⟨sign, hsame, hsigned⟩ := exponentSign_split tail
        dsimp only at h
        split at h
        · cases h
        · rename_i found rest' hnotNone hsplit
          obtain ⟨rfl, rfl⟩ := Prod.mk.inj (Except.ok.inj h)
          obtain ⟨hunsigned, hall, hstop⟩ := digits_eq_iff.1 hsplit
          refine ⟨mark :: (sign ++ found), ?_, .signed mark sign _ found hmarked hsigned ?_ hall, by simpa using hstop⟩
          · rw [hsame, hunsigned]; simp
          · rintro rfl; exact hnotNone rfl
      · rename_i hunmarked
        cases h
        refine ⟨[], rfl, .none, ?_⟩
        rw [if_pos rfl]
        intro c hc
        obtain rfl : mark = c := by simpa using hc
        simpa [isMark] using hunmarked
  · rintro ⟨used, rfl, hspelt, hstop⟩
    cases hspelt with
    | none =>
      cases rest with
      | nil => rfl
      | cons c rest =>
        have : ¬ (c = 'e' ∨ c = 'E') := by simpa [isMark] using hstop c rfl
        simp [scanExponent, this]
    | signed mark sign negative found hmarked hsigned hnonempty hall =>
      rw [if_neg (by simp)] at hstop
      have hsplit : digits (found ++ rest) = (found, rest) := digits_eq_iff.2 ⟨rfl, hall, hstop⟩
      have hunsigned : exponentSign (sign ++ (found ++ rest)) = (negative, found ++ rest) := by
        rw [← List.append_assoc]
        exact exponentSign_append hsigned hnonempty hall
      simp only [List.cons_append, List.append_assoc, scanExponent, if_pos hmarked, hunsigned, hsplit]

/-! ## Numerals -/

/-- the sign of a numeral -/
def signChars (negative : Bool) : List Char :=
  if negative then ['-'] else []

/-- the characters of a numeral -/
structure Spells (numeral : Numeral) (chars : List Char) : Prop where
  whole : IsWhole numeral.whole
  fraction : AllDigits numeral.fraction
  parts : ∃ exponent, IsExponent numeral.exponent exponent ∧
    chars = signChars numeral.negative ++ (numeral.whole ++ (fractionChars numeral.fraction ++ exponent))

/-- Nothing of what follows belongs to the numeral: no digit, no exponent mark unless there was one, and no
point unless there was a point or a mark. -/
structure Ends (numeral : Numeral) (rest : List Char) : Prop where
  digit : NoDigit rest
  mark : numeral.exponent = none → ∀ c, rest.head? = some c → isMark c = false
  point : numeral.exponent = none → numeral.fraction = [] → rest.head? ≠ some '.'

theorem splitSign_append {negative : Bool} (hwhole : IsWhole found) :
    splitSign (signChars negative ++ (found ++ rest)) = (negative, found ++ rest) := by
  cases negative with
  | true => rfl
  | false =>
    obtain ⟨d, more, rfl⟩ := List.exists_cons_of_ne_nil hwhole.nonempty
    have hdigit := hwhole.all d List.mem_cons_self
    simp only [List.cons_append]
    show splitSign (d :: (more ++ rest)) = _
    unfold splitSign
    split
    · rename_i h; obtain ⟨rfl, -⟩ := List.cons.inj h; exact absurd hdigit (by decide)
    · rfl

theorem splitSign_split (text : List Char) : text = signChars (splitSign text).1 ++ (splitSign text).2 := by
  unfold splitSign
  split <;> rfl

/-- What stands behind the whole digits starts with no digit. -/
theorem noDigit_of_parts (fraction : List Char) {exponent : List Char} {value : Option (Bool × List Char)}
    (hspelt : IsExponent value exponent) (hstop : NoDigit rest) :
    NoDigit (exponent ++ rest) ∧ NoDigit (fractionChars fraction ++ (exponent ++ rest)) := by
  have hbehind : NoDigit (exponent ++ rest) := by
    cases hspelt with
    | none => exact hstop
    | signed mark sign negative found hmarked =>
      intro c hc
      obtain rfl : mark = c := by simpa using hc
      rcases hmarked with rfl | rfl <;> decide
  refine ⟨hbehind, ?_⟩
  cases fraction with
  | nil => exact hbehind
  | cons d more =>
    intro c hc
    obtain rfl : '.' = c := by simpa [fractionChars] using hc
    decide

theorem head_exponent_ne_point {exponent : List Char} {value : Option (Bool × List Char)}
    (hspelt : IsExponent value exponent) (hstop : value = none → rest.head? ≠ some '.') :
    (exponent ++ rest).head? ≠ some '.' := by
  cases hspelt with
  | none => exact hstop rfl
  | signed mark sign negative found hmarked =>
    rcases hmarked with rfl | rfl <;> simp

/-- **A scan takes exactly a numeral off a text.** -/
theorem scan?_eq_ok_iff {numeral : Numeral} :
    scan? place text = .ok (numeral, rest) ↔
      ∃ used, text = used ++ rest ∧ Spells numeral used ∧ Ends numeral rest := by
  constructor
  · intro h
    simp only [scan?, bind, Except.bind] at h
    split at h
    · cases h
    · rename_i whole hWhole
      obtain ⟨hsameWhole, hwholeDigits, hstopWhole⟩ := scanWhole_eq_ok_iff.1 hWhole
      split at h
      · cases h
      · rename_i fraction hFraction
        obtain ⟨hsameFraction, hallFraction, hstopFraction⟩ := scanFraction_eq_ok_iff.1 hFraction
        split at h
        · cases h
        · rename_i exponent hExponent
          obtain ⟨used, hsameExponent, hspelt, hstopExponent⟩ := scanExponent_eq_ok_iff.1 hExponent
          cases h
          refine ⟨signChars (splitSign text).1 ++ (whole.1 ++ (fractionChars fraction.1 ++ used)), ?_,
            ⟨hwholeDigits, hallFraction, used, hspelt, rfl⟩, ?_, ?_, ?_⟩
          · calc text = signChars (splitSign text).1 ++ (splitSign text).2 := splitSign_split text
              _ = _ := by rw [hsameWhole, hsameFraction, hsameExponent]; simp
          · by_cases hnone : exponent.1 = none
            · rw [hnone] at hspelt
              cases hspelt
              rw [List.nil_append] at hsameExponent
              by_cases hempty : fraction.1 = []
              · rw [hempty, fractionChars, List.nil_append] at hsameFraction
                rw [← hsameExponent, ← hsameFraction]
                exact hstopWhole
              · rw [if_neg hempty] at hstopFraction
                exact hsameExponent ▸ hstopFraction
            · rwa [if_neg hnone] at hstopExponent
          · intro hnone
            rwa [if_pos hnone] at hstopExponent
          · intro hnone hempty
            replace hnone : exponent.1 = Option.none := hnone
            rw [hnone] at hspelt
            cases hspelt
            rw [List.nil_append] at hsameExponent
            rw [if_pos hempty] at hstopFraction
            exact hsameExponent ▸ hstopFraction
  · rintro ⟨used, rfl, ⟨hwholeDigits, hallFraction, exponent, hspelt, rfl⟩, hstop⟩
    obtain ⟨hstopExponent, hstopFraction⟩ := noDigit_of_parts numeral.fraction hspelt hstop.digit
    have hsign :
        splitSign (signChars numeral.negative ++ (numeral.whole ++ (fractionChars numeral.fraction ++ exponent)) ++ rest)
          = (numeral.negative, numeral.whole ++ (fractionChars numeral.fraction ++ (exponent ++ rest))) := by
      rw [← splitSign_append hwholeDigits]; simp
    have hwhole (place : Place) :
        scanWhole place (numeral.whole ++ (fractionChars numeral.fraction ++ (exponent ++ rest)))
          = .ok (numeral.whole, fractionChars numeral.fraction ++ (exponent ++ rest)) :=
      scanWhole_eq_ok_iff.2 ⟨rfl, hwholeDigits, hstopFraction⟩
    have hfraction (place : Place) : scanFraction place (fractionChars numeral.fraction ++ (exponent ++ rest))
        = .ok (numeral.fraction, exponent ++ rest) := by
      refine scanFraction_eq_ok_iff.2 ⟨rfl, hallFraction, ?_⟩
      split
      · rename_i hempty
        exact head_exponent_ne_point hspelt fun hnone => hstop.point hnone hempty
      · exact hstopExponent
    have hexponent' (place : Place) : scanExponent place (exponent ++ rest) = .ok (numeral.exponent, rest) := by
      refine scanExponent_eq_ok_iff.2 ⟨exponent, rfl, hspelt, ?_⟩
      split
      · rename_i hnone; exact hstop.mark hnone
      · exact hstop.digit
    simp only [scan?, bind, Except.bind, hsign, hwhole, hfraction, hexponent']
    rfl

/-! ## Integers -/

/-- A numeral that stands for an integer is its whole digits and its sign. -/
theorem integer_of_value {numeral : Numeral} {n : Int} (h : numeral.value = .ok (.int n)) :
    (numeral.fraction = [] ∧ numeral.exponent = none) ∧
      integer numeral.negative (gather (Nat.pow 2 64) 0 numeral.whole).1 = .int n := by
  unfold value at h
  split at h
  rename_i significand raised hgathered
  split at h
  · rename_i hplain
    simp only [Bool.and_eq_true, List.isEmpty_iff, Option.isNone_iff_eq_none] at hplain
    rw [hgathered]
    exact ⟨⟨hplain.1.2, hplain.2⟩, Except.ok.inj h⟩
  · exfalso
    split at h
    dsimp only at h
    split at h
    · split at h <;> cases h
    · split at h
      · split at h <;> cases h
      · split at h <;> cases h

/-- A numeral that stands for an integer has neither a point nor an exponent. -/
theorem plain_of_value {numeral : Numeral} {n : Int} (h : numeral.value = .ok (.int n)) :
    numeral.fraction = [] ∧ numeral.exponent = none :=
  (integer_of_value h).1

end GraphSchema.Json.Numeral
