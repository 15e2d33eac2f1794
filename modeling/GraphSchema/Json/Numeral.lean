import GraphSchema.Json.Basic
import GraphSchema.Json.Place

/-!
Numerals: their grammar, and the number that a numeral stands for.

- `Numeral.scan?` takes a numeral off the front of a text. A fault of grammar is placed twice, as seen by
  someone who reads the number and by someone who only skips it.
- `Numeral.value` computes the number. Digits go into a 64 bit significand while they fit; the float is
  that significand scaled by one power of ten.
-/

namespace GraphSchema.Json

/-- the parts of a numeral: digits before the point, digits behind it, and a signed exponent -/
structure Numeral where
  negative : Bool
  whole : List Char
  fraction : List Char
  /-- whether the exponent is negative, and its digits -/
  exponent : Option (Bool × List Char)
  deriving Repr, DecidableEq

/-- a fault as someone who reads notices it, and as someone who skips does -/
structure Break where
  read : Fault
  skip : Fault
  deriving Repr, DecidableEq, Inhabited

/-- a fault that reading and skipping notice alike -/
def Break.both (cause : SyntaxError) (place : Place) : Break :=
  ⟨⟨cause, place⟩, ⟨cause, place⟩⟩

namespace Numeral

/-- what is wrong where a digit is required and none follows -/
def noDigit (place : Place) : List Char → Break
  | [] => ⟨⟨.endInValue, place⟩, ⟨.invalidNumber, place⟩⟩
  | rest => .both .invalidNumber (place.peek rest)

/-- the digits at the front of a text and what follows them -/
def digits (text : List Char) : List Char × List Char :=
  (text.takeWhile Char.isDigit, text.dropWhile Char.isDigit)

/-- the digits before the point: a zero stands alone -/
def scanWhole (place : Place) (text : List Char) : Except Break (List Char × List Char) :=
  match digits text with
  | ([], rest) => .error (noDigit place rest)
  | ('0' :: next :: more, rest) => .error (.both .invalidNumber (place.right 1 |>.peek (next :: more ++ rest)))
  | found => .ok found

/-- the point and the digits behind it, if there is a point -/
def scanFraction (place : Place) : List Char → Except Break (List Char × List Char)
  | '.' :: text =>
    match digits text with
    | ([], rest) => .error (noDigit (place.right 1) rest)
    | found => .ok found
  | text => .ok ([], text)

/-- whether an exponent has a minus sign, and what follows its sign -/
def exponentSign : List Char → Bool × List Char
  | '-' :: text => (true, text)
  | '+' :: text => (false, text)
  | text => (false, text)

/-- the exponent mark, its sign and its digits, if there is a mark -/
def scanExponent (place : Place) : List Char → Except Break (Option (Bool × List Char) × List Char)
  | [] => .ok (none, [])
  | mark :: text =>
    if mark = 'e' ∨ mark = 'E' then
      let unsigned := (exponentSign text).2
      match digits unsigned with
      | ([], rest) => .error (noDigit (place.right (1 + (text.length - unsigned.length))) rest)
      | (found, rest) => .ok (some ((exponentSign text).1, found), rest)
    else .ok (none, mark :: text)

/-- whether a text starts with a minus sign, and what follows it -/
def splitSign : List Char → Bool × List Char
  | '-' :: rest => (true, rest)
  | rest => (false, rest)

/-- A numeral at the front of a text that starts at `place`, and the text behind it. -/
def scan? (place : Place) (text : List Char) : Except Break (Numeral × List Char) := do
  let (negative, unsigned) := splitSign text
  let passed (rest : List Char) : Place := place.right (text.length - rest.length)
  let (whole, rest) ← scanWhole (passed unsigned) unsigned
  let (fraction, rest) ← scanFraction (passed rest) rest
  let (exponent, rest) ← scanExponent (passed rest) rest
  return (⟨negative, whole, fraction, exponent⟩, rest)

theorem length_of_digits {text found rest : List Char} (h : digits text = (found, rest)) :
    found.length + rest.length = text.length := by
  obtain ⟨rfl, rfl⟩ := Prod.mk.inj h
  rw [← List.length_append, List.takeWhile_append_dropWhile]

theorem length_of_scanWhole {place : Place} {text found rest : List Char}
    (h : scanWhole place text = .ok (found, rest)) : rest.length < text.length := by
  unfold scanWhole at h
  split at h
  · cases h
  · cases h
  · rename_i hnone _
    injection h with h
    have := length_of_digits h
    rcases found with _ | ⟨d, more⟩
    · exact absurd h (hnone rest)
    · simp at this; omega

theorem length_of_scanFraction {place : Place} {text found rest : List Char}
    (h : scanFraction place text = .ok (found, rest)) : rest.length ≤ text.length := by
  unfold scanFraction at h
  split at h
  · split at h
    · cases h
    · injection h with h
      have := length_of_digits h
      simp; omega
  · cases h; exact Nat.le_refl _

theorem length_of_exponentSign (text : List Char) : (exponentSign text).2.length ≤ text.length := by
  unfold exponentSign; split <;> simp

theorem length_of_scanExponent {place : Place} {text rest : List Char} {found : Option (Bool × List Char)}
    (h : scanExponent place text = .ok (found, rest)) : rest.length ≤ text.length := by
  unfold scanExponent at h
  split at h
  · cases h; exact Nat.le_refl _
  · rename_i mark tail
    split at h
    · dsimp only at h
      split at h
      · cases h
      · rename_i hd
        cases h
        have := length_of_digits hd
        have := length_of_exponentSign tail
        simp; omega
    · cases h; exact Nat.le_refl _

/-- A numeral takes at least one character. -/
theorem length_of_scan {place : Place} {text rest : List Char} {numeral : Numeral}
    (h : scan? place text = .ok (numeral, rest)) : rest.length < text.length := by
  have hsign : ∀ text : List Char, (splitSign text).2.length ≤ text.length := by
    intro text; unfold splitSign; split <;> simp
  simp only [scan?, bind, Except.bind] at h
  split at h
  · cases h
  · rename_i hw
    split at h
    · cases h
    · rename_i hf
      split at h
      · cases h
      · rename_i he
        cases h
        have := length_of_scanWhole hw
        have := length_of_scanFraction hf
        have := length_of_scanExponent he
        have := hsign text
        omega

/-- Appends digits to a number while it stays below the limit; with it, the digits that are left. -/
def gather (limit : Nat) (n : Nat) : List Char → Nat × List Char
  | [] => (n, [])
  | d :: rest =>
    let next := n * 10 + (d.toNat - '0'.toNat)
    if next < limit then gather limit next rest else (n, d :: rest)

/-- The float times ten to the exponent, by one multiplication or division where the power is a float.
There is none when the result is too large. -/
def scale? (x : Float) (exponent : Int) : Option Float :=
  if exponent.natAbs ≤ 308 then
    if 0 ≤ exponent then
      let scaled := x * Float.ofScientific 1 false exponent.natAbs
      if scaled.isInf then none else some scaled
    else some (x / Float.ofScientific 1 false exponent.natAbs)
  else if x == 0 then some x
  else if 0 ≤ exponent then none
  else scale? (x / 1e308) (exponent + 308)
termination_by (-exponent).toNat
decreasing_by omega

/-- a float with a sign put before it -/
def signed (negative : Bool) (x : Float) : Float :=
  if negative then -x else x

/-- A whole number: an integer unless it is a negative zero or lies below the signed 64 bit range. -/
def integer (negative : Bool) (n : Nat) : Number :=
  if negative then
    if n = 0 ∨ Nat.pow 2 63 < n then .real (-(UInt64.ofNat n).toFloat) else .int (-n)
  else .int n

/-- The number that a numeral stands for. A number out of range is noticed at the end of the numeral, or
that many characters before it. -/
def value (numeral : Numeral) : Except Nat Number :=
  let (significand, raised) := gather (Nat.pow 2 64) 0 numeral.whole
  if raised.isEmpty && numeral.fraction.isEmpty && numeral.exponent.isNone then
    .ok (integer numeral.negative significand)
  else
    let (significand, dropped) := gather (Nat.pow 2 64) significand numeral.fraction
    let start : Int := raised.length - (numeral.fraction.length - dropped.length : Nat)
    let scaled (exponent : Int) : Except Nat Number :=
      match scale? (UInt64.ofNat significand).toFloat exponent with
      | some x => .ok (.real (signed numeral.negative x))
      | none => .error 0
    match numeral.exponent with
    | none => scaled start
    | some (negative, found) =>
      match gather (Nat.pow 2 31) 0 found with
      | (exponent, []) => scaled (if negative then start - exponent else start + exponent)
      | (_, _ :: left) =>
        if significand ≠ 0 ∧ negative = false then .error left.length
        else .ok (.real (signed numeral.negative 0))

end Numeral

end GraphSchema.Json
