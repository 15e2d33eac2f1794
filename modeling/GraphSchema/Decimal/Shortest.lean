/-!
The shortest decimal that reads back as a given float.

A finite float is `mantissa · 2 ^ exponent`, and the reals that round to it form an interval around it.
For one digit, two digits and so on, the two neighbours of the value on that decimal grid are tested for
the interval; the first grid with a hit decides the number of digits, and of two hits the nearer one wins.
All of it is arithmetic on natural numbers.
-/

namespace GraphSchema.Decimal

/-- a finite float as `± mantissa · 2 ^ exponent`; `narrow` if the next smaller float is half as far away -/
structure Dyadic where
  negative : Bool
  mantissa : Nat
  exponent : Int
  narrow : Bool

/-- The parts of a finite float, read off its bits. -/
def Dyadic.ofFloat? (x : Float) : Option Dyadic :=
  let bits : Nat := x.toBits.toNat
  let fraction : Nat := bits % Nat.pow 2 52
  let biased : Nat := bits / Nat.pow 2 52 % Nat.pow 2 11
  let negative := bits / Nat.pow 2 63 == 1
  if biased = 2047 then none
  else if biased = 0 then some ⟨negative, fraction, -1074, false⟩
  else some ⟨negative, Nat.pow 2 52 + fraction, (biased : Int) - 1075, fraction == 0 && 1 < biased⟩

/-- the value and the ends of its rounding interval, as numerators over one denominator -/
structure Interval where
  low : Nat
  value : Nat
  high : Nat
  denominator : Nat
  /-- whether the ends round to the value too -/
  closed : Bool

/-- The interval of reals that round to a float. The ends belong to it when the mantissa is even. -/
def Dyadic.interval (d : Dyadic) : Interval :=
  let shift := d.exponent - 2
  let scale := Nat.pow 2 shift.toNat
  let value := 4 * d.mantissa
  { low := (value - if d.narrow then 1 else 2) * scale
    value := value * scale
    high := (value + 2) * scale
    denominator := Nat.pow 2 (-shift).toNat
    closed := d.mantissa % 2 == 0 }

/-- the number of decimal digits -/
def length (n : Nat) : Nat :=
  (Nat.toDigits 10 n).length

/-- the exponent of the leading digit of a positive quotient -/
def magnitude (numerator denominator : Nat) : Int :=
  if denominator ≤ numerator then (length (numerator / denominator) : Int) - 1
  else -(length ((denominator - 1) / numerator) : Int)

/-- The multiple of `10 ^ grid` inside the interval that is nearest to the value, the even one on a tie. -/
def Interval.nearest? (i : Interval) (grid : Int) : Option Nat :=
  let unit := i.denominator * Nat.pow 10 grid.toNat
  let scale := Nat.pow 10 (-grid).toNat
  let inside (k : Nat) : Bool :=
    if i.closed then decide (i.low * scale ≤ k * unit ∧ k * unit ≤ i.high * scale)
    else decide (i.low * scale < k * unit ∧ k * unit < i.high * scale)
  let below := i.value * scale / unit
  let above := below + 1
  match inside below, inside above with
  | false, false => none
  | true, false => some below
  | false, true => some above
  | true, true =>
    let twice := 2 * i.value * scale
    let middle := (2 * below + 1) * unit
    if twice < middle then some below
    else if middle < twice then some above
    else if below % 2 = 0 then some below
    else some above

/-- significant digits and the exponent of the first one -/
structure Digits where
  digits : List Char
  exponent : Int

/-- the digits of `count · 10 ^ grid`, without zeros at the end -/
def Digits.ofGrid (count : Nat) (grid : Int) : Digits :=
  let digits := Nat.toDigits 10 count
  { digits := (digits.reverse.dropWhile (· == '0')).reverse
    exponent := grid + digits.length - 1 }

/-- The shortest digits that read back as the float; seventeen always do. -/
def Dyadic.shortest (d : Dyadic) : Digits :=
  let interval := d.interval
  let top := magnitude interval.value interval.denominator
  let hit := (List.range 17).findSome? fun (n : Nat) =>
    (interval.nearest? (top - n)).map (Digits.ofGrid · (top - n))
  hit.getD ⟨['0'], 0⟩

end GraphSchema.Decimal
