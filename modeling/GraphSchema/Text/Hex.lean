/-!
Hexadecimal digits.
-/

namespace GraphSchema.Text

/-- a digit below sixteen, lower case -/
def lowerHex (n : Nat) : Char :=
  if n < 10 then Char.ofNat (48 + n) else Char.ofNat (87 + n)

/-- a digit below sixteen, upper case -/
def upperHex (n : Nat) : Char :=
  if n < 10 then Char.ofNat (48 + n) else Char.ofNat (55 + n)

end GraphSchema.Text
