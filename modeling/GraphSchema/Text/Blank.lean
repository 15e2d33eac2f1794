/-!
Blank characters and blank texts.
-/

namespace GraphSchema.Text

/-- The characters with the Unicode property White_Space. -/
def isBlank (c : Char) : Bool :=
  let n := c.toNat
  (9 ≤ n && n ≤ 13) || n == 0x20 || n == 0x85 || n == 0xA0 || n == 0x1680 || (0x2000 ≤ n && n ≤ 0x200A)
    || n == 0x2028 || n == 0x2029 || n == 0x202F || n == 0x205F || n == 0x3000

/-- whether a text has no character that is not blank -/
def allBlank (text : String) : Bool :=
  text.toList.all isBlank

end GraphSchema.Text
