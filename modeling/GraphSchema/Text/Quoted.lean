import GraphSchema.Text.Hidden

/-!
Texts in quotes, as error messages show them.
-/

namespace GraphSchema.Text

/-- a character by its number in braces -/
def codePoint (c : Char) : List Char :=
  '\\' :: 'u' :: '\x7b' :: (Nat.toDigits 16 c.toNat ++ ['\x7d'])

/-- a character inside quotes: quotes, backslashes and line breaks by letter, what cannot be seen by number -/
def quotedChar (c : Char) : List Char :=
  if c = '"' then ['\\', '"']
  else if c = '\\' then ['\\', '\\']
  else if c = '\n' then ['\\', 'n']
  else if c = '\r' then ['\\', 'r']
  else if c = '\t' then ['\\', 't']
  else if c = '\x00' then ['\\', '0']
  else if c.toNat < 32 ∨ c.toNat = 127 ∨ isHidden c then codePoint c
  else [c]

/-- a text in quotes -/
def quoted (text : String) : String :=
  String.ofList ('"' :: (text.toList.flatMap quotedChar ++ ['"']))

end GraphSchema.Text
