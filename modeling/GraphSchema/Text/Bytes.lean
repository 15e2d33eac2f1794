/-!
The bytes of a text.
-/

namespace GraphSchema.Text

/-- the bytes of a text in UTF-8 -/
def bytes (text : String) : List UInt8 :=
  text.toList.flatMap String.utf8EncodeChar

end GraphSchema.Text
