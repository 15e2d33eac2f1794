/-!
The lines of a text. A line ends at a line feed, and a carriage return before the line feed belongs to the
end; behind the last line feed there is a line only if some text is left.
-/

namespace GraphSchema.Text

/-- a line that ended at a line feed, without a carriage return at its end -/
def dropReturn (line : List Char) : List Char :=
  match line.getLast? with
  | some '\r' => line.dropLast
  | _ => line

/-- The lines of a text that continues a line begun with these characters, the last one first. -/
def linesFrom (begun : List Char) : List Char → List (List Char)
  | [] => if begun.isEmpty then [] else [begun.reverse]
  | c :: rest =>
    if c = '\n' then dropReturn begun.reverse :: linesFrom [] rest
    else linesFrom (c :: begun) rest

/-- the lines of a text -/
def lines (text : String) : List String :=
  (linesFrom [] text.toList).map String.ofList

end GraphSchema.Text
