/-!
Patterns for names: `?` for one character, `*` for any number, a range in brackets for one of several
characters, and `**` as a whole component for any number of directories.
-/

namespace GraphSchema

/-- why a text is no pattern; `position` counts characters -/
structure PatternError where
  position : Nat
  message : String
  deriving Repr, DecidableEq

def PatternError.text (error : PatternError) : String :=
  "Pattern syntax error near position " ++ toString error.position ++ ": " ++ error.message

namespace Pattern

/-- characters of a range: from the first to the last -/
structure Span where
  first : Char
  last : Char
  deriving Repr, DecidableEq

inductive Token where
  | char (c : Char)
  | anyChar
  | anySequence
  | anyDirectories
  | within (spans : List Span)
  | except (spans : List Span)
  deriving Repr, DecidableEq

def tooManyStars : String := "wildcards are either regular `*` or recursive `**`"

def mixedStars : String := "recursive wildcards must form a single path component"

def badRange : String := "invalid range pattern"

/-- the content of a range: single characters, and two with a dash between them -/
def spans : List Char → List Span
  | a :: '-' :: b :: rest => ⟨a, b⟩ :: spans rest
  | a :: rest => ⟨a, a⟩ :: spans rest
  | [] => []

/-- A range behind its opening bracket: its token and how many characters it takes. A closing bracket in the
first place stands for itself. -/
def range? (text : List Char) : Option (Token × Nat) :=
  let (negated, body) := match text with
    | '!' :: rest => (true, rest)
    | rest => (false, rest)
  match body with
  | [] => none
  | first :: rest =>
    match rest.idxOf? ']' with
    | none => none
    | some count =>
      let found := spans (first :: rest.take count)
      let taken := count + 2
      some (if negated then (.except found, taken + 1) else (.within found, taken))

/-- The tokens of a text. With it come the number of characters before it and the last one of those. -/
def parseFrom (position : Nat) (before : Option Char) (text : List Char) : Except PatternError (List Token) :=
  match text with
  | [] => .ok []
  | '?' :: rest => (.anyChar :: ·) <$> parseFrom (position + 1) (some '?') rest
  | '*' :: '*' :: '*' :: _ => .error ⟨position + 2, tooManyStars⟩
  | '*' :: '*' :: rest =>
    if before.all (· == '/') then
      match rest with
      | [] => .ok [.anyDirectories]
      | '/' :: rest => (.anyDirectories :: ·) <$> parseFrom (position + 3) (some '/') rest
      | _ => .error ⟨position + 2, mixedStars⟩
    else .error ⟨position - 1, mixedStars⟩
  | '*' :: rest => (.anySequence :: ·) <$> parseFrom (position + 1) (some '*') rest
  | '[' :: rest =>
    match range? rest with
    | some (token, taken) => (token :: ·) <$> parseFrom (position + 1 + taken) (some ']') (rest.drop taken)
    | none => .error ⟨position, badRange⟩
  | c :: rest => (.char c :: ·) <$> parseFrom (position + 1) (some c) rest
termination_by text.length
decreasing_by all_goals (simp; try omega)

/-- the tokens of a pattern -/
def parse (text : String) : Except PatternError (List Token) :=
  parseFrom 0 none text.toList

/-- whether a token stands for a character -/
def Token.accepts (c : Char) : Token → Bool
  | char expected => c == expected
  | anyChar => true
  | within spans => spans.any fun span => span.first ≤ c && c ≤ span.last
  | except spans => !spans.any fun span => span.first ≤ c && c ≤ span.last
  | anySequence | anyDirectories => false

/-- whether a text or one of its ends passes a test -/
def anyEnd (test : List Char → Bool) : List Char → Bool
  | [] => test []
  | c :: rest => test (c :: rest) || anyEnd test rest

/-- whether tokens stand for a text -/
def matchesChars : List Token → List Char → Bool
  | [], text => text.isEmpty
  | .anySequence :: tokens, text | .anyDirectories :: tokens, text => anyEnd (matchesChars tokens) text
  | _ :: _, [] => false
  | token :: tokens, c :: rest => token.accepts c && matchesChars tokens rest

/-- whether a pattern of one component stands for a name -/
def matchesName (tokens : List Token) (name : String) : Bool :=
  matchesChars tokens name.toList

/-- the text that a pattern without wildcards stands for -/
def literal? (tokens : List Token) : Option String :=
  String.ofList <$> tokens.mapM fun
    | .char c => some c
    | _ => none

/-- whether a component stands for any number of directories -/
def isRecursive (tokens : List Token) : Bool :=
  tokens.contains .anyDirectories

end Pattern

end GraphSchema
