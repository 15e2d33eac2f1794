import GraphSchema.Json.Numeral

/-!
Lexemes of a JSON text: tokens with the places where they start and stop.

- `Lexeme.ofText` splits a text. Its last lexeme is the end of the text, a broken token, or a character that
  starts no token.
- A token that only a reader objects to (a number out of range, a lone surrogate) carries its fault and is
  whole for someone who skips it.
-/

namespace GraphSchema.Json

inductive Token where
  | openArray
  | closeArray
  | openObject
  | closeObject
  | comma
  | colon
  | null
  | bool (value : Bool)
  | number (value : Except Fault Number)
  | text (value : Except Fault String)
  /-- a string that does not end -/
  | brokenText (fault : Break)
  /-- a word or numeral that does not end -/
  | broken (fault : Break)
  /-- a character that starts no token -/
  | stray
  /-- the end of the text -/
  | finish

structure Lexeme where
  token : Token
  start : Place
  stop : Place

/-- The place of a fault that is found by looking at a lexeme. -/
def Lexeme.peek (lexeme : Lexeme) : Place :=
  match lexeme.token with
  | .finish => lexeme.start
  | _ => lexeme.start.right 1

/-- whether the lexeme is the end of the text -/
def Lexeme.isFinish (lexeme : Lexeme) : Bool :=
  match lexeme.token with
  | .finish => true
  | _ => false

/-- Blanks between tokens are the space, the tab and the two line breaks. -/
def isBlank (c : Char) : Bool :=
  c == ' ' || c == '\t' || c == '\n' || c == '\r'

/-! ## Strings -/

/-- the value of a hexadecimal digit -/
def hexValue? (c : Char) : Option Nat :=
  if '0' ≤ c ∧ c ≤ '9' then some (c.toNat - 48)
  else if 'a' ≤ c ∧ c ≤ 'f' then some (c.toNat - 87)
  else if 'A' ≤ c ∧ c ≤ 'F' then some (c.toNat - 55)
  else none

/-- the value of four hexadecimal digits -/
def hexCode? (a b c d : Char) : Option Nat := do
  let a ← hexValue? a
  let b ← hexValue? b
  let c ← hexValue? c
  let d ← hexValue? d
  return ((a * 16 + b) * 16 + c) * 16 + d

/-- the character behind a one-letter escape -/
def letterEscape? (c : Char) : Option Char :=
  if c = '"' ∨ c = '\\' ∨ c = '/' then some c
  else if c = 'b' then some '\x08'
  else if c = 'f' then some '\x0c'
  else if c = 'n' then some '\n'
  else if c = 'r' then some '\r'
  else if c = 't' then some '\t'
  else none

/-- what a reader has of a string so far: its characters, last one first, or the first fault -/
abbrev Gathered := Except Fault (List Char)

namespace Gathered

def push (gathered : Gathered) (c : Char) : Gathered :=
  gathered.map (c :: ·)

/-- notes a fault, unless there was one before -/
def spoil (gathered : Gathered) (cause : SyntaxError) (place : Place) : Gathered :=
  match gathered with
  | .ok _ => .error ⟨cause, place⟩
  | .error fault => .error fault

def close (gathered : Gathered) : Except Fault String :=
  gathered.map fun chars => String.ofList chars.reverse

/-- a fault that ends the string for all; a reader may have noticed another one before -/
def abandon (gathered : Gathered) (fault : Break) : Break :=
  match gathered with
  | .ok _ => fault
  | .error earlier => { fault with read := earlier }

end Gathered

/-- Takes in one escaped code unit, with the high surrogate that came before it, if any. The place is the
one behind the escape. With the new state comes the high surrogate that now waits for its partner. -/
def takeUnit (gathered : Gathered) (high : Option Nat) (code : Nat) (place : Place) : Gathered × Option Nat :=
  let low := 0xDC00 ≤ code ∧ code ≤ 0xDFFF
  match high with
  | some first =>
    if low then (gathered.push (Char.ofNat (0x10000 + (first - 0xD800) * 1024 + (code - 0xDC00))), none)
    else (gathered.spoil .loneSurrogate place, none)
  | none =>
    if low then (gathered.spoil .loneSurrogate place, none)
    else if 0xD800 ≤ code ∧ code ≤ 0xDBFF then (gathered, some code)
    else (gathered.push (Char.ofNat code), none)

/-- A high surrogate that is not followed by the escape of a low one is a fault at the byte found instead. -/
def loseHigh (gathered : Gathered) (high : Option Nat) (place : Place) : Gathered :=
  match high with
  | some _ => gathered.spoil .endOfHexEscape place
  | none => gathered

/-- how the scan of a string ends: at its closing quote, or not at all -/
inductive TextScan where
  | closed (value : Except Fault String) (stop : Place) (rest : List Char)
  | broken (fault : Break)

/-- Reads a string from behind its opening quote. -/
def scanText (place : Place) (gathered : Gathered) (high : Option Nat) : List Char → TextScan
  | [] => .broken (gathered.abandon (.both .endInString place))
  | c :: rest =>
    if c = '"' then
      .closed (loseHigh gathered high (place.right 1)).close (place.right 1) rest
    else if c = '\\' then
      match rest with
      | [] => .broken (gathered.abandon (.both .endInString (place.right 1)))
      | e :: tail =>
        if e = 'u' then
          let code := place.right 2
          match tail with
          | h₁ :: h₂ :: h₃ :: h₄ :: after =>
            match hexCode? h₁ h₂ h₃ h₄ with
            | some unit =>
              let (taken, waiting) := takeUnit gathered high unit (code.right 4)
              scanText (code.right 4) taken waiting after
            | none =>
              let behind := (code.afterBytes 4 (h₁ :: h₂ :: h₃ :: h₄ :: after)).getD code
              .broken (gathered.abandon (.both .invalidEscape behind))
          | few =>
            match code.afterBytes 4 few with
            | some behind => .broken (gathered.abandon (.both .invalidEscape behind))
            | none => .broken (gathered.abandon (.both .endInString (code.afterAll few)))
        else
          let behind := (place.right 1).peek (e :: tail)
          let gathered := loseHigh gathered high behind
          match letterEscape? e with
          | some found => scanText (place.right 2) (gathered.push found) none tail
          | none => .broken (gathered.abandon (.both .invalidEscape behind))
    else if c.toNat < 32 then
      let behind := place.peek (c :: rest)
      .broken ((loseHigh gathered high behind).abandon ⟨⟨.controlCharacter, behind⟩, ⟨.controlCharacter, place⟩⟩)
    else
      scanText (place.after c) ((loseHigh gathered high (place.right 1)).push c) none rest

/-! ## Tokens -/

/-- Takes the rest of a word off a text. -/
def scanWord (place : Place) : List Char → List Char → Except Fault (Place × List Char)
  | [], text => .ok (place, text)
  | _ :: _, [] => .error ⟨.endInValue, place⟩
  | e :: expected, c :: text =>
    if c = e then scanWord (place.right 1) expected text
    else .error ⟨.expectedIdent, place.peek (c :: text)⟩

/-- a token, the place behind it and the text that follows -/
structure Piece where
  token : Token
  stop : Place
  rest : List Char

/-- a word after its first letter -/
def wordPiece (start : Place) (token : Token) (letters text : List Char) : Piece :=
  match scanWord (start.right 1) letters text with
  | .ok (stop, rest) => ⟨token, stop, rest⟩
  | .error fault => ⟨.broken ⟨fault, fault⟩, start, []⟩

/-- a numeral, from its first character on -/
def numberPiece (start : Place) (text : List Char) : Piece :=
  match Numeral.scan? start text with
  | .error fault => ⟨.broken fault, start, []⟩
  | .ok (numeral, rest) =>
    let stop := start.right (text.length - rest.length)
    let value := numeral.value.mapError fun left =>
      ⟨.numberOutOfRange, ⟨stop.line, stop.column - left⟩⟩
    ⟨.number value, stop, rest⟩

/-- a string, from behind its opening quote on -/
def textPiece (start : Place) (text : List Char) : Piece :=
  match scanText (start.right 1) (.ok []) none text with
  | .closed value stop rest => ⟨.text value, stop, rest⟩
  | .broken fault => ⟨.brokenText fault, start, []⟩

/-- the token that a character is by itself -/
def mark? (c : Char) : Option Token :=
  if c = '[' then some .openArray
  else if c = ']' then some .closeArray
  else if c = '\x7b' then some .openObject
  else if c = '\x7d' then some .closeObject
  else if c = ',' then some .comma
  else if c = ':' then some .colon
  else none

/-- the word that a letter starts: its token and the letters that have to follow -/
def word? (c : Char) : Option (Token × List Char) :=
  if c = 'n' then some (.null, ['u', 'l', 'l'])
  else if c = 't' then some (.bool true, ['r', 'u', 'e'])
  else if c = 'f' then some (.bool false, ['a', 'l', 's', 'e'])
  else none

/-- The token that starts with a character that is no blank. Nothing is left of the text behind a token
that is broken. -/
def firstPiece (start : Place) (c : Char) (text : List Char) : Piece :=
  match mark? c with
  | some token => ⟨token, start.right 1, text⟩
  | none =>
    match word? c with
    | some (token, letters) => wordPiece start token letters text
    | none =>
      if c = '"' then textPiece start text
      else if c = '-' ∨ c.isDigit then numberPiece start (c :: text)
      else ⟨.stray, start, []⟩

theorem rest_length_of_scanText {place : Place} {gathered : Gathered} {high : Option Nat} {text : List Char}
    {value : Except Fault String} {stop : Place} {rest : List Char}
    (h : scanText place gathered high text = .closed value stop rest) : rest.length < text.length := by
  fun_induction scanText place gathered high text <;> simp_all <;> omega

theorem rest_length_of_scanWord {place stop : Place} {letters text rest : List Char}
    (h : scanWord place letters text = .ok (stop, rest)) : rest.length ≤ text.length := by
  fun_induction scanWord place letters text <;> simp_all
  omega

/-- What follows a token is no longer than what follows its first character. -/
theorem rest_length_firstPiece (start : Place) (c : Char) (text : List Char) :
    (firstPiece start c text).rest.length ≤ text.length := by
  have hword (token : Token) (letters : List Char) :
      (wordPiece start token letters text).rest.length ≤ text.length := by
    unfold wordPiece
    split
    · rename_i h; exact rest_length_of_scanWord h
    · exact Nat.zero_le _
  have hnumber : (numberPiece start (c :: text)).rest.length ≤ text.length := by
    unfold numberPiece
    split
    · exact Nat.zero_le _
    · rename_i h; exact Nat.le_of_lt_succ (Numeral.length_of_scan h)
  have hbody : (textPiece start text).rest.length ≤ text.length := by
    unfold textPiece
    split
    · rename_i h; exact Nat.le_of_lt (rest_length_of_scanText h)
    · exact Nat.zero_le _
  unfold firstPiece
  split
  · exact Nat.le_refl _
  · split
    · exact hword ..
    · split
      · exact hbody
      · split
        · exact hnumber
        · exact Nat.zero_le _

/-- whether nothing can follow the token -/
def Token.isLast : Token → Bool
  | .brokenText _ | .broken _ | .stray | .finish => true
  | _ => false

/-- The lexemes of a text that starts at a place, up to its end or to the first token that is broken. -/
def lexemesFrom (place : Place) : List Char → List Lexeme
  | [] => [⟨.finish, place, place⟩]
  | c :: text =>
    if isBlank c then lexemesFrom (place.after c) text
    else
      let piece := firstPiece place c text
      let lexeme := ⟨piece.token, place, piece.stop⟩
      if piece.token.isLast then [lexeme] else lexeme :: lexemesFrom piece.stop piece.rest
termination_by text => text.length
decreasing_by
  · simp
  · have := rest_length_firstPiece place c text
    simp; omega

/-- the lexemes of a text -/
def Lexeme.ofText (text : String) : List Lexeme :=
  lexemesFrom .origin text.toList

end GraphSchema.Json
