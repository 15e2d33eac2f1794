import GraphSchema.Json.Lexeme
import GraphSchema.Proofs.Numerals

/-!
How a text falls into lexemes.

- `Front` : the characters of a token at the front of a text are the same before whatever follows them, unless
  what follows goes on with a numeral; `front_firstPiece` has it for every token that is whole.
- `lexemesFrom_append` : the lexemes of two texts written one behind the other.
- `split_of_lexemesFrom` : any lexemes at the start of a text are those of a text of their own.
-/

namespace GraphSchema.Json

/-- whether a character goes on with a numeral that ends in a digit -/
def continuesNumeral (c : Char) : Bool :=
  c.isDigit || c == '.' || Numeral.isMark c

/-- Nothing at the start of `rest` goes on with a numeral at the end of `head`. -/
def Severs (head rest : List Char) : Prop :=
  ∀ last next, head.getLast? = some last → rest.head? = some next → last.isDigit → continuesNumeral next = false

theorem Severs.nil_right (head : List Char) : Severs head [] := by
  intro last next _ hnone
  cases hnone

theorem severs_of_last {head rest : List Char} {last : Char} (h : head.getLast? = some last)
    (hother : last.isDigit = false) : Severs head rest := by
  intro last' next hfound _ hdigit
  rw [h] at hfound
  cases hfound
  rw [hother] at hdigit
  cases hdigit

theorem Severs.of_append {front head rest : List Char} (h : Severs (front ++ head) rest) : Severs head rest := by
  intro last next hfound
  exact h last next (by rw [List.getLast?_append, hfound]; rfl)

theorem Severs.append (front : List Char) {head rest : List Char} (h : Severs head rest) (hnonempty : head ≠ []) :
    Severs (front ++ head) rest := by
  intro last next hfound
  obtain ⟨last', hfound'⟩ := List.getLast?_isSome.2 hnonempty |> Option.isSome_iff_exists.1
  rw [List.getLast?_append, hfound'] at hfound
  exact h last next (hfound'.trans hfound)

/-- The token is no numeral, or the numeral of an integer. -/
def Token.Plain : Token → Prop
  | .number value => ∃ n, value = .ok (.int n)
  | _ => True

/-- A token at the front of a text, behind its first character `c` written as `used`: it is found before
whatever starts as the text behind it does, and before whatever does not go on with it. -/
structure Front (start : Place) (c : Char) (used : List Char) (piece : Piece) : Prop where
  again : ∀ rest, rest.head? = piece.rest.head? ∨ Severs (c :: used) rest →
    firstPiece start c (used ++ rest) = ⟨piece.token, piece.stop, rest⟩
  severs : piece.token.Plain → Severs (c :: used) piece.rest

/-! ## Words and strings -/

theorem of_scanWord {place stop : Place} {letters text rest : List Char}
    (h : scanWord place letters text = .ok (stop, rest)) :
    text = letters ++ rest ∧ ∀ other, scanWord place letters (letters ++ other) = .ok (stop, other) := by
  induction letters generalizing place text with
  | nil => cases h; exact ⟨rfl, fun _ => rfl⟩
  | cons e letters ih =>
    cases text with
    | nil => cases h
    | cons c text =>
      simp only [scanWord] at h
      split at h
      · rename_i hsame
        obtain ⟨rfl, hagain⟩ := ih h
        exact ⟨by rw [hsame]; rfl, fun other => by simpa [scanWord] using hagain other⟩
      · cases h

section Strings

variable {place stop : Place} {gathered : Gathered} {high : Option Nat} {rest : List Char}

theorem scanText_quote : scanText place gathered high ('"' :: rest) =
    .closed (loseHigh gathered high (place.right 1)).close (place.right 1) rest := by
  rw [scanText.eq_def]; rfl

theorem scanText_unit {a b c d : Char} {unit : Nat} {taken : Gathered} {waiting : Option Nat}
    (h : hexCode? a b c d = some unit)
    (htook : takeUnit gathered high unit ((place.right 2).right 4) = (taken, waiting)) :
    scanText place gathered high ('\\' :: 'u' :: a :: b :: c :: d :: rest) =
      scanText ((place.right 2).right 4) taken waiting rest := by
  rw [scanText.eq_def]
  simp [h, htook]

theorem scanText_letter {e found : Char} (hother : e ≠ 'u') (h : letterEscape? e = some found) :
    scanText place gathered high ('\\' :: e :: rest) =
      scanText (place.right 2) ((loseHigh gathered high ((place.right 1).peek [e])).push found) none rest := by
  rw [scanText.eq_def]
  simp [h, hother, Place.peek]

theorem scanText_plain {c : Char} (hquote : c ≠ '"') (hescape : c ≠ '\\') (hcontrol : ¬ c.toNat < 32) :
    scanText place gathered high (c :: rest) =
      scanText (place.after c) ((loseHigh gathered high (place.right 1)).push c) none rest := by
  rw [scanText.eq_def]
  simp [hquote, hescape, hcontrol]

/-- A string that ends is the same before whatever follows it. -/
theorem of_scanText {text : List Char} {value : Except Fault String}
    (h : scanText place gathered high text = .closed value stop rest) :
    ∃ body, text = body ++ '"' :: rest ∧
      ∀ other, scanText place gathered high (body ++ '"' :: other) = .closed value stop other := by
  fun_induction scanText place gathered high text with
  | case1 | case3 | case5 | case6 | case7 | case9 | case10 => cases h
  | case2 place gathered high text =>
    cases h
    exact ⟨[], rfl, fun other => scanText_quote⟩
  | case4 place gathered high code h₁ h₂ h₃ h₄ after unit hhex taken waiting htook _ ih =>
    obtain ⟨body, rfl, hagain⟩ := ih h
    refine ⟨'\\' :: 'u' :: h₁ :: h₂ :: h₃ :: h₄ :: body, rfl, fun other => ?_⟩
    exact (scanText_unit hhex htook).trans (hagain other)
  | case8 place gathered high e tail hother behind kept found hescapeOf _ ih =>
    obtain ⟨body, rfl, hagain⟩ := ih h
    refine ⟨'\\' :: e :: body, rfl, fun rest => ?_⟩
    exact (scanText_letter hother hescapeOf).trans (hagain rest)
  | case11 place gathered high c text hquote hescape hcontrol ih =>
    obtain ⟨body, rfl, hagain⟩ := ih h
    refine ⟨c :: body, rfl, fun rest => ?_⟩
    exact (scanText_plain hquote hescape hcontrol).trans (hagain rest)

end Strings

/-! ## Tokens -/

section Tokens

variable {start : Place} {c : Char} {text : List Char}

theorem isDigit_eq_false_of_mark {token : Token} (h : mark? c = some token) : c.isDigit = false := by
  unfold mark? at h
  repeat' split at h
  all_goals first | (subst_vars; decide) | cases h

/-- The letters of a word are no digits. -/
theorem getLast_of_word {token : Token} {letters : List Char} (h : word? c = some (token, letters)) :
    ∃ last, (c :: letters).getLast? = some last ∧ last.isDigit = false := by
  unfold word? at h
  split at h
  · cases h; exact ⟨'l', rfl, by decide⟩
  split at h
  · cases h; exact ⟨'e', rfl, by decide⟩
  split at h
  · cases h; exact ⟨'e', rfl, by decide⟩
  · cases h

theorem front_wordPiece {token : Token} {letters : List Char} (hunmarked : mark? c = none)
    (hword : word? c = some (token, letters)) (hwhole : (wordPiece start token letters text).token.isLast = false) :
    ∃ used, text = used ++ (wordPiece start token letters text).rest ∧
      Front start c used (wordPiece start token letters text) := by
  obtain ⟨last, hlast, hother⟩ := getLast_of_word hword
  unfold wordPiece at hwhole ⊢
  split
  · rename_i stop rest hscanned
    obtain ⟨hsame, hagain⟩ := of_scanWord hscanned
    refine ⟨letters, hsame, fun other _ => ?_, fun _ => severs_of_last hlast hother⟩
    simp only [firstPiece, hunmarked, hword, wordPiece, hagain other]
  · rename_i hbroken
    rw [hbroken] at hwhole
    cases hwhole

theorem front_textPiece (hwhole : (textPiece start text).token.isLast = false) :
    ∃ used, text = used ++ (textPiece start text).rest ∧ Front start '"' used (textPiece start text) := by
  unfold textPiece at hwhole ⊢
  split
  · rename_i value stop rest hscanned
    obtain ⟨body, hsame, hagain⟩ := of_scanText hscanned
    refine ⟨body ++ ['"'], by simpa using hsame, fun other _ => ?_, fun _ => ?_⟩
    · have := hagain other
      simp [firstPiece, mark?, word?, textPiece, this]
    · have hlast : ('"' :: (body ++ ['"'])).getLast? = some '"' := by
        rw [← List.cons_append, List.getLast?_concat]
      exact severs_of_last hlast (by decide)
  · rename_i hbroken
    rw [hbroken] at hwhole
    cases hwhole

namespace Numeral

variable {numeral : Numeral} {used rest : List Char}

/-- A numeral ends in a digit. -/
theorem Spells.getLast (h : Spells numeral used) : ∃ last, used.getLast? = some last ∧ last.isDigit = true := by
  have hofDigits (front : List Char) {digits : List Char} (hnonempty : digits ≠ []) (hall : AllDigits digits) :
      ∃ last, (front ++ digits).getLast? = some last ∧ last.isDigit = true := by
    refine ⟨digits.getLast hnonempty, ?_, hall _ (List.getLast_mem hnonempty)⟩
    rw [List.getLast?_append, List.getLast?_eq_some_getLast hnonempty]
    rfl
  obtain ⟨exponent, hspelt, rfl⟩ := h.parts
  generalize numeral.exponent = value at hspelt
  cases hspelt with
  | signed mark sign negative found hmarked hsigned hnonempty hall =>
    simpa only [List.append_assoc, List.cons_append] using
      hofDigits (signChars numeral.negative ++ numeral.whole ++ fractionChars numeral.fraction ++ mark :: sign)
        hnonempty hall
  | none =>
    rcases hfraction : numeral.fraction with _ | ⟨d, more⟩
    · simpa only [fractionChars, List.append_nil] using hofDigits _ h.whole.nonempty h.whole.all
    · have hall : AllDigits (d :: more) := hfraction ▸ h.fraction
      simpa only [fractionChars, List.append_assoc, List.append_nil, List.cons_append, List.nil_append] using
        hofDigits (signChars numeral.negative ++ numeral.whole ++ ['.']) (List.cons_ne_nil d more) hall

/-- What does not go on with a numeral does not belong to the numeral before it. -/
theorem Spells.ends (h : Spells numeral used) (hsevers : Severs used rest) : Ends numeral rest := by
  obtain ⟨last, hlast, hdigit⟩ := h.getLast
  have hother (c : Char) (hc : rest.head? = some c) : c.isDigit = false ∧ c ≠ '.' ∧ isMark c = false := by
    have := hsevers last c hlast hc hdigit
    simpa [continuesNumeral, and_assoc] using this
  refine ⟨fun c hc => (hother c hc).1, fun _ c hc => (hother c hc).2.2, fun _ _ hpoint => ?_⟩
  exact (hother '.' hpoint).2.1 rfl

theorem Ends.of_head {rest' : List Char} (h : Ends numeral rest) (hsame : rest'.head? = rest.head?) :
    Ends numeral rest' := by
  refine ⟨?_, ?_, ?_⟩
  · intro c hc; exact h.digit c (hsame ▸ hc)
  · intro hnone c hc; exact h.mark hnone c (hsame ▸ hc)
  · intro hnone hempty; rw [hsame]; exact h.point hnone hempty

end Numeral

theorem front_numberPiece (hunmarked : mark? c = none) (hnoWord : word? c = none) (hquote : c ≠ '"')
    (hstarts : c = '-' ∨ c.isDigit) (hwhole : (numberPiece start (c :: text)).token.isLast = false) :
    ∃ used, text = used ++ (numberPiece start (c :: text)).rest ∧
      Front start c used (numberPiece start (c :: text)) := by
  have hfirst (text : List Char) : firstPiece start c text = numberPiece start (c :: text) := by
    simp only [firstPiece, hunmarked, hnoWord, if_neg hquote, if_pos hstarts]
  generalize hpiece : numberPiece start (c :: text) = found at hwhole ⊢
  unfold numberPiece at hpiece
  split at hpiece
  · subst hpiece
    cases hwhole
  · rename_i numeral rest hscanned
    obtain ⟨used', hsame, hspelt, hends⟩ := Numeral.scan?_eq_ok_iff.1 hscanned
    obtain ⟨used, rfl⟩ : ∃ used, used' = c :: used := by
      cases used' with
      | nil =>
        obtain ⟨last, hnone, -⟩ := hspelt.getLast
        cases hnone
      | cons d used => exact ⟨used, by rw [(List.cons.inj hsame).1]⟩
    obtain rfl : text = used ++ rest := (List.cons.inj hsame).2
    subst hpiece
    refine ⟨used, rfl, fun other hcondition => ?_, ?_⟩
    · have hends' : numeral.Ends other := by
        rcases hcondition with hsame | hsevers
        · exact hends.of_head hsame
        · exact hspelt.ends hsevers
      have hscanned' : Numeral.scan? start (c :: (used ++ other)) = .ok (numeral, other) :=
        Numeral.scan?_eq_ok_iff.2 ⟨c :: used, rfl, hspelt, hends'⟩
      have hsameLength : (c :: (used ++ other)).length - other.length = (c :: (used ++ rest)).length - rest.length := by
        simp only [List.length_cons, List.length_append]; omega
      rw [hfirst, numberPiece, hscanned']
      simp only [hsameLength]
    · rintro ⟨n, hint⟩ last next _ hnext _
      have hint' : numeral.value = .ok (.int n) := by
        cases h : numeral.value with
        | ok value => rw [h] at hint; cases hint; rfl
        | error left => rw [h] at hint; cases hint
      obtain ⟨hempty, hnone⟩ := Numeral.plain_of_value hint'
      have := hends.digit next hnext
      have := hends.mark hnone next hnext
      have hpoint : next ≠ '.' := by rintro rfl; exact hends.point hnone hempty hnext
      simp [continuesNumeral, *]

/-- **The token at the front of a text** is the same before everything that does not go on with it. -/
theorem front_firstPiece (hwhole : (firstPiece start c text).token.isLast = false) :
    ∃ used, text = used ++ (firstPiece start c text).rest ∧ Front start c used (firstPiece start c text) := by
  cases hmark : mark? c with
  | some token =>
    have hfirst (text : List Char) : firstPiece start c text = ⟨token, start.right 1, text⟩ := by
      simp only [firstPiece, hmark]
    rw [hfirst]
    exact ⟨[], rfl, fun other _ => hfirst other, fun _ => severs_of_last rfl (isDigit_eq_false_of_mark hmark)⟩
  | none =>
    cases hword : word? c with
    | some found =>
      have hfirst : firstPiece start c text = wordPiece start found.1 found.2 text := by
        simp only [firstPiece, hmark, hword]
      rw [hfirst] at hwhole ⊢
      exact front_wordPiece hmark hword hwhole
    | none =>
      by_cases hquote : c = '"'
      · subst hquote
        have hfirst : firstPiece start '"' text = textPiece start text := by
          simp only [firstPiece, hmark, hword, if_pos]
        rw [hfirst] at hwhole ⊢
        exact front_textPiece hwhole
      · by_cases hstarts : c = '-' ∨ c.isDigit
        · have hfirst : firstPiece start c text = numberPiece start (c :: text) := by
            simp only [firstPiece, hmark, hword, if_neg hquote, if_pos hstarts]
          rw [hfirst] at hwhole ⊢
          exact front_numberPiece hmark hword hquote hstarts hwhole
        · simp [firstPiece, hmark, hword, hquote, hstarts, Token.isLast] at hwhole

end Tokens

/-! ## Texts -/

section Texts

variable {place stop : Place} {head rest text : List Char} {front : List Lexeme}

theorem lexemesFrom_blank {c : Char} (hblank : isBlank c) :
    lexemesFrom place (c :: text) = lexemesFrom (place.after c) text := by
  rw [lexemesFrom, if_pos hblank]

theorem lexemesFrom_token {c : Char} (hblank : ¬ isBlank c) (hwhole : (firstPiece place c text).token.isLast = false) :
    lexemesFrom place (c :: text) =
      ⟨(firstPiece place c text).token, place, (firstPiece place c text).stop⟩
        :: lexemesFrom (firstPiece place c text).stop (firstPiece place c text).rest := by
  rw [lexemesFrom, if_neg hblank]
  simp [hwhole]

theorem token_firstPiece_ne_finish (place : Place) (c : Char) (text : List Char) :
    (firstPiece place c text).token ≠ .finish := by
  have hmark {token : Token} (h : mark? c = some token) : token ≠ .finish := by
    unfold mark? at h
    repeat' split at h
    all_goals (cases h; try simp)
  have hword {token : Token} {letters : List Char} (h : word? c = some (token, letters)) : token ≠ .finish := by
    unfold word? at h
    repeat' split at h
    all_goals (cases h; try simp)
  unfold firstPiece
  split
  · rename_i h; exact hmark h
  split
  · rename_i h; unfold wordPiece; split
    · exact hword h
    · simp
  split
  · unfold textPiece; split <;> simp
  split
  · unfold numberPiece; split <;> simp
  · simp

/-- **One text behind another.** If the first one falls into whole lexemes and the second one does not go on
with its last one, both fall into the lexemes of the first and those of the second. -/
theorem lexemesFrom_append (h : lexemesFrom place head = front ++ [⟨.finish, stop, stop⟩])
    (hsevers : Severs head rest) : lexemesFrom place (head ++ rest) = front ++ lexemesFrom stop rest := by
  fun_induction lexemesFrom place head generalizing front with
  | case1 place =>
    obtain ⟨rfl, hsame⟩ := List.append_inj' (List.nil_append _ |>.trans h) rfl
    cases hsame
    rfl
  | case2 place c text hblank ih =>
    rw [List.cons_append, lexemesFrom_blank hblank]
    exact ih h (Severs.of_append (List.singleton_append ▸ hsevers))
  | case3 place c text hblank piece lexeme =>
    rename_i hlast
    obtain ⟨rfl, hsame⟩ := List.append_inj' (List.nil_append _ |>.trans h) rfl
    injection hsame with hsame
    injection hsame with hsame
    exact absurd hsame (token_firstPiece_ne_finish place c text)
  | case4 place c text hblank piece lexeme hwhole =>
    rename_i ih
    rw [Bool.not_eq_true] at hwhole
    obtain ⟨used, hsame, hfound⟩ := front_firstPiece hwhole
    obtain ⟨front, rfl⟩ : ∃ front', front = lexeme :: front' := by
      cases front with
      | nil =>
        injection h with hsame
        injection hsame with hsame
        exact absurd hsame (token_firstPiece_ne_finish place c text)
      | cons first front => exact ⟨front, by rw [(List.cons.inj h).1]⟩
    have hsevers' : Severs (c :: used ++ piece.rest) rest := by rwa [List.cons_append, ← hsame]
    have hnext : firstPiece place c (used ++ (piece.rest ++ rest)) = ⟨piece.token, piece.stop, piece.rest ++ rest⟩ := by
      refine hfound.again (piece.rest ++ rest) ?_
      cases hbehind : piece.rest with
      | nil => exact .inr (by simpa [hbehind] using hsevers')
      | cons d more => exact .inl (by rw [← hbehind]; simp [piece, hbehind])
    have hwhole' : (firstPiece place c (used ++ (piece.rest ++ rest))).token.isLast = false := by rw [hnext, hwhole]
    calc lexemesFrom place (c :: text ++ rest)
        = lexemesFrom place (c :: (used ++ (piece.rest ++ rest))) := by
          rw [List.cons_append, ← List.append_assoc, ← hsame]
      _ = lexeme :: lexemesFrom piece.stop (piece.rest ++ rest) := by
          rw [lexemesFrom_token hblank hwhole', hnext]
      _ = lexeme :: front ++ lexemesFrom stop rest := by
          rw [ih (List.cons.inj h).2 hsevers'.of_append, List.cons_append]

/-- **Some lexemes of a text** at its start, before further ones, are the lexemes of a text of their own. It
is severed from what follows unless its last token is a number that is no integer. -/
theorem split_of_lexemesFrom {next : Lexeme} {more : List Lexeme}
    (h : lexemesFrom place text = front ++ next :: more) :
    ∃ head rest stop, text = head ++ rest ∧ lexemesFrom place head = front ++ [⟨.finish, stop, stop⟩] ∧
      (∀ last, front.getLast? = some last → last.token.Plain → Severs head rest) := by
  cases front with
  | nil =>
    exact ⟨[], text, place, rfl, by rw [lexemesFrom]; rfl, fun last hnone => by cases hnone⟩
  | cons first front =>
  fun_induction lexemesFrom place text generalizing first front with
  | case1 place => simp at h
  | case2 place c text hblank ih =>
    obtain ⟨head, rest, stop, rfl, hlexemes, hsevers⟩ := ih first front h
    refine ⟨c :: head, rest, stop, rfl, by rw [lexemesFrom_blank hblank, hlexemes], fun last hlast hplain => ?_⟩
    have hnonempty : head ≠ [] := by
      rintro rfl
      simp [lexemesFrom] at hlexemes
    exact (hsevers last hlast hplain).append [c] hnonempty
  | case3 place c text hblank piece lexeme => simp at h
  | case4 place c text hblank piece lexeme hwhole =>
    rename_i ih
    rw [Bool.not_eq_true] at hwhole
    obtain ⟨used, hsame, hfound⟩ := front_firstPiece hwhole
    obtain ⟨rfl, hbehind⟩ := List.cons.inj h
    have hagain (head rest : List Char) (hsplit : piece.rest = head ++ rest) :
        lexemesFrom place (c :: (used ++ head)) = lexeme :: lexemesFrom piece.stop head := by
      have hnext : firstPiece place c (used ++ head) = ⟨piece.token, piece.stop, head⟩ := by
        refine hfound.again head ?_
        cases head with
        | nil => exact .inr (Severs.nil_right _)
        | cons d more => exact .inl (by show some d = piece.rest.head?; rw [hsplit]; rfl)
      have hwhole' : (firstPiece place c (used ++ head)).token.isLast = false := by rw [hnext, hwhole]
      rw [lexemesFrom_token hblank hwhole', hnext]
    cases front with
    | nil =>
      refine ⟨c :: used, piece.rest, piece.stop, by rw [List.cons_append, ← hsame], ?_, fun last hlast hplain => ?_⟩
      · have := hagain [] piece.rest rfl
        rw [List.append_nil, lexemesFrom] at this
        exact this
      · cases hlast
        exact hfound.severs hplain
    | cons second front =>
      obtain ⟨head, rest, stop, hsplit, hlexemes, hsevers⟩ := ih second front hbehind
      refine ⟨c :: (used ++ head), rest, stop, ?_, ?_, fun last hlast hplain => ?_⟩
      · rw [List.cons_append, List.append_assoc, ← hsplit, ← hsame]
      · rw [hagain head rest hsplit, hlexemes]; rfl
      · have hnonempty : head ≠ [] := by
          rintro rfl
          simp [lexemesFrom] at hlexemes
        exact (hsevers last hlast hplain).append (c :: used) hnonempty

end Texts

end GraphSchema.Json
