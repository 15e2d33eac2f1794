import GraphSchema.Json.Reader
import GraphSchema.Proofs.Lexemes

/-!
The scan of a text and the value at its front.

- `Advances` : what one lexeme can do to a scan, and `Cut` : where it ends the scan before its time.
- `Outline.Closed` : the value is there to its end; `of_run_done` : the lexemes before the one at which the
  scan of such a value stops are all of it.
- `Outline.Tied` : in an object, a closing brace behind a member that is a scalar is the end of the object.
- `ofText_split`, `ofText_append` : the value at the front of a text is the value of a text that it fills.
-/

namespace GraphSchema.Json

/-- whether a token is a value by itself -/
def Token.isScalar : Token → Bool
  | .null | .bool _ | .number _ | .text _ => true
  | _ => false

/-- whether an outline is a value without brackets -/
def Outline.isScalar : Outline → Bool
  | .leaf lexeme => lexeme.token.isScalar
  | _ => false

/-- The value is there to its end: a closed bracket, or a scalar that is no number but an integer. -/
def Outline.Closed : Outline → Prop
  | .leaf lexeme => lexeme.token.isScalar ∧ lexeme.token.Plain
  | .uncoloned _ => False
  | .array _ _ ending | .object _ _ ending => ∃ lexeme, ending = .closed lexeme

/-! ## One step of a scan -/

/-- a bracket that ends at a lexeme, but not by being closed -/
inductive Ending.Open (lexeme : Lexeme) : Ending → Prop
  | afterComma : Open lexeme (.afterComma lexeme)
  | elsewhere : Open lexeme (.elsewhere lexeme)

/-- A lexeme that a scan cannot go on with: the part that is cut off there, and the brackets around it. -/
inductive Cut (lexeme : Lexeme) : Scan → Outline → List Frame → Prop
  | value {frames : List Frame} (hother : lexeme.token.isScalar = false) :
      Cut lexeme (.awaitValue frames) (.leaf lexeme) frames
  | items {opened : Lexeme} {items : List Outline} {ending : Ending} {frames : List Frame}
      (hunclosed : ending.Open lexeme) :
      Cut lexeme (.awaitValue (.array opened items :: frames)) (.array opened items.reverse ending) frames
  | item {outline : Outline} {opened : Lexeme} {items : List Outline} {frames : List Frame} :
      Cut lexeme (.complete outline (.array opened items :: frames))
        (.array opened (outline :: items).reverse (.elsewhere lexeme)) frames
  | members {opened : Lexeme} {members : List (Key × Outline × Lexeme)} {ending : Ending} {frames : List Frame}
      (hunclosed : ending.Open lexeme) :
      Cut lexeme (.awaitKey opened members frames) (.object opened members.reverse ending) frames
  | key {opened : Lexeme} {members : List (Key × Outline × Lexeme)} {frames : List Frame}
      (hother : lexeme.token.isScalar = false) :
      Cut lexeme (.awaitKey opened members frames)
        (.object opened ((⟨lexeme, lexeme⟩, .leaf lexeme, lexeme) :: members).reverse (.elsewhere lexeme)) frames
  | colon {opened key : Lexeme} {members : List (Key × Outline × Lexeme)} {frames : List Frame} :
      Cut lexeme (.awaitColon opened members key frames)
        (.object opened ((⟨key, lexeme⟩, .uncoloned lexeme, lexeme) :: members).reverse (.elsewhere lexeme)) frames
  | member {outline : Outline} {opened : Lexeme} {members : List (Key × Outline × Lexeme)} {key : Key}
      {frames : List Frame} (hother : Ending.isCloseObject lexeme = false) :
      Cut lexeme (.complete outline (.object opened members key :: frames))
        (.object opened ((key, outline, lexeme) :: members).reverse (.elsewhere lexeme)) frames

/-- What a lexeme can do to a scan. -/
inductive Advances (lexeme : Lexeme) : Scan → Scan → Prop
  | openArray {frames : List Frame} (htoken : lexeme.token = .openArray) :
      Advances lexeme (.awaitValue frames) (.awaitValue (.array lexeme [] :: frames))
  | openObject {frames : List Frame} (htoken : lexeme.token = .openObject) :
      Advances lexeme (.awaitValue frames) (.awaitKey lexeme [] frames)
  | scalar {frames : List Frame} (htoken : lexeme.token.isScalar) :
      Advances lexeme (.awaitValue frames) (.complete (.leaf lexeme) frames)
  | emptyArray {opened : Lexeme} {frames : List Frame} (htoken : lexeme.token = .closeArray) :
      Advances lexeme (.awaitValue (.array opened [] :: frames)) (.complete (.array opened [] (.closed lexeme)) frames)
  | key {opened : Lexeme} {members : List (Key × Outline × Lexeme)} {frames : List Frame}
      {value : Except Fault String} (htoken : lexeme.token = .text value) :
      Advances lexeme (.awaitKey opened members frames) (.awaitColon opened members lexeme frames)
  | emptyObject {opened : Lexeme} {frames : List Frame} (htoken : lexeme.token = .closeObject) :
      Advances lexeme (.awaitKey opened [] frames) (.complete (.object opened [] (.closed lexeme)) frames)
  | colon {opened key : Lexeme} {members : List (Key × Outline × Lexeme)} {frames : List Frame}
      (htoken : lexeme.token = .colon) :
      Advances lexeme (.awaitColon opened members key frames)
        (.awaitValue (.object opened members ⟨key, lexeme⟩ :: frames))
  | nextItem {outline : Outline} {opened : Lexeme} {items : List Outline} {frames : List Frame}
      (htoken : lexeme.token = .comma) :
      Advances lexeme (.complete outline (.array opened items :: frames))
        (.awaitValue (.array opened (outline :: items) :: frames))
  | lastItem {outline : Outline} {opened : Lexeme} {items : List Outline} {frames : List Frame}
      (htoken : lexeme.token = .closeArray) :
      Advances lexeme (.complete outline (.array opened items :: frames))
        (.complete (.array opened (outline :: items).reverse (.closed lexeme)) frames)
  | nextMember {outline : Outline} {opened : Lexeme} {members : List (Key × Outline × Lexeme)} {key : Key}
      {frames : List Frame} (htoken : lexeme.token = .comma) :
      Advances lexeme (.complete outline (.object opened members key :: frames))
        (.awaitKey opened ((key, outline, lexeme) :: members) frames)
  | lastMember {outline : Outline} {opened : Lexeme} {members : List (Key × Outline × Lexeme)} {key : Key}
      {frames : List Frame} (htoken : lexeme.token = .closeObject) :
      Advances lexeme (.complete outline (.object opened members key :: frames))
        (.complete (.object opened ((key, outline, lexeme) :: members).reverse (.closed lexeme)) frames)
  | behind {outline : Outline} : Advances lexeme (.complete outline []) (.done outline lexeme)
  | ended {outline : Outline} {next : Lexeme} : Advances lexeme (.done outline next) (.done outline next)
  | cut {scan : Scan} {part : Outline} {frames : List Frame} (hcut : Cut lexeme scan part frames) :
      Advances lexeme scan (cutOff part lexeme frames)

section Step

variable {lexeme : Lexeme} {frames : List Frame}

theorem advances_takeValue : Advances lexeme (.awaitValue frames) (Scan.takeValue frames lexeme) := by
  unfold Scan.takeValue
  have hscalar (token : Token) (h : lexeme.token = token) : token.isScalar = lexeme.token.isScalar := by rw [h]
  split
  case h_1 htoken => exact .openArray htoken
  case h_2 htoken => exact .openObject htoken
  case h_7 htoken =>
    split
    · exact .emptyArray htoken
    · exact .cut (.items .afterComma)
    · exact .cut (.value (hscalar _ htoken).symm)
  case h_8 htoken =>
    split
    · exact .cut (.items .elsewhere)
    · exact .cut (.items .afterComma)
    · exact .cut (.value (hscalar _ htoken).symm)
  case h_3 htoken | h_4 htoken | h_5 htoken | h_6 htoken => exact .scalar (hscalar _ htoken).symm
  all_goals
    rename_i htoken
    exact .cut (.value (hscalar _ htoken).symm)

theorem advances_takeKey {opened : Lexeme} {members : List (Key × Outline × Lexeme)} :
    Advances lexeme (.awaitKey opened members frames) (Scan.takeKey opened members frames lexeme) := by
  unfold Scan.takeKey
  split
  · rename_i htoken; exact .key htoken
  · rename_i htoken; exact .cut (.key (by rw [htoken]; rfl))
  · rename_i htoken; exact .emptyObject htoken
  · exact .cut (.members .elsewhere)
  · exact .cut (.members .afterComma)

theorem advances_takeColon {opened key : Lexeme} {members : List (Key × Outline × Lexeme)} :
    Advances lexeme (.awaitColon opened members key frames) (Scan.takeColon opened members key frames lexeme) := by
  unfold Scan.takeColon
  split
  · rename_i htoken; exact .colon htoken
  · exact .cut .colon

theorem advances_takeNext {outline : Outline} :
    Advances lexeme (.complete outline frames) (Scan.takeNext outline frames lexeme) := by
  unfold Scan.takeNext
  split
  · exact .behind
  · split
    · rename_i htoken; exact .nextItem htoken
    · rename_i htoken; exact .lastItem htoken
    · exact .cut .item
  · dsimp only
    split
    · rename_i htoken; exact .nextMember htoken
    · rename_i htoken; exact .lastMember htoken
    · rename_i hnotComma hnotClose
      refine .cut (.member ?_)
      unfold Ending.isCloseObject
      split
      · rename_i htoken; exact absurd htoken hnotClose
      · rfl

/-- **One step.** Every step of a scan is one of these. -/
theorem advances (scan : Scan) (lexeme : Lexeme) : Advances lexeme scan (scan.advance lexeme) := by
  cases scan with
  | awaitValue frames => exact advances_takeValue
  | awaitKey opened members frames => exact advances_takeKey
  | awaitColon opened members key frames => exact advances_takeColon
  | complete outline frames => exact advances_takeNext
  | done outline next => exact .ended

end Step

/-! ## The end of a scan -/

section Done

variable {outline out part : Outline} {lexeme next : Lexeme} {frames : List Frame} {scan : Scan}
  {lexemes : List Lexeme}

theorem Ending.Open.ne_closed {ending : Ending} (h : ending.Open lexeme) : ¬ ∃ last, ending = .closed last := by
  rintro ⟨last, rfl⟩
  cases h

/-- What is cut off is not closed. -/
theorem Cut.not_closed (h : Cut lexeme scan part frames) : ¬ part.Closed := by
  cases h with
  | value hother =>
    rintro ⟨hscalar, -⟩
    rw [hother] at hscalar
    cases hscalar
  | items hunclosed | members hunclosed => exact hunclosed.ne_closed
  | item | key | colon | member => exact Ending.Open.elsewhere.ne_closed

/-- A scan that is cut off is at its end, and what it has found is not closed. -/
theorem exists_of_cutOff {lexeme : Lexeme} {frames : List Frame} (hcut : ¬ part.Closed) :
    ∃ out, cutOff part lexeme frames = .done out lexeme ∧ ¬ out.Closed := by
  induction frames generalizing part with
  | nil => exact ⟨part, rfl, hcut⟩
  | cons frame frames ih =>
    cases frame with
    | array opened items => exact ih Ending.Open.elsewhere.ne_closed
    | object opened members key => exact ih Ending.Open.elsewhere.ne_closed

/-- The step at which a scan ends finds a closed value only if the value was complete before. -/
theorem complete_of_advance (h : scan.advance lexeme = .done out next) (hclosed : out.Closed) :
    scan = .done out next ∨ scan = .complete out [] ∧ next = lexeme := by
  have hstep := advances scan lexeme
  rw [h] at hstep
  generalize hended : Scan.done out next = after at hstep
  cases hstep with
  | behind => cases hended; exact .inr ⟨rfl, rfl⟩
  | ended => cases hended; exact .inl rfl
  | cut hcut =>
    obtain ⟨found, hsame, hunclosed⟩ := exists_of_cutOff hcut.not_closed
    rw [hsame] at hended
    cases hended
    exact absurd hclosed hunclosed
  | _ => cases hended

/-- The lexeme that completes a closed value is no number but an integer. -/
theorem plain_of_advance (h : scan.advance lexeme = .complete out frames) (hclosed : out.Closed) :
    lexeme.token.Plain := by
  have hstep := advances scan lexeme
  rw [h] at hstep
  generalize hcomplete : Scan.complete out frames = after at hstep
  cases hstep with
  | scalar => cases hcomplete; exact hclosed.2
  | emptyArray htoken | emptyObject htoken | lastItem htoken | lastMember htoken => rw [htoken]; trivial
  | cut hcut =>
    obtain ⟨found, hsame, -⟩ := exists_of_cutOff hcut.not_closed
    rw [hsame] at hcomplete
    cases hcomplete
  | _ => cases hcomplete

theorem foldl_done (lexemes : List Lexeme) : lexemes.foldl Scan.advance (.done out next) = .done out next := by
  induction lexemes with
  | nil => rfl
  | cons lexeme lexemes ih => exact ih

theorem exists_of_foldl_done (h : lexemes.foldl Scan.advance scan = .done out next) (hclosed : out.Closed) :
    scan = .done out next ∨
      ∃ front more, lexemes = front ++ next :: more ∧ front.foldl Scan.advance scan = .complete out [] := by
  induction lexemes generalizing scan with
  | nil => exact .inl h
  | cons lexeme lexemes ih =>
    rcases ih h with hended | ⟨front, more, rfl, hcomplete⟩
    · rcases complete_of_advance hended hclosed with hended | ⟨rfl, rfl⟩
      · exact .inl hended
      · exact .inr ⟨[], lexemes, rfl, rfl⟩
    · exact .inr ⟨lexeme :: front, more, rfl, hcomplete⟩

/-- **The end of a scan.** If a scan of lexemes stops behind a closed value, the lexemes before the one where
it stops are the value, and the last of them is no number but an integer. -/
theorem of_run_done (h : Scan.run lexemes = .done out next) (hclosed : out.Closed) :
    ∃ front more, lexemes = front ++ next :: more ∧ Scan.run front = .complete out [] ∧
      ∀ last, front.getLast? = some last → last.token.Plain := by
  rcases exists_of_foldl_done h hclosed with hstart | ⟨front, more, hsplit, hcomplete⟩
  · cases hstart
  refine ⟨front, more, hsplit, hcomplete, fun last hlast => ?_⟩
  obtain ⟨init, rfl⟩ := List.getLast?_eq_some_iff.1 hlast
  rw [List.foldl_append] at hcomplete
  exact plain_of_advance hcomplete hclosed

/-- A scan of the lexemes of a value ends at whatever follows them. -/
theorem run_append {front more : List Lexeme} (h : Scan.run front = .complete out []) :
    Scan.run (front ++ next :: more) = .done out next := by
  rw [Scan.run, List.foldl_append]
  show more.foldl Scan.advance ((Scan.run front).advance next) = _
  rw [h]
  exact foldl_done more

theorem run_of_result {lexemes : List Lexeme} (hclosed : (Scan.run lexemes).result.1.Closed) :
    Scan.run lexemes = .done (Scan.run lexemes).result.1 (Scan.run lexemes).result.2 := by
  cases hscan : Scan.run lexemes with
  | done outline next => rfl
  | _ =>
    rw [hscan] at hclosed
    obtain ⟨hscalar, -⟩ := hclosed
    cases hscalar

end Done

/-! ## The value at the front of a text -/

theorem exists_of_finish {place : Place} {text : List Char} {front more : List Lexeme} {next : Lexeme}
    (h : lexemesFrom place text = front ++ next :: more) (hfinish : next.isFinish) :
    more = [] ∧ ∃ stop, next = ⟨.finish, stop, stop⟩ := by
  have hother (place : Place) (c : Char) (text : List Char) (stop : Place) :
      Lexeme.isFinish ⟨(firstPiece place c text).token, place, stop⟩ = false := by
    have := token_firstPiece_ne_finish place c text
    unfold Lexeme.isFinish
    split
    · rename_i hisFinish; exact absurd hisFinish this
    · rfl
  fun_induction lexemesFrom place text generalizing front with
  | case1 place =>
    cases front with
    | nil => cases h; exact ⟨rfl, place, rfl⟩
    | cons first front => simp at h
  | case2 place c text hblank ih => exact ih h
  | case3 place c text hblank piece lexeme =>
    cases front with
    | nil =>
      rw [← (List.cons.inj h).1, hother] at hfinish
      cases hfinish
    | cons first front => simp at h
  | case4 place c text hblank piece lexeme hwhole =>
    rename_i ih
    cases front with
    | nil =>
      rw [← (List.cons.inj h).1, hother] at hfinish
      cases hfinish
    | cons first front => exact ih (List.cons.inj h).2

theorem lexemesFrom_ne_nil (place : Place) (text : List Char) : lexemesFrom place text ≠ [] := by
  fun_induction lexemesFrom place text with
  | case2 place c text hblank ih => exact ih
  | _ => simp

/-- **The value at the front of a text** is the value of a text that it fills, and which is not gone on with
by what follows it. -/
theorem ofText_split {text : String} (hclosed : (Outline.ofText text).1.Closed) :
    ∃ head rest, text = head ++ rest ∧ Severs head.toList rest.toList ∧
      (Outline.ofText head).1 = (Outline.ofText text).1 ∧ (Outline.ofText head).2.isFinish := by
  obtain ⟨front, more, hlexemes, hcomplete, hplain⟩ := of_run_done (run_of_result hclosed) hclosed
  obtain ⟨head, rest, stop, hsplit, hlexemes', hsevers⟩ := split_of_lexemesFrom hlexemes
  have hsame : Outline.ofText (String.ofList head) = ((Outline.ofText text).1, ⟨.finish, stop, stop⟩) := by
    rw [Outline.ofText, Lexeme.ofText, String.toList_ofList, hlexemes', run_append hcomplete]
    rfl
  refine ⟨String.ofList head, String.ofList rest, ?_, ?_, by rw [hsame], by rw [hsame]; rfl⟩
  · rw [← String.ofList_append, ← hsplit, String.ofList_toList]
  · rw [String.toList_ofList, String.toList_ofList]
    cases hlast : front.getLast? with
    | some last => exact hsevers last hlast (hplain last hlast)
    | none =>
      rw [List.getLast?_eq_none_iff.1 hlast] at hcomplete
      cases hcomplete

/-- **Further text** behind a value and the blanks behind it does not change the value, unless it goes on with
it. -/
theorem ofText_append {head rest : String} (hclosed : (Outline.ofText head).1.Closed)
    (hfinish : (Outline.ofText head).2.isFinish) (hsevers : Severs head.toList rest.toList) :
    (Outline.ofText (head ++ rest)).1 = (Outline.ofText head).1 := by
  obtain ⟨front, more, hlexemes, hcomplete, -⟩ := of_run_done (run_of_result hclosed) hclosed
  obtain ⟨rfl, stop, hsame⟩ := exists_of_finish hlexemes hfinish
  have hlexemes' := lexemesFrom_append (by rw [← hsame]; exact hlexemes) hsevers
  obtain ⟨next, behind, hfurther⟩ := List.exists_cons_of_ne_nil (lexemesFrom_ne_nil stop rest.toList)
  rw [Outline.ofText, Lexeme.ofText, String.toList_append, hlexemes', hfurther, run_append hcomplete]
  rfl

/-! ## Members and closing braces -/

section Tied

variable {outline part : Outline} {opened lexeme : Lexeme} {members : List (Key × Outline × Lexeme)}
  {ending : Ending} {frames : List Frame} {scan : Scan}

/-- no member is followed by a closing brace -/
def Separated (members : List (Key × Outline × Lexeme)) : Prop :=
  ∀ member ∈ members, Ending.isCloseObject member.2.2 = false

/-- In an object, a closing brace behind a scalar member closes the object. -/
def Outline.Tied : Outline → Prop
  | .object _ members ending =>
    ∀ member ∈ members, member.2.1.isScalar → Ending.isCloseObject member.2.2 → ∃ lexeme, ending = .closed lexeme
  | _ => True

def Frame.Separated : Frame → Prop
  | .array _ _ => True
  | .object _ members _ => Json.Separated members

/-- The members of open objects are followed by no closing brace, and what is complete is tied. -/
def Scan.Tied : Scan → Prop
  | .awaitValue frames => ∀ frame ∈ frames, frame.Separated
  | .awaitKey _ members frames | .awaitColon _ members _ frames => Separated members ∧ ∀ frame ∈ frames, frame.Separated
  | .complete outline frames => outline.Tied ∧ ∀ frame ∈ frames, frame.Separated
  | .done outline _ => outline.Tied

theorem Separated.reverse (h : Separated members) : Separated members.reverse :=
  fun member hmem => h member (List.mem_reverse.1 hmem)

theorem Separated.tied (h : Separated members) : (Outline.object opened members ending).Tied := by
  intro member hmem _ hcloses
  rw [h member hmem] at hcloses
  cases hcloses

/-- A further member that is no scalar, or has no closing brace behind it, leaves an object tied. -/
theorem Separated.tied_cons {member : Key × Outline × Lexeme} (h : Separated members)
    (hother : member.2.1.isScalar = false ∨ Ending.isCloseObject member.2.2 = false) :
    (Outline.object opened (member :: members).reverse ending).Tied := by
  intro found hmem hscalar hcloses
  rcases List.mem_cons.1 (List.mem_reverse.1 hmem) with rfl | hmem
  · rcases hother with hother | hother
    · rw [hother] at hscalar; cases hscalar
    · rw [hother] at hcloses; cases hcloses
  · rw [h found hmem] at hcloses
    cases hcloses

theorem tied_cutOff (htied : part.Tied) (hother : part.isScalar = false)
    (hseparated : ∀ frame ∈ frames, frame.Separated) :
    (cutOff part lexeme frames).Tied := by
  induction frames generalizing part with
  | nil => exact htied
  | cons frame frames ih =>
    have hbehind : ∀ frame ∈ frames, frame.Separated := fun f hmem => hseparated f (List.mem_cons_of_mem _ hmem)
    cases frame with
    | array opened items => exact ih trivial rfl hbehind
    | object opened members key =>
      have hinner : Separated members := hseparated _ List.mem_cons_self
      exact ih (hinner.tied_cons (.inl hother)) rfl hbehind

theorem Cut.tied (h : Cut lexeme scan part frames) (htied : scan.Tied) :
    part.Tied ∧ part.isScalar = false ∧ ∀ frame ∈ frames, frame.Separated := by
  cases h with
  | value hother => exact ⟨trivial, hother, htied⟩
  | items => exact ⟨trivial, rfl, fun f hmem => htied f (List.mem_cons_of_mem _ hmem)⟩
  | item => exact ⟨trivial, rfl, fun f hmem => htied.2 f (List.mem_cons_of_mem _ hmem)⟩
  | members => exact ⟨htied.1.reverse.tied, rfl, htied.2⟩
  | key hother => exact ⟨htied.1.tied_cons (.inl hother), rfl, htied.2⟩
  | colon => exact ⟨htied.1.tied_cons (.inl rfl), rfl, htied.2⟩
  | member hother =>
    have hinner : Separated _ := htied.2 _ List.mem_cons_self
    exact ⟨hinner.tied_cons (.inr hother), rfl, fun f hmem => htied.2 f (List.mem_cons_of_mem _ hmem)⟩

theorem tied_advance (htied : scan.Tied) : (scan.advance lexeme).Tied := by
  have hstep := advances scan lexeme
  generalize scan.advance lexeme = after at hstep ⊢
  cases hstep with
  | openArray => exact List.forall_mem_cons.2 ⟨trivial, htied⟩
  | openObject => exact ⟨fun _ hmem => (List.not_mem_nil hmem).elim, htied⟩
  | scalar => exact ⟨trivial, htied⟩
  | emptyArray => exact ⟨trivial, (List.forall_mem_cons.1 htied).2⟩
  | key => exact htied
  | emptyObject => exact ⟨fun _ hmem => (List.not_mem_nil hmem).elim, htied.2⟩
  | colon => exact List.forall_mem_cons.2 htied
  | nextItem => exact List.forall_mem_cons.2 ⟨trivial, (List.forall_mem_cons.1 htied.2).2⟩
  | lastItem => exact ⟨trivial, (List.forall_mem_cons.1 htied.2).2⟩
  | nextMember htoken =>
    obtain ⟨hinner, houter⟩ := List.forall_mem_cons.1 htied.2
    have hcomma : Ending.isCloseObject lexeme = false := by rw [Ending.isCloseObject, htoken]
    exact ⟨List.forall_mem_cons.2 ⟨hcomma, hinner⟩, houter⟩
  | lastMember => exact ⟨fun _ _ _ _ => ⟨lexeme, rfl⟩, (List.forall_mem_cons.1 htied.2).2⟩
  | behind => exact htied.1
  | ended => exact htied
  | cut hcut =>
    obtain ⟨htied, hother, hseparated⟩ := hcut.tied htied
    exact tied_cutOff htied hother hseparated

/-- **Braces.** In the value at the front of a text, a closing brace behind a scalar member is the end of the
object. -/
theorem tied_ofText (text : String) : (Outline.ofText text).1.Tied := by
  have hrun (lexemes : List Lexeme) (scan : Scan) (htied : scan.Tied) : (lexemes.foldl Scan.advance scan).Tied := by
    induction lexemes generalizing scan with
    | nil => exact htied
    | cons lexeme lexemes ih => exact ih _ (tied_advance htied)
  have hended := hrun (Lexeme.ofText text) (.awaitValue []) (by simp [Scan.Tied])
  show (Scan.run (Lexeme.ofText text)).result.1.Tied
  cases hfound : Scan.run (Lexeme.ofText text) with
  | done outline next =>
    rw [Scan.run] at hfound
    rw [hfound] at hended
    exact hended
  | _ => trivial

end Tied

end GraphSchema.Json
