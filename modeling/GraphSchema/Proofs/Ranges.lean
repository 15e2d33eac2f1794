import GraphSchema.Proofs.Presenting
import GraphSchema.Proofs.Values

/-!
What a text can hold: integers of 64 bits, nested no deeper than the reader allows.

- `Numeral.inRange_of_value`, `inRange_lexemesFrom` : the numbers of numerals and lexemes.
- `Outline.InRange` : an outline with no other numbers; `inRange_advance` is the step of a scan and
  `inRange_ofText` the whole scan.
- `Outline.InRange.fits` : so a value that is read fits into the room that was left.
-/

namespace GraphSchema.Json

open Reading (bind_eq_ok map_eq_ok mapError_eq_ok)
open Reading.Source (read_array read_object)

/-! ## Lexemes -/

namespace Numeral

theorem gather_lt {limit n : Nat} {digits : List Char} (hbelow : n < limit) : (gather limit n digits).1 < limit := by
  induction digits generalizing n with
  | nil => exact hbelow
  | cons d digits ih =>
    rw [gather]
    split
    · rename_i hnext; exact ih hnext
    · exact hbelow

/-- A numeral stands for a float or for an integer of 64 bits. -/
theorem inRange_of_value {numeral : Numeral} {number : Number} (h : numeral.value = .ok number) : number.InRange := by
  cases number with
  | real x => trivial
  | int n =>
    have hbelow : (gather (Nat.pow 2 64) 0 numeral.whole).1 < 18446744073709551616 := gather_lt (by decide)
    have hinteger := (integer_of_value h).2
    unfold integer at hinteger
    split at hinteger
    · split at hinteger
      · cases hinteger
      · rename_i hlarge
        cases hinteger
        have : ¬ 9223372036854775808 < (gather (Nat.pow 2 64) 0 numeral.whole).1 := fun hhigh => hlarge (.inr hhigh)
        exact ⟨by omega, by omega⟩
    · cases hinteger
      exact ⟨by omega, by omega⟩

end Numeral

theorem inRange_firstPiece {place : Place} {c : Char} {text : List Char} {number : Number}
    (h : (firstPiece place c text).token = .number (.ok number)) : number.InRange := by
  unfold firstPiece at h
  split at h
  · rename_i token hmark
    replace h : token = .number (.ok number) := h
    subst h
    unfold mark? at hmark
    repeat' split at hmark
    all_goals cases hmark
  split at h
  · rename_i token letters hword
    unfold wordPiece at h
    split at h
    · replace h : token = .number (.ok number) := h
      subst h
      unfold word? at hword
      repeat' split at hword
      all_goals cases hword
    · cases h
  split at h
  · unfold textPiece at h
    split at h <;> cases h
  split at h
  · unfold numberPiece at h
    split at h
    · cases h
    · injection h with h
      exact Numeral.inRange_of_value (mapError_eq_ok.1 h)
  · cases h

/-- A number that the lexeme is, is in range. -/
def Lexeme.InRange (lexeme : Lexeme) : Prop :=
  ∀ number, lexeme.token = .number (.ok number) → number.InRange

theorem inRange_lexemesFrom {place : Place} {text : List Char} : ∀ lexeme ∈ lexemesFrom place text, lexeme.InRange := by
  fun_induction lexemesFrom place text with
  | case1 place => exact List.forall_mem_singleton.2 fun number htoken => Token.noConfusion htoken
  | case2 place c text hblank ih => exact ih
  | case3 place c text hblank piece lexeme =>
    exact List.forall_mem_singleton.2 fun number htoken => inRange_firstPiece htoken
  | case4 place c text hblank piece lexeme hwhole =>
    rename_i ih
    exact List.forall_mem_cons.2 ⟨fun number htoken => inRange_firstPiece htoken, ih⟩

/-! ## Outlines -/

/-- Every number in the outline is in range. -/
inductive Outline.InRange : Outline → Prop
  | leaf {lexeme : Lexeme} (hinRange : lexeme.InRange) : InRange (.leaf lexeme)
  | uncoloned {next : Lexeme} : InRange (.uncoloned next)
  | array {opened : Lexeme} {items : List Outline} {ending : Ending} (hinner : ∀ item ∈ items, InRange item) :
      InRange (.array opened items ending)
  | object {opened : Lexeme} {members : List (Key × Outline × Lexeme)} {ending : Ending}
      (hinner : ∀ member ∈ members, InRange member.2.1) : InRange (.object opened members ending)

section Scans

variable {part : Outline} {lexeme : Lexeme} {frames : List Frame} {scan : Scan}

def Frame.InRange : Frame → Prop
  | .array _ items => ∀ item ∈ items, item.InRange
  | .object _ members _ => ∀ member ∈ members, member.2.1.InRange

/-- Every number that a scan has come by is in range. -/
def Scan.InRange : Scan → Prop
  | .awaitValue frames => ∀ frame ∈ frames, frame.InRange
  | .awaitKey _ members frames | .awaitColon _ members _ frames =>
    (∀ member ∈ members, member.2.1.InRange) ∧ ∀ frame ∈ frames, frame.InRange
  | .complete outline frames => outline.InRange ∧ ∀ frame ∈ frames, frame.InRange
  | .done outline _ => outline.InRange

/-- A bracket whose content is turned around. -/
theorem inRange_array {opened : Lexeme} {items : List Outline} {ending : Ending}
    (hinner : ∀ item ∈ items, item.InRange) :
    (Outline.array opened items.reverse ending).InRange :=
  .array fun item hmem => hinner item (List.mem_reverse.1 hmem)

theorem inRange_object {opened : Lexeme} {members : List (Key × Outline × Lexeme)} {ending : Ending}
    (hinner : ∀ member ∈ members, member.2.1.InRange) : (Outline.object opened members.reverse ending).InRange :=
  .object fun member hmem => hinner member (List.mem_reverse.1 hmem)

theorem inRange_cutOff (hinRange : part.InRange) (houter : ∀ frame ∈ frames, frame.InRange) :
    (cutOff part lexeme frames).InRange := by
  induction frames generalizing part with
  | nil => exact hinRange
  | cons frame frames ih =>
    obtain ⟨hinner, hbehind⟩ := List.forall_mem_cons.1 houter
    cases frame with
    | array opened items => exact ih (inRange_array (List.forall_mem_cons.2 ⟨hinRange, hinner⟩)) hbehind
    | object opened members key => exact ih (inRange_object (List.forall_mem_cons.2 ⟨hinRange, hinner⟩)) hbehind

theorem Cut.inRange (h : Cut lexeme scan part frames) (hinRange : scan.InRange) (hnext : lexeme.InRange) :
    part.InRange ∧ ∀ frame ∈ frames, frame.InRange := by
  cases h with
  | value hother => exact ⟨.leaf hnext, hinRange⟩
  | items =>
    obtain ⟨hinner, houter⟩ := List.forall_mem_cons.1 hinRange
    exact ⟨inRange_array hinner, houter⟩
  | item =>
    obtain ⟨hinner, houter⟩ := List.forall_mem_cons.1 hinRange.2
    exact ⟨inRange_array (List.forall_mem_cons.2 ⟨hinRange.1, hinner⟩), houter⟩
  | members => exact ⟨inRange_object hinRange.1, hinRange.2⟩
  | key hother => exact ⟨inRange_object (List.forall_mem_cons.2 ⟨.leaf hnext, hinRange.1⟩), hinRange.2⟩
  | colon => exact ⟨inRange_object (List.forall_mem_cons.2 ⟨.uncoloned, hinRange.1⟩), hinRange.2⟩
  | member hother =>
    obtain ⟨hinner, houter⟩ := List.forall_mem_cons.1 hinRange.2
    exact ⟨inRange_object (List.forall_mem_cons.2 ⟨hinRange.1, hinner⟩), houter⟩

/-- **One step** of a scan comes by no number but that of its lexeme. -/
theorem inRange_advance (hinRange : scan.InRange) (hnext : lexeme.InRange) : (scan.advance lexeme).InRange := by
  have hstep := advances scan lexeme
  generalize scan.advance lexeme = after at hstep ⊢
  cases hstep with
  | openArray => exact List.forall_mem_cons.2 ⟨List.forall_mem_nil _, hinRange⟩
  | openObject => exact ⟨List.forall_mem_nil _, hinRange⟩
  | scalar => exact ⟨.leaf hnext, hinRange⟩
  | emptyArray => exact ⟨.array (List.forall_mem_nil _), (List.forall_mem_cons.1 hinRange).2⟩
  | key => exact hinRange
  | emptyObject => exact ⟨.object (List.forall_mem_nil _), hinRange.2⟩
  | colon => exact List.forall_mem_cons.2 hinRange
  | nextItem =>
    obtain ⟨hinner, houter⟩ := List.forall_mem_cons.1 hinRange.2
    exact List.forall_mem_cons.2 ⟨List.forall_mem_cons.2 ⟨hinRange.1, hinner⟩, houter⟩
  | lastItem =>
    obtain ⟨hinner, houter⟩ := List.forall_mem_cons.1 hinRange.2
    exact ⟨inRange_array (List.forall_mem_cons.2 ⟨hinRange.1, hinner⟩), houter⟩
  | nextMember =>
    obtain ⟨hinner, houter⟩ := List.forall_mem_cons.1 hinRange.2
    exact ⟨List.forall_mem_cons.2 ⟨hinRange.1, hinner⟩, houter⟩
  | lastMember =>
    obtain ⟨hinner, houter⟩ := List.forall_mem_cons.1 hinRange.2
    exact ⟨inRange_object (List.forall_mem_cons.2 ⟨hinRange.1, hinner⟩), houter⟩
  | behind => exact hinRange.1
  | ended => exact hinRange
  | cut hcut =>
    obtain ⟨hinRange, houter⟩ := hcut.inRange hinRange hnext
    exact inRange_cutOff hinRange houter

/-- **Texts.** Every number of the value at the front of a text is in range. -/
theorem inRange_ofText (text : String) : (Outline.ofText text).1.InRange := by
  have hrun (lexemes : List Lexeme) (hinRange : ∀ lexeme ∈ lexemes, lexeme.InRange) (scan : Scan)
      (hstart : scan.InRange) :
      (lexemes.foldl Scan.advance scan).InRange := by
    induction lexemes generalizing scan with
    | nil => exact hstart
    | cons lexeme lexemes ih =>
      obtain ⟨hfirst, hothers⟩ := List.forall_mem_cons.1 hinRange
      exact ih hothers _ (inRange_advance hstart hfirst)
  have hended := hrun (Lexeme.ofText text) inRange_lexemesFrom (.awaitValue []) (List.forall_mem_nil _)
  show (Scan.run (Lexeme.ofText text)).result.1.InRange
  cases hfound : Scan.run (Lexeme.ofText text) with
  | done outline next =>
    rw [Scan.run] at hfound
    rw [hfound] at hended
    exact hended
  | _ => exact .leaf fun number htoken => Token.noConfusion htoken

end Scans

/-! ## Values -/

theorem fits_of_scalar {room : Nat} {lexeme : Lexeme} {value : Json} (hinRange : lexeme.InRange)
    (h : lexeme.scalar = .ok value) : value.Fits room := by
  unfold Lexeme.scalar at h
  split at h
  case h_1 => cases h; exact .null
  case h_2 => cases h; exact .bool
  case h_3 htoken =>
    obtain ⟨number, rfl, rfl⟩ := map_eq_ok.1 h
    exact .num (hinRange number htoken)
  case h_4 =>
    obtain ⟨s, -, rfl⟩ := map_eq_ok.1 h
    exact .str
  all_goals cases h

/-- whether every reading of the outline fits into the room that is left for it -/
def Outline.ReadsFit (outline : Outline) : Prop :=
  ∀ room path value, outline.read room path = .ok value → value.Fits room

theorem fits_of_readItems {room : Nat} {path : Path} {index : Nat} {items : List Outline} {values : List Json}
    (heach : ∀ item ∈ items, item.ReadsFit) (h : Outline.readItems room path index items = .ok values) :
    ∀ value ∈ values, value.Fits room := by
  induction items generalizing index values with
  | nil => cases h; exact List.forall_mem_nil _
  | cons item items ih =>
    rw [Outline.readItems] at h
    obtain ⟨value, hread, h⟩ := bind_eq_ok.1 h
    obtain ⟨others, hreads, h⟩ := bind_eq_ok.1 h
    cases h
    obtain ⟨hfirst, hbehind⟩ := List.forall_mem_cons.1 heach
    exact List.forall_mem_cons.2 ⟨hfirst _ _ _ hread, ih hbehind hreads⟩

theorem fits_of_readMembers {room : Nat} {path : Path} {parts : List (Key × Outline × Lexeme)}
    {members : List (String × Json)} (heach : ∀ part ∈ parts, part.2.1.ReadsFit)
    (h : Outline.readMembers room path parts = .ok members) : ∀ member ∈ members, member.2.Fits room := by
  induction parts generalizing members with
  | nil => cases h; exact List.forall_mem_nil _
  | cons part parts ih =>
    obtain ⟨key, outline, after⟩ := part
    rw [Outline.readMembers] at h
    obtain ⟨name, -, h⟩ := bind_eq_ok.1 h
    obtain ⟨value, hread, h⟩ := bind_eq_ok.1 h
    obtain ⟨others, hreads, h⟩ := bind_eq_ok.1 h
    cases h
    obtain ⟨hfirst, hbehind⟩ := List.forall_mem_cons.1 heach
    exact List.forall_mem_cons.2 ⟨hfirst _ _ _ hread, ih hbehind hreads⟩

/-- **Reading.** A value that is read fits into the room that was left for it. -/
theorem Outline.InRange.fits {outline : Outline} (h : outline.InRange) : outline.ReadsFit := by
  induction h with
  | leaf hinRange =>
    intro room path value hread
    rw [Outline.read] at hread
    exact fits_of_scalar hinRange (mapError_eq_ok.1 hread)
  | uncoloned => intro room path value hread; cases hread
  | array _ ih =>
    intro room path value hread
    obtain ⟨inner, values, rfl, rfl, hreads, -⟩ := read_array hread
    exact .arr (fits_of_readItems ih hreads)
  | object _ ih =>
    intro room path value hread
    obtain ⟨inner, members, rfl, rfl, hreads, -⟩ := read_object hread
    exact .obj (fits_of_readMembers ih hreads)

end GraphSchema.Json
