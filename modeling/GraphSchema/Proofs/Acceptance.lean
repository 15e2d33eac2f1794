import GraphSchema.Compile.Request
import GraphSchema.Proofs.Outlines

/-!
Which texts the readers accept.

- `Format` : what can be read from a text, with its reader.
- `readWhole` : the reader of a text that holds one value and nothing else.
- `Format.thorough` : a value that is accepted is there to its end.
- `readWhole_any` : a text that holds one value of any type is a JSON text.
- `readText_eq_ok_iff_append` : a text is accepted if and only if it starts with a text that holds one value
  and nothing else; what stands behind does not matter.
- `trailing_text_accepted` : so a text that goes on behind its value is accepted.
-/

namespace GraphSchema.Reading

open Json (Path Place Fault Lexeme Outline Key Ending Severs)

/-! ## Results -/

theorem bind_eq_ok {ε α β : Type} {result : Except ε α} {next : α → Except ε β} {value : β} :
    result >>= next = .ok value ↔ ∃ found, result = .ok found ∧ next found = .ok value := by
  cases result <;> simp [bind, Except.bind]

theorem map_eq_ok {ε α β : Type} {result : Except ε α} {change : α → β} {value : β} :
    change <$> result = .ok value ↔ ∃ found, result = .ok found ∧ change found = value := by
  cases result <;> simp [Functor.map, Except.map]

theorem mapError_eq_ok {ε ε' α : Type} {result : Except ε α} {change : ε → ε'} {value : α} :
    result.mapError change = .ok value ↔ result = .ok value := by
  cases result with
  | error failure => constructor <;> intro h <;> cases h
  | ok found => constructor <;> intro h <;> cases h <;> rfl

theorem malformed_eq_ok {α : Type} {path : Path} {result : Except Fault α} {value : α} :
    malformed path result = .ok value ↔ result = .ok value :=
  mapError_eq_ok

theorem settled_eq_ok {α : Type} {path : Path} {place : Place} {result : Result α} {value : α} :
    settled path place result = .ok value ↔ result = .ok value :=
  mapError_eq_ok

/-! ## Values that are there to their end -/

section Closed

variable {α δ : Type} {path : Path} {room : Nat} {outline : Outline} {value : α}

theorem closed_of_readArray {ending : Ending} (h : ending.readArray = .ok ()) : ∃ lexeme, ending = .closed lexeme := by
  cases ending with
  | closed lexeme => exact ⟨lexeme, rfl⟩
  | afterComma lexeme | elsewhere lexeme => cases h

theorem closed_of_readObject {first : Bool} {ending : Ending} (h : ending.readObject first = .ok ()) :
    ∃ lexeme, ending = .closed lexeme := by
  cases ending with
  | closed lexeme => exact ⟨lexeme, rfl⟩
  | afterComma lexeme | elsewhere lexeme => cases h

/-- The token of a leaf whose value is known. -/
theorem scalar_of_leaf {lexeme : Lexeme} {value : Json} (h : Source.scalar? (.part path room (.leaf lexeme)) = some value) :
    lexeme.scalar = .ok value := by
  cases hfound : lexeme.scalar with
  | ok other =>
    simp only [Source.scalar?, hfound, Except.toOption] at h
    rw [Option.some.inj h]
  | error fault =>
    simp only [Source.scalar?, hfound, Except.toOption] at h
    cases h

/-- what a reader accepts of a text is there to its end -/
def Thorough {α : Type} (read : Source → Result α) : Prop :=
  ∀ path room outline value, read (.part path room outline) = .ok value → outline.Tied → outline.Closed

theorem thorough_map {β : Type} {read : Source → Result α} {change : α → β} (h : Thorough read) :
    Thorough (fun source => change <$> read source) := by
  intro path room outline value haccepted
  obtain ⟨found, haccepted, -⟩ := map_eq_ok.1 haccepted
  exact h path room outline found haccepted

/-- A scalar that is no number but an integer is there to its end. -/
theorem closed_of_scalar {value : Json} (h : Source.scalar? (.part path room outline) = some value)
    (hplain : ∀ x, value ≠ .num (.real x)) : outline.Closed := by
  cases outline with
  | leaf lexeme =>
    have hscalar := scalar_of_leaf h
    unfold Lexeme.scalar at hscalar
    show lexeme.token.isScalar = true ∧ lexeme.token.Plain
    split at hscalar
    case h_1 htoken | h_2 htoken => rw [htoken]; exact ⟨rfl, trivial⟩
    case h_3 number htoken =>
      rw [htoken]
      refine ⟨rfl, ?_⟩
      obtain ⟨n, rfl, rfl⟩ := map_eq_ok.1 hscalar
      cases n with
      | int n => exact ⟨n, rfl⟩
      | real x => exact absurd rfl (hplain x)
    case h_4 htoken => rw [htoken]; exact ⟨rfl, trivial⟩
    all_goals cases hscalar
  | uncoloned next => cases h
  | array opened items ending => cases h
  | object opened members ending => cases h

theorem thorough_count : Thorough Source.count := by
  intro path room outline value haccepted _
  unfold Source.count at haccepted
  split at haccepted
  · rename_i hcount; exact closed_of_scalar hcount (by simp)
  · cases haccepted
  · cases haccepted

theorem thorough_list {read : Source → Result α} : Thorough (Source.list read) := by
  intro path room outline value haccepted _
  unfold Source.list at haccepted
  split at haccepted
  · cases haccepted
  · rename_i hsame
    cases hsame
    obtain ⟨values, -, haccepted⟩ := bind_eq_ok.1 haccepted
    obtain ⟨_, hended, -⟩ := bind_eq_ok.1 haccepted
    exact closed_of_readArray (malformed_eq_ok.1 hended)
  · rename_i hsame; cases hsame
  · cases haccepted

theorem thorough_record {expected : String} {form : Source.Form δ α} : Thorough (Source.record expected form) := by
  intro path room outline value haccepted _
  unfold Source.record at haccepted
  split at haccepted
  · cases haccepted
  · rename_i hsame
    cases hsame
    obtain ⟨draft, -, haccepted⟩ := bind_eq_ok.1 haccepted
    obtain ⟨_, hended, -⟩ := bind_eq_ok.1 haccepted
    exact closed_of_readObject (malformed_eq_ok.1 hended)
  · rename_i hsame; cases hsame
  · cases haccepted

/-- An array whose items are all taken in is closed. -/
theorem closed_of_takeItems {ending : Ending} {index : Nat} {draft taken : δ} {columns : List (δ → Source → Result δ)}
    {items : List Outline} (h : Source.takeItems path room index ending draft columns items = .ok taken) :
    ∃ lexeme, ending = .closed lexeme := by
  induction columns generalizing index draft items with
  | nil =>
    obtain ⟨_, hended, -⟩ := bind_eq_ok.1 h
    cases items with
    | cons item items => cases hended
    | nil =>
      cases ending with
      | closed lexeme => exact ⟨lexeme, rfl⟩
      | afterComma lexeme | elsewhere lexeme => cases hended
  | cons take columns ih =>
    cases items with
    | nil =>
      obtain ⟨_, hended, -⟩ := bind_eq_ok.1 h
      exact closed_of_readArray (malformed_eq_ok.1 hended)
    | cons item items =>
      obtain ⟨next, -, h⟩ := bind_eq_ok.1 h
      exact ih h

theorem thorough_recordOrRow {expected : String} {form : Source.Form δ α} {columns : Source.Columns δ α} :
    Thorough (Source.recordOrRow expected form columns) := by
  intro path room outline value haccepted htied
  unfold Source.recordOrRow at haccepted
  split at haccepted
  · cases haccepted
  · rename_i hsame
    cases hsame
    obtain ⟨draft, htaken, -⟩ := bind_eq_ok.1 haccepted
    exact closed_of_takeItems htaken
  · rename_i hsame; cases hsame
  · exact thorough_record path room outline value haccepted htied

/-- The object of a name ends behind its only member. -/
theorem closed_of_choiceObject {known : List (String × α)} {opened : Lexeme} {members : List (Key × Outline × Lexeme)}
    {ending : Ending} (h : Source.choiceObject known path room members ending = .ok value)
    (htied : (Outline.object opened members ending).Tied) : ∃ lexeme, ending = .closed lexeme := by
  cases members with
  | nil => cases ending <;> cases h
  | cons member members =>
    obtain ⟨key, part, after⟩ := member
    unfold Source.choiceObject at h
    obtain ⟨name, -, h⟩ := bind_eq_ok.1 h
    obtain ⟨found, -, h⟩ := bind_eq_ok.1 h
    split at h
    · cases h
    · dsimp only at h
      split at h
      · rename_i hnull
        split at h
        · rename_i hcloses
          have hscalar : part.isScalar := by
            cases part with
            | leaf lexeme => exact (closed_of_scalar hnull (by simp)).1
            | _ => cases hnull
          exact htied _ List.mem_cons_self hscalar hcloses
        · cases h
      · cases h

theorem thorough_text : Thorough Source.text := by
  intro path room outline value haccepted _
  unfold Source.text at haccepted
  split at haccepted
  · rename_i htext; exact closed_of_scalar htext (by simp)
  · cases haccepted

theorem thorough_choice {known : List (String × α)} : Thorough (Source.choice known) := by
  intro path room outline value haccepted htied
  unfold Source.choice at haccepted
  split at haccepted
  · rename_i lexeme hsame
    cases hsame
    split at haccepted
    · obtain ⟨name, htext, -⟩ := bind_eq_ok.1 haccepted
      exact thorough_text path 0 (.leaf lexeme) name htext trivial
    · obtain ⟨name, htext, -⟩ := bind_eq_ok.1 haccepted
      exact thorough_text path 0 (.leaf lexeme) name htext trivial
    · cases haccepted
  · cases haccepted
  · cases haccepted
  · cases haccepted
  · rename_i hsame
    cases hsame
    exact closed_of_choiceObject haccepted htied
  all_goals
    rename_i hsame
    cases hsame

end Closed

/-! ## The formats -/

/-- what can be read from a text -/
inductive Format where
  | document
  | graph
  | node
  | property
  | metadata
  | options
  | request
  | primitive
  | nullability
  | keyMode
  | id

namespace Format

/-- what a text of a format holds -/
def Value : Format → Type
  | document => GraphDocument
  | graph => TypeGraph
  | node => ObjectNode
  | property => Property
  | metadata => Metadata
  | options => CompileOptions
  | request => RootRequest
  | primitive => Primitive
  | nullability => Nullability
  | keyMode => KeyMode
  | id => ObjectId

/-- the reader of a format -/
def read : (format : Format) → Source → Result format.Value
  | document => GraphDocument.read
  | graph => TypeGraph.read
  | node => ObjectNode.read
  | property => Property.read
  | metadata => Metadata.read
  | options => CompileOptions.read
  | request => RootRequest.read
  | primitive => Primitive.read
  | nullability => Nullability.read
  | keyMode => KeyMode.read
  | id => ObjectId.read

theorem thorough (format : Format) : Thorough format.read := by
  cases format with
  | document | node | property => exact thorough_record
  | graph => exact thorough_map thorough_list
  | metadata | options | request => exact thorough_recordOrRow
  | primitive | nullability | keyMode => exact thorough_choice
  | id => exact thorough_map thorough_count

end Format

/-! ## Texts -/

/-- Reads a text that holds one value and nothing else but blanks around it. -/
def readWhole {α : Type} (read : Source → Result α) (text : String) : Result α := do
  let value ← readText read text
  let next := (Outline.ofText text).2
  if next.isFinish then return value
  else .error (.ofFault [] ⟨.trailingCharacters, next.peek⟩)

section Texts

variable {α : Type} {read : Source → Result α} {text : String} {value : α}

theorem readWhole_eq_ok_iff :
    readWhole read text = .ok value ↔ readText read text = .ok value ∧ (Outline.ofText text).2.isFinish := by
  unfold readWhole
  constructor
  · intro h
    obtain ⟨found, haccepted, h⟩ := bind_eq_ok.1 h
    dsimp only at h
    split at h
    · rename_i hfinish
      cases h
      exact ⟨haccepted, hfinish⟩
    · cases h
  · rintro ⟨haccepted, hfinish⟩
    exact bind_eq_ok.2 ⟨value, haccepted, by rw [if_pos hfinish]; rfl⟩

/-- A text is one value of any type if and only if it is a JSON text. -/
theorem readWhole_any {value : Json} : readWhole Source.any text = .ok value ↔ Json.read text = .ok value := by
  let outline := (Outline.ofText text).1
  let next := (Outline.ofText text).2
  have hbyOutline : Json.read text = (outline.read Json.maxNesting []).mapError (·.fault) >>= fun value =>
      if next.isFinish then .ok value.collapse else .error ⟨.trailingCharacters, next.peek⟩ := rfl
  have hbyReader : readText Source.any text =
      Json.collapse <$> (outline.read Json.maxNesting []).mapError fun misread => .ofFault misread.path misread.fault := rfl
  rw [readWhole_eq_ok_iff, hbyOutline, hbyReader]
  constructor
  · rintro ⟨haccepted, hfinish⟩
    obtain ⟨written, hread, rfl⟩ := map_eq_ok.1 haccepted
    exact bind_eq_ok.2 ⟨written, mapError_eq_ok.2 (mapError_eq_ok.1 hread), if_pos hfinish⟩
  · intro h
    obtain ⟨written, hread, hended⟩ := bind_eq_ok.1 h
    split at hended
    · rename_i hfinish
      cases hended
      exact ⟨map_eq_ok.2 ⟨written, mapError_eq_ok.2 (mapError_eq_ok.1 hread), rfl⟩, hfinish⟩
    · cases hended

end Texts

/-- **What the readers accept.** A text is accepted with a value if and only if it starts with a text that
holds this value and nothing else, and does not go on with a numeral at its end; what stands behind it does
not matter. -/
theorem readText_eq_ok_iff_append (format : Format) (text : String) (value : format.Value) :
    readText format.read text = .ok value ↔
      ∃ head rest, text = head ++ rest ∧ Severs head.toList rest.toList ∧ readWhole format.read head = .ok value := by
  constructor
  · intro haccepted
    have hclosed := format.thorough _ _ _ _ haccepted (Json.tied_ofText text)
    obtain ⟨head, rest, hsplit, hsevers, hsame, hfinish⟩ := Json.ofText_split hclosed
    refine ⟨head, rest, hsplit, hsevers, readWhole_eq_ok_iff.2 ⟨?_, hfinish⟩⟩
    rwa [readText, hsame]
  · rintro ⟨head, rest, rfl, hsevers, hwhole⟩
    obtain ⟨haccepted, hfinish⟩ := readWhole_eq_ok_iff.1 hwhole
    have hclosed := format.thorough _ _ _ _ haccepted (Json.tied_ofText head)
    rwa [readText, Json.ofText_append hclosed hfinish hsevers]

/-- a document, and the beginning of a second one right behind it -/
def torn : String :=
  "\x7b\"root\":0,\"objects\":[]\x7d\x7b\"root\":1"

/-- **Text behind the value.** A text of two documents, the second of which breaks off, is accepted, although it
is not one value and nothing else. -/
theorem trailing_text_accepted :
    ∃ document, readText Format.document.read torn = .ok document ∧
      ∀ other, readWhole Format.document.read torn ≠ .ok other := by
  have haccepted : (readText Format.document.read torn).isOk = true := by decide +kernel
  have hgoesOn : (Outline.ofText torn).2.isFinish = false := by decide +kernel
  cases hfound : readText Format.document.read torn with
  | error failure =>
    rw [hfound] at haccepted
    cases haccepted
  | ok document =>
    refine ⟨document, rfl, fun other hwhole => ?_⟩
    have hfinish := (readWhole_eq_ok_iff.1 hwhole).2
    rw [hgoesOn] at hfinish
    cases hfinish

end GraphSchema.Reading
