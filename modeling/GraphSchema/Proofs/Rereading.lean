import GraphSchema.Proofs.Outlines
import GraphSchema.Proofs.Printing

/-!
Values as they are written, and the outlines that they are scanned as.

- `rescans` : in a scan, the text of a value that fits and is integral becomes an outline that is read as it.
- `read_compact` : so the text of such a value is read as the value.
-/

namespace GraphSchema.Json

/-! ## Scans of written values -/

/-- the scan of a text from a place on -/
def scanFrom (scan : Scan) (place : Place) (text : List Char) : Scan :=
  (lexemesFrom place text).foldl Scan.advance scan

/-- In a scan, the text of the value becomes an outline that is read as the value. -/
def Rescans (room : Nat) (value : Json) : Prop :=
  ∀ frames place rest, Parted rest → ∃ outline stop,
    scanFrom (.awaitValue frames) place (compactChars value ++ rest) = scanFrom (.complete outline frames) stop rest ∧
      ∀ path, outline.read room path = .ok value

section Scans

variable {room : Nat} {value : Json} {items : List Json} {members : List (String × Json)} {scan : Scan}
  {place stop : Place} {text rest : List Char} {frames : List Frame}

theorem scanFrom_cons {lexeme : Lexeme} (hlexemes : lexemesFrom place text = lexeme :: lexemesFrom stop rest) :
    scanFrom scan place text = scanFrom (scan.advance lexeme) stop rest := by
  rw [scanFrom, hlexemes]
  rfl

/-- a bracket, a comma or a colon -/
theorem scanFrom_mark {c : Char} {token : Token} (hmark : mark? c = some token) (hblank : isBlank c = false)
    (hwhole : token.isLast = false) :
    scanFrom scan place (c :: rest) = scanFrom (scan.advance ⟨token, place, place.right 1⟩) (place.right 1) rest :=
  scanFrom_cons (lexemesFrom_mark hmark hblank hwhole)

theorem readItems_cons {path : Path} {index : Nat} {outline : Outline} {outlines : List Outline}
    (hfirst : outline.read room (path ++ [.index index]) = .ok value)
    (hothers : Outline.readItems room path (index + 1) outlines = .ok items) :
    Outline.readItems room path index (outline :: outlines) = .ok (value :: items) := by
  rw [Outline.readItems, hfirst, hothers]
  rfl

theorem readMembers_cons {path : Path} {key : Key} {name : String} {outline : Outline} {next : Lexeme}
    {parts : List (Key × Outline × Lexeme)} (hkey : key.text = .ok name)
    (hfirst : outline.read room (path ++ [.key name]) = .ok value)
    (hothers : Outline.readMembers room path parts = .ok members) :
    Outline.readMembers room path ((key, outline, next) :: parts) = .ok ((name, value) :: members) := by
  simp only [Outline.readMembers, hkey, atPath, Except.mapError, bind, Except.bind, hfirst, hothers]
  rfl

theorem rescans_scalar {token : Token} (hlexes : Lexes (compactChars value) token) (hscalar : token.isScalar)
    (hvalue : ∀ place stop, Lexeme.scalar ⟨token, place, stop⟩ = .ok value) : Rescans room value := by
  intro frames place rest hparted
  obtain ⟨stop, hlexemes⟩ := hlexes place rest hparted
  refine ⟨.leaf ⟨token, place, stop⟩, stop, ?_, fun path => ?_⟩
  · rw [scanFrom_cons hlexemes]
    congr 1
    cases token <;> first | rfl | cases hscalar
  · rw [Outline.read, hvalue]
    rfl

/-- The items of an array, up to the closing bracket. -/
theorem scanFrom_items (heach : ∀ item ∈ items, Rescans room item) (hnonempty : items ≠ []) (opened : Lexeme)
    (done : List Outline) (place : Place) : ∃ outlines closing stop,
      scanFrom (.awaitValue (.array opened done :: frames)) place (compactItems items ++ ']' :: rest) =
        scanFrom (.complete (.array opened (done.reverse ++ outlines) (.closed closing)) frames) stop rest ∧
      ∀ path index, Outline.readItems room path index outlines = .ok items := by
  induction items generalizing done place with
  | nil => exact absurd rfl hnonempty
  | cons item others ih =>
    have hfirst := heach item List.mem_cons_self
    cases others with
    | nil =>
      obtain ⟨outline, behind, hscanned, hread⟩ :=
        hfirst (.array opened done :: frames) place (']' :: rest) (parted_cons rest rfl)
      let closing : Lexeme := ⟨.closeArray, behind, behind.right 1⟩
      refine ⟨[outline], closing, behind.right 1, ?_, fun path index => readItems_cons (hread _) rfl⟩
      rw [compactItems, hscanned, scanFrom_mark rfl rfl rfl]
      simp only [Scan.advance, Scan.takeNext, List.reverse_cons, closing]
    | cons next others =>
      -- the comma is what follows the item, and the other items follow the comma
      obtain ⟨outline, behind, hscanned, hread⟩ :=
        hfirst (.array opened done :: frames) place (',' :: (compactItems (next :: others) ++ ']' :: rest))
          (parted_cons _ rfl)
      obtain ⟨outlines, closing, stop, hscannedRest, hreadRest⟩ :=
        ih (fun item hmem => heach item (List.mem_cons_of_mem _ hmem)) (List.cons_ne_nil next others)
          (outline :: done) (behind.right 1)
      refine ⟨outline :: outlines, closing, stop, ?_, fun path index => readItems_cons (hread _) (hreadRest path _)⟩
      rw [compactItems, List.append_assoc, List.cons_append, hscanned, scanFrom_mark rfl rfl rfl]
      simp only [Scan.advance, Scan.takeNext]
      rw [hscannedRest, List.reverse_cons, List.append_assoc]
      rfl

/-- a key and its value, up to what follows the value -/
theorem scanFrom_member (key : String) (frames : List Frame) (hrescans : Rescans room value) (opened : Lexeme)
    (done : List (Key × Outline × Lexeme)) (place : Place) (hparted : Parted rest) : ∃ found outline stop,
      scanFrom (.awaitKey opened done frames) place (quotedChars key ++ ':' :: (compactChars value ++ rest)) =
        scanFrom (.complete outline (.object opened done found :: frames)) stop rest ∧
      found.text = .ok key ∧ ∀ path, outline.read room path = .ok value := by
  obtain ⟨behind, hlexemes⟩ :=
    lexes_text key place (':' :: (compactChars value ++ rest)) (parted_cons _ rfl)
  let lexeme : Lexeme := ⟨.text (.ok key), place, behind⟩
  let colon : Lexeme := ⟨.colon, behind, behind.right 1⟩
  obtain ⟨outline, stop, hscanned, hread⟩ :=
    hrescans (.object opened done ⟨lexeme, colon⟩ :: frames) (behind.right 1) rest hparted
  refine ⟨⟨lexeme, colon⟩, outline, stop, ?_, rfl, hread⟩
  rw [scanFrom_cons hlexemes, scanFrom_mark rfl rfl rfl]
  exact hscanned

/-- The members of an object, up to the closing brace. -/
theorem scanFrom_members (heach : ∀ member ∈ members, Rescans room member.2) (hnonempty : members ≠ [])
    (opened : Lexeme) (done : List (Key × Outline × Lexeme)) (place : Place) : ∃ parts closing stop,
      scanFrom (.awaitKey opened done frames) place (compactMembers members ++ '\x7d' :: rest) =
        scanFrom (.complete (.object opened (done.reverse ++ parts) (.closed closing)) frames) stop rest ∧
      ∀ path, Outline.readMembers room path parts = .ok members := by
  induction members generalizing done place with
  | nil => exact absurd rfl hnonempty
  | cons member others ih =>
    have hfirst := heach member List.mem_cons_self
    obtain ⟨key, value⟩ := member
    cases others with
    | nil =>
      obtain ⟨found, outline, behind, hscanned, hkey, hread⟩ :=
        scanFrom_member key frames hfirst opened done place (parted_cons rest (c := '\x7d') rfl)
      let closing : Lexeme := ⟨.closeObject, behind, behind.right 1⟩
      refine ⟨[(found, outline, closing)], closing, behind.right 1, ?_, fun path => readMembers_cons hkey (hread _) rfl⟩
      rw [compactMembers, List.append_assoc, List.cons_append, hscanned, scanFrom_mark rfl rfl rfl]
      simp only [Scan.advance, Scan.takeNext, List.reverse_cons, closing]
    | cons next others =>
      obtain ⟨found, outline, behind, hscanned, hkey, hread⟩ :=
        scanFrom_member key frames hfirst opened done place
          (parted_cons (compactMembers (next :: others) ++ '\x7d' :: rest) (c := ',') rfl)
      let comma : Lexeme := ⟨.comma, behind, behind.right 1⟩
      obtain ⟨parts, closing, stop, hscannedRest, hreadRest⟩ :=
        ih (fun member hmem => heach member (List.mem_cons_of_mem _ hmem)) (List.cons_ne_nil next others)
          ((found, outline, comma) :: done) (behind.right 1)
      refine ⟨(found, outline, comma) :: parts, closing, stop, ?_,
        fun path => readMembers_cons hkey (hread _) (hreadRest path)⟩
      rw [compactMembers, List.append_assoc, List.cons_append, List.append_assoc, List.cons_append, hscanned,
        scanFrom_mark rfl rfl rfl]
      simp only [Scan.advance, Scan.takeNext]
      rw [hscannedRest, List.reverse_cons, List.append_assoc]
      rfl

/-- **Written values.** In a scan, the text of a value becomes an outline that is read as the value. -/
theorem rescans (hfits : value.Fits room) (hintegral : value.Integral) : Rescans room value := by
  -- the room is counted down by `fits`, so the outline is read with exactly the brackets that are left
  induction hfits with
  | null => exact rescans_scalar lexes_null rfl fun _ _ => rfl
  | bool => exact rescans_scalar (lexes_bool _) rfl fun _ _ => rfl
  | str => exact rescans_scalar (lexes_text _) rfl fun _ _ => rfl
  | num hrange =>
    refine rescans_scalar (lexes_number hrange fun x hsame => ?_) rfl fun _ _ => rfl
    exact hintegral x (by rw [hsame]; exact List.mem_singleton_self x)
  | @arr room items hinner ih =>
    intro frames place rest _
    rw [compactChars, List.cons_append, List.append_assoc]
    by_cases hempty : items = []
    · subst hempty
      let closing : Lexeme := ⟨.closeArray, place.right 1, (place.right 1).right 1⟩
      refine ⟨.array ⟨.openArray, place, place.right 1⟩ [] (.closed closing), (place.right 1).right 1, ?_, fun _ => rfl⟩
      rw [compactItems, List.nil_append, List.cons_append, scanFrom_mark rfl rfl rfl, scanFrom_mark rfl rfl rfl]
      rfl
    · obtain ⟨outlines, closing, stop, hscanned, hread⟩ :=
        scanFrom_items (fun item hmem => ih item hmem (hintegral.item hmem)) hempty
          ⟨.openArray, place, place.right 1⟩ []
          (place.right 1)
      refine ⟨.array ⟨.openArray, place, place.right 1⟩ outlines (.closed closing), stop, ?_, fun path => ?_⟩
      · rw [scanFrom_mark rfl rfl rfl]
        exact hscanned
      · rw [Outline.read, hread]
        rfl
  | @obj room members hinner ih =>
    intro frames place rest _
    rw [compactChars, List.cons_append, List.append_assoc]
    by_cases hempty : members = []
    · subst hempty
      let closing : Lexeme := ⟨.closeObject, place.right 1, (place.right 1).right 1⟩
      refine ⟨.object ⟨.openObject, place, place.right 1⟩ [] (.closed closing), (place.right 1).right 1, ?_, fun _ => rfl⟩
      rw [compactMembers, List.nil_append, List.cons_append, scanFrom_mark rfl rfl rfl, scanFrom_mark rfl rfl rfl]
      rfl
    · obtain ⟨parts, closing, stop, hscanned, hread⟩ :=
        scanFrom_members (fun member hmem => ih member hmem (hintegral.member hmem)) hempty
          ⟨.openObject, place, place.right 1⟩ [] (place.right 1)
      refine ⟨.object ⟨.openObject, place, place.right 1⟩ parts (.closed closing), stop, ?_, fun path => ?_⟩
      · rw [scanFrom_mark rfl rfl rfl]
        exact hscanned
      · rw [Outline.read, hread]
        rfl

/-- **The text of a value** is the text of an outline that is read as the value, and nothing follows it. -/
theorem read_ofText_compact (hfits : value.Fits room) (hintegral : value.Integral) (path : Path) :
    (Outline.ofText value.compact).1.read room path = .ok value ∧ (Outline.ofText value.compact).2.isFinish := by
  obtain ⟨outline, stop, hscanned, hread⟩ := rescans hfits hintegral [] .origin [] parted_nil
  have hfound : Outline.ofText value.compact = (outline, ⟨.finish, stop, stop⟩) := by
    have hrun : Scan.run (Lexeme.ofText value.compact) =
        scanFrom (.awaitValue []) .origin (compactChars value ++ []) := by
      rw [List.append_nil, Scan.run, Lexeme.ofText, compact, String.toList_ofList]
      rfl
    rw [Outline.ofText, hrun, hscanned, scanFrom, lexemesFrom]
    rfl
  rw [hfound]
  exact ⟨hread path, rfl⟩

/-- **Writing and reading a value** gives the value without its repeated keys. -/
theorem read_compact (hfits : value.Fits maxNesting) (hintegral : value.Integral) :
    Json.read value.compact = .ok value.collapse := by
  obtain ⟨hread, hfinish⟩ := read_ofText_compact hfits hintegral []
  simp only [Json.read, hread, hfinish, bind, Except.bind, Except.mapError, if_true]
  rfl

end Scans

end GraphSchema.Json
