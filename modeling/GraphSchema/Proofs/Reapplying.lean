import GraphSchema.Proofs.Members
import GraphSchema.Schema.Basic

/-!
Writing a record of metadata onto a schema a second time.

- `Text.mem_lines_append`: a line that does not end in a carriage return stays a line when further lines follow.
- `Metadata.applyTo_of_holds`: on a schema that has what the record says, writing the record again only joins its
  comment to the comment that is there.
- `Metadata.reapplied_iff`: so writing again changes nothing exactly if the comment is one line by itself, and also
  behind other comments exactly if that line does not end in a carriage return.
-/

namespace GraphSchema

/-! ## Lines -/

namespace Text

/-- The line that is begun ends at the first line feed, and what follows it are lines of their own. -/
theorem linesFrom_append (begun front back : List Char) :
    linesFrom begun (front ++ '\n' :: back) = linesFrom begun (front ++ ['\n']) ++ linesFrom [] back := by
  induction front generalizing begun with
  | nil => simp [linesFrom]
  | cons c front ih =>
    by_cases hc : c = '\n'
    · simp only [List.cons_append, linesFrom, if_pos hc, ih]
    · simp only [List.cons_append, linesFrom, if_neg hc, ih]

/-- A text without line feeds is one line, or none if it is empty. -/
theorem linesFrom_of_notMem (begun : List Char) {text : List Char} (h : '\n' ∉ text) :
    linesFrom begun text = if begun.reverse ++ text = [] then [] else [begun.reverse ++ text] := by
  induction text generalizing begun with
  | nil => simp [linesFrom]
  | cons c text ih =>
    obtain ⟨hc, htext⟩ : '\n' ≠ c ∧ '\n' ∉ text := by simpa using h
    rw [linesFrom, if_neg hc.symm, ih (c :: begun) htext]
    simp

/-- One line that is ended loses a carriage return at its end. -/
theorem linesFrom_ended (begun : List Char) {text : List Char} (h : '\n' ∉ text) :
    linesFrom begun (text ++ ['\n']) = [dropReturn (begun.reverse ++ text)] := by
  induction text generalizing begun with
  | nil => simp [linesFrom]
  | cons c text ih =>
    obtain ⟨hc, htext⟩ : '\n' ≠ c ∧ '\n' ∉ text := by simpa using h
    rw [List.cons_append, linesFrom, if_neg hc.symm, ih (c :: begun) htext]
    simp

theorem dropReturn_subset (line : List Char) : dropReturn line ⊆ line := by
  unfold dropReturn
  split
  · exact List.dropLast_subset line
  · exact List.Subset.refl line

theorem dropReturn_of_ne {line : List Char} (h : line.getLast? ≠ some '\r') : dropReturn line = line := by
  unfold dropReturn
  split
  · contradiction
  · rfl

theorem dropReturn_eq_self_iff {line : List Char} : dropReturn line = line ↔ line.getLast? ≠ some '\r' := by
  constructor
  · intro hsame hlast
    have hne : line ≠ [] := by
      rintro rfl
      cases hlast
    have hdrop : dropReturn line = line.dropLast := by simp [dropReturn, hlast]
    have hlength := congrArg List.length (hdrop.symm.trans hsame)
    rw [List.length_dropLast] at hlength
    have hpos := List.length_pos_iff.2 hne
    omega
  · exact dropReturn_of_ne

theorem notMem_of_mem_linesFrom {begun text line : List Char} (hbegun : '\n' ∉ begun)
    (h : line ∈ linesFrom begun text) : '\n' ∉ line := by
  induction text generalizing begun with
  | nil =>
    by_cases hempty : begun.isEmpty
    · simp [linesFrom, hempty] at h
    · simp only [linesFrom, if_neg hempty, List.mem_singleton] at h
      simpa [h] using hbegun
  | cons c text ih =>
    by_cases hc : c = '\n'
    · rw [linesFrom, if_pos hc, List.mem_cons] at h
      rcases h with rfl | h
      · intro hm
        exact hbegun (List.mem_reverse.1 (dropReturn_subset _ hm))
      · exact ih (by simp) h
    · rw [linesFrom, if_neg hc] at h
      exact ih (by simpa [Ne.symm hc] using hbegun) h

/-- A line feed behind the text leaves its lines alone, apart from a carriage return at the end of the last one. -/
theorem mem_linesFrom_ended {begun text line : List Char} (hreturn : line.getLast? ≠ some '\r')
    (h : line ∈ linesFrom begun text) : line ∈ linesFrom begun (text ++ ['\n']) := by
  induction text generalizing begun with
  | nil =>
    by_cases hempty : begun.isEmpty
    · simp [linesFrom, hempty] at h
    · simp only [linesFrom, if_neg hempty, List.mem_singleton] at h
      subst h
      simp [linesFrom, dropReturn_of_ne hreturn]
  | cons c text ih =>
    by_cases hc : c = '\n'
    · rw [linesFrom, if_pos hc, List.mem_cons] at h
      rw [List.cons_append, linesFrom, if_pos hc, List.mem_cons]
      exact h.imp id ih
    · rw [linesFrom, if_neg hc] at h
      rw [List.cons_append, linesFrom, if_neg hc]
      exact ih h

theorem mem_lines {line text : String} : line ∈ lines text ↔ line.toList ∈ linesFrom [] text.toList := by
  unfold lines
  rw [List.mem_map]
  constructor
  · rintro ⟨chars, hm, rfl⟩
    rwa [String.toList_ofList]
  · intro hm
    exact ⟨line.toList, hm, String.ofList_toList⟩

theorem toList_joined (text more : String) : (text ++ "\n" ++ more).toList = text.toList ++ '\n' :: more.toList := by
  simp [String.toList_append]

/-- what can be a line of a text by itself: neither empty nor broken -/
def IsLine (line : String) : Prop := line ≠ "" ∧ '\n' ∉ line.toList

theorem notMem_of_mem_lines {line text : String} (h : line ∈ lines text) : '\n' ∉ line.toList :=
  notMem_of_mem_linesFrom (by simp) (mem_lines.1 h)

theorem linesFrom_of_isLine {line : String} (h : IsLine line) : linesFrom [] line.toList = [line.toList] := by
  rw [linesFrom_of_notMem [] h.2]
  simp [h.1]

theorem mem_lines_self {line : String} : line ∈ lines line ↔ IsLine line := by
  constructor
  · intro h
    refine ⟨?_, notMem_of_mem_lines h⟩
    rintro rfl
    simp [lines, linesFrom] at h
  · intro h
    rw [mem_lines, linesFrom_of_isLine h]
    exact List.mem_singleton_self _

/-- The last line of a text may be any text that is a line by itself. -/
theorem mem_lines_joined {line : String} (h : IsLine line) (text : String) : line ∈ lines (text ++ "\n" ++ line) := by
  rw [mem_lines, toList_joined, linesFrom_append, linesFrom_of_isLine h]
  exact List.mem_append_right _ (List.mem_singleton_self _)

/-- A line that does not end in a carriage return stays a line when further lines follow. -/
theorem mem_lines_append {line text : String} (hreturn : line.toList.getLast? ≠ some '\r') (h : line ∈ lines text)
    (more : String) : line ∈ lines (text ++ "\n" ++ more) := by
  rw [mem_lines, toList_joined, linesFrom_append]
  exact List.mem_append_left _ (mem_linesFrom_ended hreturn (mem_lines.1 h))

end Text

/-! ## Members that are there already -/

/-- Writing what is there changes nothing. -/
theorem Members.insert_of_get? {α : Type} {members : Members α} {key : String} {value : α}
    (h : get? members key = some value) : insert members key value = members := by
  induction members with
  | nil => simp [get?] at h
  | cons entry rest ih =>
    obtain ⟨k, v⟩ := entry
    rw [get?_cons] at h
    by_cases hk : k = key
    · rw [if_pos hk.symm, Option.some.injEq] at h
      rw [insert, if_pos hk, h]
    · rw [if_neg (Ne.symm hk)] at h
      rw [insert, if_neg hk, ih h]

namespace Metadata

variable {m : Metadata} {members : Members Json}

theorem get?_insertSome (members : Members Json) (key : String) (value : Option Json) (k : String) :
    Members.get? (insertSome members key value) k =
      if k = key then value.or (Members.get? members k) else Members.get? members k := by
  cases value with
  | none => simp [insertSome]
  | some value => simp [insertSome, Members.get?_insert]

theorem insertSome_of_get? {key : String} {value : Option Json}
    (h : ∀ v ∈ value, Members.get? members key = some v) : insertSome members key value = members := by
  cases value with
  | none => rfl
  | some value => exact Members.insert_of_get? (h value rfl)

theorem commentOf_insert (members : Members Json) (text : String) :
    commentOf (Members.insert members "$comment" (.str text)) = some text := by
  rw [commentOf, Members.get?_insert, if_pos rfl]
  rfl

/-! ## What a record leaves behind -/

/-- whether the members say what the record says, its comment apart -/
structure Holds (m : Metadata) (members : Members Json) : Prop where
  title : ∀ v ∈ m.title.map Json.str, Members.get? members "title" = some v
  description : ∀ v ∈ m.description.map Json.str, Members.get? members "description" = some v
  examples : ∀ v ∈ if m.examples.isEmpty then none else some (Json.arr m.examples),
    Members.get? members "examples" = some v
  deprecated : ∀ v ∈ if m.deprecated then some (Json.bool true) else none,
    Members.get? members "deprecated" = some v

theorem holds_applyTo (m : Metadata) (members : Members Json) : m.Holds (m.applyTo members) := by
  constructor
  all_goals
    intro v hv
    rw [Option.mem_def] at hv
    simp only [applyTo, get?_insertSome, hv]
    simp

/-- Comments that are added leave the rest alone. -/
theorem Holds.insert_comment (h : m.Holds members) (value : Json) :
    m.Holds (Members.insert members "$comment" value) := by
  have hother : ∀ key ≠ "$comment", Members.get? (Members.insert members "$comment" value) key =
      Members.get? members key := by
    intro key hne
    rw [Members.get?_insert, if_neg hne]
  constructor
  · rw [hother "title" (by decide)]
    exact h.title
  · rw [hother "description" (by decide)]
    exact h.description
  · rw [hother "examples" (by decide)]
    exact h.examples
  · rw [hother "deprecated" (by decide)]
    exact h.deprecated

/-- On members that say what the record says, only its comment is left to be joined. -/
theorem applyTo_of_holds (h : m.Holds members) : m.applyTo members =
    insertSome members "$comment" (m.comment.map fun comment => .str (joinComment (commentOf members) comment)) := by
  unfold applyTo
  simp only
  rw [insertSome_of_get? h.title, insertSome_of_get? h.description]
  cases m.comment with
  | none => rw [Option.map_none, insertSome, insertSome_of_get? h.examples, insertSome_of_get? h.deprecated]
  | some comment =>
    have hjoined := h.insert_comment (.str (joinComment (commentOf members) comment))
    rw [Option.map_some, insertSome, insertSome_of_get? hjoined.examples, insertSome_of_get? hjoined.deprecated]

theorem commentOf_applyTo {comment : String} (h : m.comment = some comment) (members : Members Json) :
    commentOf (m.applyTo members) = some (joinComment (commentOf members) comment) := by
  have hbefore : commentOf (insertSome (insertSome members "title" (m.title.map .str)) "description"
      (m.description.map .str)) = commentOf members := by
    rw [commentOf, get?_insertSome, if_neg (by decide), get?_insertSome, if_neg (by decide)]
    rfl
  have hwritten : Members.get? (m.applyTo members) "$comment" = some (.str (joinComment (commentOf members) comment)) := by
    rw [applyTo, get?_insertSome, if_neg (by decide), get?_insertSome, if_neg (by decide), get?_insertSome, if_pos rfl, h,
      hbefore]
    rfl
  rw [commentOf, hwritten]
  rfl

/-! ## Joining a comment again -/

/-- whether the comment of the record is a line of the comment that is there -/
def Lists (m : Metadata) (members : Members Json) : Prop :=
  ∀ comment, m.comment = some comment → ∃ text, commentOf members = some text ∧ comment ∈ Text.lines text

theorem joinComment_eq_iff {text comment : String} : joinComment (some text) comment = text ↔ comment ∈ Text.lines text := by
  unfold joinComment
  by_cases hm : comment ∈ Text.lines text
  · simp [hm]
  · have hne : text ++ "\n" ++ comment ≠ text := by
      intro h
      have hlength := congrArg String.length h
      have hbreak : "\n".length = 1 := rfl
      rw [String.length_append, String.length_append] at hlength
      omega
    simp [hm, hne]

/-- **Writing again.** A record whose keywords are there changes nothing exactly if its comment is among the lines. -/
theorem applyTo_eq_self_iff (h : m.Holds members) : m.applyTo members = members ↔ m.Lists members := by
  rw [applyTo_of_holds h, Lists]
  cases hcomment : m.comment with
  | none => simp [insertSome]
  | some comment =>
    rw [Option.map_some, insertSome]
    constructor
    · intro hsame _ heq
      obtain rfl := Option.some.inj heq
      have hstands := congrArg commentOf hsame
      rw [commentOf_insert] at hstands
      refine ⟨_, hstands.symm, ?_⟩
      rw [← joinComment_eq_iff, hstands]
    · intro hlists
      obtain ⟨text, htext, hm⟩ := hlists comment rfl
      rw [htext, joinComment_eq_iff.2 hm]
      apply Members.insert_of_get?
      obtain ⟨value, hvalue, hstr⟩ := Option.bind_eq_some_iff.1 htext
      cases value with
      | str _ => cases hstr; exact hvalue
      | _ => cases hstr

theorem mem_lines_joinComment {comment : String} (h : Text.IsLine comment) (existing : Option String) :
    comment ∈ Text.lines (joinComment existing comment) := by
  cases existing with
  | none => exact Text.mem_lines_self.2 h
  | some text =>
    unfold joinComment
    by_cases hm : comment ∈ Text.lines text
    · simp [hm]
    · simpa [hm] using Text.mem_lines_joined h text

/-! ## Comments in between -/

/-- the comment after further ones were added -/
theorem commentOf_comment (schema : Schema) (text : String) : commentOf (schema.comment text).members =
    some (match commentOf schema.members with
      | some existing => existing ++ "\n" ++ text
      | none => text) := by
  unfold Schema.comment
  cases hcomment : commentOf schema.members with
  | none => exact commentOf_insert schema.members text
  | some existing => exact commentOf_insert schema.members _

theorem Holds.comment {schema : Schema} (h : m.Holds schema.members) (text : String) :
    m.Holds (schema.comment text).members := by
  unfold Schema.comment
  cases commentOf schema.members with
  | none => exact h.insert_comment _
  | some existing => exact h.insert_comment _

theorem Holds.comments (schema : Schema) (h : m.Holds schema.members) (texts : List String) :
    m.Holds (texts.foldl Schema.comment schema).members := by
  induction texts generalizing schema with
  | nil => exact h
  | cons text texts ih =>
    exact ih (schema.comment text) (h.comment text)

/-- A comment that does not end in a carriage return stays among the lines when others are added. -/
theorem Lists.comment {schema : Schema} (hreturn : ∀ comment, m.comment = some comment → comment.toList.getLast? ≠ some '\r')
    (h : m.Lists schema.members) (text : String) : m.Lists (schema.comment text).members := by
  intro comment heq
  obtain ⟨existing, hexisting, hm⟩ := h comment heq
  refine ⟨existing ++ "\n" ++ text, ?_, Text.mem_lines_append (hreturn comment heq) hm text⟩
  rw [commentOf_comment, hexisting]

theorem Lists.comments (schema : Schema)
    (hreturn : ∀ comment, m.comment = some comment → comment.toList.getLast? ≠ some '\r')
    (h : m.Lists schema.members) (texts : List String) : m.Lists (texts.foldl Schema.comment schema).members := by
  induction texts generalizing schema with
  | nil => exact h
  | cons text texts ih =>
    exact ih (schema.comment text) (h.comment hreturn text)

theorem lists_applyTo (h : ∀ comment, m.comment = some comment → Text.IsLine comment) (members : Members Json) :
    m.Lists (m.applyTo members) := by
  intro comment heq
  exact ⟨_, commentOf_applyTo heq members, mem_lines_joinComment (h comment heq) _⟩

/-- On members without a comment, a record's comment is among the lines only if it is one by itself. -/
theorem isLine_of_lists (h : m.Lists (m.applyTo [])) (comment : String) (heq : m.comment = some comment) :
    Text.IsLine comment := by
  obtain ⟨text, htext, hm⟩ := h comment heq
  rw [commentOf_applyTo heq] at htext
  cases htext
  exact Text.mem_lines_self.1 hm

/-- A carriage return at the end is lost to the line feed of the next comment. -/
theorem getLast?_of_lists {comment : String} (heq : m.comment = some comment)
    (h : m.Lists (Schema.comment ⟨m.applyTo []⟩ "").members) : comment.toList.getLast? ≠ some '\r' := by
  obtain ⟨text, htext, hm⟩ := h comment heq
  rw [commentOf_comment, commentOf_applyTo heq] at htext
  cases htext
  have hline := Text.notMem_of_mem_lines hm
  rw [Text.mem_lines] at hm
  simp only [joinComment, commentOf, Members.get?, List.lookup_nil, Option.bind_none, Text.toList_joined,
    String.toList_empty] at hm
  rw [Text.linesFrom_ended [] hline, List.mem_singleton] at hm
  exact Text.dropReturn_eq_self_iff.1 hm.symm

/-- the schema after the record was written onto members and other comments were added -/
def noted (m : Metadata) (members : Members Json) (texts : List String) : Schema :=
  texts.foldl Schema.comment ⟨m.applyTo members⟩

theorem holds_noted (m : Metadata) (members : Members Json) (texts : List String) :
    m.Holds (m.noted members texts).members :=
  Holds.comments ⟨m.applyTo members⟩ (m.holds_applyTo members) texts

/-- **Writing twice.** A record of metadata is written onto any members twice with the effect of once exactly if its
comment, where it has one, is neither empty nor broken by a line feed. It is so also behind any further comments
exactly if, besides, the comment does not end in a carriage return. In all other cases the second writing adds the
comment to `$comment` again, and does nothing else. -/
theorem reapplied_iff (m : Metadata) :
    ((∀ members, m.applyTo (m.applyTo members) = m.applyTo members) ↔
      ∀ comment, m.comment = some comment → comment ≠ "" ∧ '\n' ∉ comment.toList) ∧
    ((∀ members texts, m.applyTo (m.noted members texts).members = (m.noted members texts).members) ↔
      ∀ comment, m.comment = some comment →
        comment ≠ "" ∧ '\n' ∉ comment.toList ∧ comment.toList.getLast? ≠ some '\r') ∧
    ∀ members texts comment text, m.comment = some comment →
      commentOf (m.noted members texts).members = some text → comment ∉ Text.lines text →
      m.applyTo (m.noted members texts).members =
        Members.insert (m.noted members texts).members "$comment" (.str (text ++ "\n" ++ comment)) := by
  refine ⟨⟨?_, ?_⟩, ⟨?_, ?_⟩, ?_⟩
  · intro hsame
    apply isLine_of_lists
    rw [← applyTo_eq_self_iff (m.holds_applyTo [])]
    exact hsame []
  · intro hlines members
    rw [applyTo_eq_self_iff (m.holds_applyTo members)]
    exact lists_applyTo hlines members
  · intro hsame comment heq
    have hlists : ∀ texts, m.Lists (m.noted [] texts).members := by
      intro texts
      rw [← applyTo_eq_self_iff (m.holds_noted [] texts)]
      exact hsame [] texts
    obtain ⟨hempty, hbreak⟩ := isLine_of_lists (hlists []) comment heq
    exact ⟨hempty, hbreak, getLast?_of_lists heq (hlists [""])⟩
  · intro hlines members texts
    rw [applyTo_eq_self_iff (m.holds_noted members texts)]
    have hlists := lists_applyTo (fun comment heq => ⟨(hlines comment heq).1, (hlines comment heq).2.1⟩) members
    exact Lists.comments ⟨m.applyTo members⟩ (fun comment heq => (hlines comment heq).2.2) hlists texts
  · intro members texts comment text heq htext hm
    rw [applyTo_of_holds (m.holds_noted members texts), heq, htext]
    simp [insertSome, joinComment, hm]

/-- A comment of two lines is written twice. -/
theorem broken_comment_repeated :
    let m : Metadata := { comment := some "first\nsecond" }
    commentOf (m.applyTo []) = some "first\nsecond" ∧
      commentOf (m.applyTo (m.applyTo [])) = some "first\nsecond\nfirst\nsecond" ∧
      m.applyTo (m.applyTo []) ≠ m.applyTo [] := by
  have htwice : commentOf (applyTo { comment := some "first\nsecond" } (applyTo { comment := some "first\nsecond" } [])) =
      some "first\nsecond\nfirst\nsecond" := by decide +kernel
  refine ⟨rfl, htwice, fun hsame => ?_⟩
  have honce := htwice.symm.trans (congrArg commentOf hsame)
  exact absurd honce (by decide +kernel)

end Metadata

end GraphSchema
