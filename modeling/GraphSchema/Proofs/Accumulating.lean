import GraphSchema.Proofs.Keywords
import GraphSchema.Proofs.Reapplying

/-!
What becomes of the comments on a schema that is written step by step.

Two kinds of steps add to `$comment`: a comment always does, and a record of metadata does unless its comment is a line
of what is there. Line breaks may stand anywhere in the texts.

- `Text.exists_of_mem_lines` : a line of a text stands in it.
- `Schema.Step` : a comment, a record of metadata, or a value under another keyword.
- `Schema.Step.keeps`, `Schema.Step.exists_text` : one step keeps the text under `$comment` as a beginning, and what it
  has to add stands there afterwards.
- `comments_kept` : so it is with any steps.
-/

namespace GraphSchema

/-! ## Lines in their text -/

namespace Text

theorem dropReturn_begins (line : List Char) : dropReturn line <+: line := by
  unfold dropReturn
  split
  · exact List.dropLast_prefix line
  · exact List.prefix_refl line

theorem infix_of_mem_linesFrom {begun text line : List Char} (h : line ∈ linesFrom begun text) :
    line <:+: begun.reverse ++ text := by
  induction text generalizing begun with
  | nil =>
    by_cases hempty : begun.isEmpty
    · simp [linesFrom, hempty] at h
    · simp only [linesFrom, if_neg hempty, List.mem_singleton] at h
      simp [h]
  | cons c text ih =>
    by_cases hc : c = '\n'
    · rw [linesFrom, if_pos hc, List.mem_cons] at h
      rcases h with rfl | h
      · exact (dropReturn_begins begun.reverse).isInfix.trans (List.prefix_append _ _).isInfix
      · have hrest : line <:+: text := ih h
        exact hrest.trans ((List.suffix_cons c text).trans (List.suffix_append _ _)).isInfix
    · rw [linesFrom, if_neg hc] at h
      have hrest := ih h
      rwa [List.reverse_cons, List.append_assoc, List.singleton_append] at hrest

/-- A line stands in its text, without a gap. -/
theorem exists_of_mem_lines {line text : String} (h : line ∈ lines text) :
    ∃ front back, text = front ++ line ++ back := by
  obtain ⟨front, back, heq⟩ := infix_of_mem_linesFrom (mem_lines.1 h)
  refine ⟨String.ofList front, String.ofList back, ?_⟩
  apply String.toList_inj.1
  simpa [String.toList_append] using heq.symm

end Text

/-! ## One step -/

namespace Schema

/-- the text under `$comment`, if there is one -/
def comment? (schema : Schema) : Option String :=
  Metadata.commentOf schema.members

/-- a step of writing a schema; under `$comment` only the steps write that are meant for it -/
inductive Step where
  | comment (text : String)
  | annotate (metadata : Option Metadata)
  | set (keyword : String) (value : Json) (hother : keyword ≠ "$comment")

namespace Step

/-- the schema after the step -/
def apply (schema : Schema) : Step → Schema
  | comment text => schema.comment text
  | annotate metadata => schema.annotate metadata
  | set keyword value _ => schema.set keyword value

/-- the text that the step has for `$comment` -/
def text? : Step → Option String
  | comment text => some text
  | annotate metadata => metadata.bind (·.comment)
  | set .. => none

end Step

theorem comment?_set (schema : Schema) {keyword : String} (hother : keyword ≠ "$comment") (value : Json) :
    (schema.set keyword value).comment? = schema.comment? := by
  unfold comment? Metadata.commentOf
  rw [get?_set_of_ne hother.symm]

/-- Metadata join their comment, if they have one, to what is there. -/
theorem comment?_annotate (schema : Schema) (metadata : Option Metadata) : (schema.annotate metadata).comment? =
    match metadata.bind (·.comment) with
    | some comment => some (Metadata.joinComment schema.comment? comment)
    | none => schema.comment? := by
  cases metadata with
  | none => rfl
  | some m =>
    rw [annotate_some]
    cases hcomment : m.comment with
    | none =>
      split_ifs
      · simp [hcomment]
      · simp only [Option.bind_some, hcomment]
        simp [comment?, Metadata.commentOf, Metadata.applyTo, Metadata.get?_insertSome, hcomment]
    | some comment =>
      have hfull : m.isEmpty = false := by simp [Metadata.isEmpty, hcomment]
      simp only [hfull, Bool.false_eq_true, if_false, Option.bind_some, hcomment]
      exact Metadata.commentOf_applyTo hcomment schema.members

/-- whether a text that was there is still there, with more behind it -/
def Keeps (before after : Option String) : Prop :=
  ∀ text, before = some text → ∃ more, after = some (text ++ more)

theorem Keeps.refl (before : Option String) : Keeps before before := by
  intro text h
  exact ⟨"", by rw [h, String.append_empty]⟩

theorem Keeps.trans {a b c : Option String} (hab : Keeps a b) (hbc : Keeps b c) : Keeps a c := by
  intro text h
  obtain ⟨more, hb⟩ := hab text h
  obtain ⟨rest, hc⟩ := hbc _ hb
  exact ⟨more ++ rest, by rw [hc, String.append_assoc]⟩

theorem keeps_joinComment (existing : Option String) (comment : String) :
    Keeps existing (some (Metadata.joinComment existing comment)) := by
  rintro text rfl
  dsimp only [Metadata.joinComment]
  split_ifs
  · exact ⟨"", by rw [String.append_empty]⟩
  · exact ⟨"\n" ++ comment, by rw [String.append_assoc]⟩

/-- A comment that is joined stands there: as it is a line of the text, or as it is appended. -/
theorem exists_in_joinComment (existing : Option String) (comment : String) :
    ∃ front back, Metadata.joinComment existing comment = front ++ comment ++ back := by
  cases existing with
  | none => exact ⟨"", "", by simp [Metadata.joinComment]⟩
  | some text =>
    unfold Metadata.joinComment
    by_cases hm : comment ∈ Text.lines text
    · simpa [hm] using Text.exists_of_mem_lines hm
    · exact ⟨text ++ "\n", "", by simp [hm]⟩

namespace Step

/-- **One step keeps.** The text under `$comment` stays, as the beginning of what is there then. -/
theorem keeps (schema : Schema) (step : Step) : Keeps schema.comment? (step.apply schema).comment? := by
  cases step with
  | comment text =>
    intro existing h
    have hbefore : Metadata.commentOf schema.members = some existing := h
    refine ⟨"\n" ++ text, ?_⟩
    rw [apply, comment?, Metadata.commentOf_comment, hbefore, ← String.append_assoc]
  | annotate metadata =>
    rw [apply, comment?_annotate]
    split
    · exact keeps_joinComment _ _
    · exact Keeps.refl _
  | set keyword value hother =>
    rw [apply, comment?_set schema hother]
    exact Keeps.refl _

/-- **One step adds.** What the step has for `$comment` stands there then. -/
theorem exists_text (schema : Schema) {step : Step} {text : String} (h : step.text? = some text) :
    ∃ front back, (step.apply schema).comment? = some (front ++ text ++ back) := by
  cases step with
  | comment own =>
    obtain rfl : own = text := Option.some.inj h
    rw [apply, comment?, Metadata.commentOf_comment]
    split
    · exact ⟨_, "", by rw [String.append_empty]⟩
    · exact ⟨"", "", by simp⟩
  | annotate metadata =>
    have hcomment : metadata.bind (·.comment) = some text := h
    rw [apply, comment?_annotate, hcomment]
    obtain ⟨front, back, hjoined⟩ := exists_in_joinComment schema.comment? text
    exact ⟨front, back, congrArg some hjoined⟩
  | set keyword value hother => cases h

end Step

/-! ## Any steps -/

/-- the schema after steps -/
def after (schema : Schema) (steps : List Step) : Schema :=
  steps.foldl Step.apply schema

theorem after_append (schema : Schema) (front back : List Step) :
    schema.after (front ++ back) = (schema.after front).after back :=
  List.foldl_append

theorem keeps_after (schema : Schema) (steps : List Step) : Keeps schema.comment? (schema.after steps).comment? := by
  induction steps generalizing schema with
  | nil => exact Keeps.refl _
  | cons step rest ih => exact (step.keeps schema).trans (ih (step.apply schema))

end Schema

/-- **Comments are kept.** Let a schema be written by any steps, none of which writes under `$comment` but by adding a
comment or metadata. Once there is a text under `$comment`, there is one ever after, and each begins with those before. All
texts that are added as comments, and the comments of all metadata, stand there to the end, each without a gap. -/
theorem comments_kept (schema : Schema) (front back : List Schema.Step) :
    (∀ text, (schema.after front).comment? = some text →
      ∃ more, (schema.after (front ++ back)).comment? = some (text ++ more)) ∧
    ∀ step ∈ front, ∀ text, step.text? = some text →
      ∃ before behind, (schema.after (front ++ back)).comment? = some (before ++ text ++ behind) := by
  constructor
  · intro text h
    rw [schema.after_append]
    exact (schema.after front).keeps_after back text h
  · intro step hstep text h
    obtain ⟨early, late, rfl⟩ := List.append_of_mem hstep
    obtain ⟨before, behind, hadded⟩ := Schema.Step.exists_text (schema.after early) h
    obtain ⟨more, hkept⟩ := (step.apply (schema.after early)).keeps_after (late ++ back) _ hadded
    refine ⟨before, behind ++ more, ?_⟩
    rw [List.append_assoc, schema.after_append, List.cons_append, ← String.append_assoc]
    exact hkept

/-- the steps of a schema whose comments repeat a line and lose a carriage return -/
def notedSteps : List Schema.Step :=
  [.comment "first\nsecond\r", .set "type" (.str "object") (by decide), .annotate (some { comment := some "first" }),
    .annotate (some { title := some "Noted" }), .comment "third", .annotate (some { comment := some "second" })]

/-- A comment that was there stays in front. The second piece of metadata has a line that is there already and adds
nothing, and neither does the last one, since a carriage return before a line feed belongs to the end of a line. -/
theorem comments_kept_notedSteps :
    let schema : Schema := ⟨[("$comment", .str "kept")]⟩
    (schema.after (notedSteps.take 1)).comment? = some "kept\nfirst\nsecond\r" ∧
      (∃ more, (schema.after notedSteps).comment? = some ("kept\nfirst\nsecond\r" ++ more)) ∧
      (∃ before behind, (schema.after notedSteps).comment? = some (before ++ "second" ++ behind)) ∧
      (schema.after notedSteps).comment? = some "kept\nfirst\nsecond\r\nthird" := by
  intro schema
  have hfirst : (schema.after (notedSteps.take 1)).comment? = some "kept\nfirst\nsecond\r" := by decide +kernel
  have hlast : Schema.Step.annotate (some { comment := some "second" }) ∈ notedSteps := by simp [notedSteps]
  obtain ⟨hkept, -⟩ := comments_kept schema (notedSteps.take 1) (notedSteps.drop 1)
  obtain ⟨-, hadded⟩ := comments_kept schema notedSteps []
  refine ⟨hfirst, hkept _ hfirst, ?_, by decide +kernel⟩
  simpa using hadded _ hlast "second" rfl

end GraphSchema
