import GraphSchema.Proofs.Diagnostics
import GraphSchema.Proofs.Reapplying

/-!
Layers of metadata, from the lowest precedence to the highest.

Layers are merged as records, each over those before it, or written onto the members of a schema one after the other.
Both come to one rule: under each keyword the last layer counts that gives something for it. Only `$comment` is apart,
since a merged record has one comment and each writing adds its own.

- `Metadata.gives`, `Metadata.lastGiven` : what a record gives for a keyword, and what the last of several does.
- `Metadata.get?_applyTo`, `Metadata.gives_merged` : one layer, written and merged.
- `Metadata.get?_applyAll`, `Metadata.gives_mergeAll` : any number of layers.
- `Layered` : members that come from others with layers over them, by this rule.
- `layers_merge` : records form a monoid under merging, and a merged record does what its layers do in turn. A build lays
  the metadata of the request over those of the root, and a property lays its own over those of its type, by this rule.
-/

namespace GraphSchema

namespace Metadata

/-! ## One layer -/

/-- what the record gives for a keyword; comments are not given but added -/
def gives (m : Metadata) (keyword : String) : Option Json :=
  if keyword = "title" then m.title.map .str
  else if keyword = "description" then m.description.map .str
  else if keyword = "examples" then if m.examples.isEmpty then none else some (.arr m.examples)
  else if keyword = "deprecated" then if m.deprecated then some (.bool true) else none
  else none

/-- the keywords for which a record may give something -/
def givable : List String := ["title", "description", "examples", "deprecated"]

theorem gives_of_notMem {keyword : String} (h : keyword ∉ givable) (m : Metadata) : m.gives keyword = none := by
  simp only [givable, List.mem_cons, List.not_mem_nil, or_false, not_or] at h
  simp [gives, h]

theorem gives_empty (keyword : String) : gives {} keyword = none := by
  simp [gives]

theorem gives_of_isEmpty {m : Metadata} (h : m.isEmpty = true) (keyword : String) : m.gives keyword = none := by
  simp only [isEmpty, Bool.and_eq_true, Option.isNone_iff_eq_none, Bool.not_eq_true'] at h
  obtain ⟨⟨⟨⟨htitle, hdescription⟩, hexamples⟩, -⟩, hdeprecated⟩ := h
  simp [gives, htitle, hdescription, hexamples, hdeprecated]

/-- **One layer, written.** Writing a record leaves under a keyword what the record gives, or else what was there. -/
theorem get?_applyTo (m : Metadata) (members : Members Json) {keyword : String} (h : keyword ≠ "$comment") :
    Members.get? (m.applyTo members) keyword = (m.gives keyword).or (Members.get? members keyword) := by
  simp only [applyTo, get?_insertSome, gives, h, if_false]
  by_cases htitle : keyword = "title"
  · simp [htitle]
  by_cases hdescription : keyword = "description"
  · simp [hdescription]
  by_cases hexamples : keyword = "examples"
  · simp [hexamples]
  by_cases hdeprecated : keyword = "deprecated"
  · simp [hdeprecated]
  simp [htitle, hdescription, hexamples, hdeprecated]

/-- **One layer, merged.** A merged record gives what the upper one gives, or else what the lower one does. -/
theorem gives_merged (base overlay : Metadata) (keyword : String) :
    (base.merged overlay).gives keyword = (overlay.gives keyword).or (base.gives keyword) := by
  by_cases htitle : keyword = "title"
  · simp [gives, merged, htitle, Option.map_or]
  by_cases hdescription : keyword = "description"
  · simp [gives, merged, hdescription, Option.map_or]
  by_cases hexamples : keyword = "examples"
  · cases hempty : overlay.examples.isEmpty <;> simp [gives, merged, hexamples, hempty]
  by_cases hdeprecated : keyword = "deprecated"
  · cases hover : overlay.deprecated <;> simp [gives, merged, hdeprecated, hover]
  simp [gives, htitle, hdescription, hexamples, hdeprecated]

/-! ## Several layers -/

/-- what the last layer gives that gives something for a keyword -/
def lastGiven (layers : List Metadata) (keyword : String) : Option Json :=
  layers.reverse.findSome? (·.gives keyword)

theorem lastGiven_append (front back : List Metadata) (keyword : String) :
    lastGiven (front ++ back) keyword = (lastGiven back keyword).or (lastGiven front keyword) := by
  simp [lastGiven, List.findSome?_append]

theorem lastGiven_singleton (m : Metadata) (keyword : String) : lastGiven [m] keyword = m.gives keyword := by
  simp [lastGiven]

theorem lastGiven_cons (m : Metadata) (layers : List Metadata) (keyword : String) :
    lastGiven (m :: layers) keyword = (lastGiven layers keyword).or (m.gives keyword) := by
  rw [← List.singleton_append, lastGiven_append, lastGiven_singleton]

theorem lastGiven_of_notMem {keyword : String} (h : keyword ∉ givable) (layers : List Metadata) :
    lastGiven layers keyword = none := by
  apply List.findSome?_eq_none_iff.2
  exact fun m _ => gives_of_notMem h m

/-- Writes layers onto members, one after the other. -/
def applyAll (layers : List Metadata) (members : Members Json) : Members Json :=
  layers.foldl (fun members m => m.applyTo members) members

/-- Merges layers from left to right. -/
def mergeAll (layers : List Metadata) : Metadata :=
  layers.foldl merged {}

theorem get?_applyAll (layers : List Metadata) (members : Members Json) {keyword : String} (h : keyword ≠ "$comment") :
    Members.get? (applyAll layers members) keyword =
      (lastGiven layers keyword).or (Members.get? members keyword) := by
  induction layers generalizing members with
  | nil => rfl
  | cons m layers ih =>
    calc Members.get? (applyAll (m :: layers) members) keyword
        = (lastGiven layers keyword).or (Members.get? (m.applyTo members) keyword) := ih (m.applyTo members)
      _ = (lastGiven layers keyword).or ((m.gives keyword).or (Members.get? members keyword)) := by
          rw [get?_applyTo m members h]
      _ = (lastGiven (m :: layers) keyword).or (Members.get? members keyword) := by
          rw [lastGiven_cons, Option.or_assoc]

theorem gives_mergeAll (layers : List Metadata) (keyword : String) :
    (mergeAll layers).gives keyword = lastGiven layers keyword := by
  suffices h : ∀ base : Metadata,
      (layers.foldl merged base).gives keyword = (lastGiven layers keyword).or (base.gives keyword) by
    rw [mergeAll, h, gives_empty, Option.or_none]
  induction layers with
  | nil => exact fun base => rfl
  | cons m layers ih =>
    intro base
    rw [List.foldl_cons, ih, gives_merged, lastGiven_cons, Option.or_assoc]

theorem merged_assoc (a b c : Metadata) : (a.merged b).merged c = a.merged (b.merged c) := by
  unfold merged
  congr 1
  · cases c.title <;> rfl
  · cases c.description <;> rfl
  · cases hc : c.examples.isEmpty <;> simp [hc]
  · cases c.comment <;> rfl
  · exact Bool.or_assoc _ _ _

theorem empty_merged (m : Metadata) : merged {} m = m := by
  obtain ⟨_ | title, _ | description, _ | ⟨first, rest⟩, _ | comment, deprecated⟩ := m <;> rfl

theorem merged_empty (m : Metadata) : m.merged {} = m := by
  obtain ⟨title, description, examples, comment, deprecated⟩ := m
  simp [merged]

end Metadata

open Metadata (lastGiven lastGiven_append lastGiven_singleton applyAll mergeAll givable)

/-! ## Layers over a schema -/

/-- whether members come from others with layers over them, some keywords left aside -/
def Layered (layers : List Metadata) (aside : List String) (before after : Members Json) : Prop :=
  ∀ keyword ∉ aside, Members.get? after keyword = (lastGiven layers keyword).or (Members.get? before keyword)

namespace Layered

variable {front back layers : List Metadata} {aside more : List String} {a b c : Members Json}

theorem trans (hab : Layered front aside a b) (hbc : Layered back aside b c) : Layered (front ++ back) aside a c := by
  intro keyword h
  rw [hbc keyword h, hab keyword h, lastGiven_append, Option.or_assoc]

/-- What is written under keywords that are left aside makes no difference. -/
theorem then_aside (h : Layered layers aside a b) (hmore : aside ⊆ more)
    (hsame : ∀ keyword ∉ more, Members.get? c keyword = Members.get? b keyword) : Layered layers more a c := by
  intro keyword hkeyword
  rw [hsame keyword hkeyword]
  exact h keyword fun hm => hkeyword (hmore hm)

theorem annotate (schema : Schema) (metadata : Option Metadata) :
    Layered metadata.toList ["$comment"] schema.members (schema.annotate metadata).members := by
  intro keyword h
  rw [List.mem_singleton] at h
  cases metadata with
  | none => rfl
  | some m =>
    rw [Option.toList_some, lastGiven_singleton, Schema.annotate_some]
    split_ifs with hempty
    · rw [Metadata.gives_of_isEmpty hempty, Option.none_or]
    · exact m.get?_applyTo schema.members h

/-- The metadata of a request are laid over those of its root. -/
theorem annotate_root (schema : Schema) (root : ObjectNode) (request : RootRequest) :
    Layered (root.metadata.toList ++ request.metadata.toList) ["$comment"] schema.members
      (schema.annotate (rootMetadata root request)).members := by
  have hgiven : ∀ keyword, lastGiven (rootMetadata root request).toList keyword =
      lastGiven (root.metadata.toList ++ request.metadata.toList) keyword := by
    intro keyword
    unfold rootMetadata
    cases root.metadata with
    | none => cases request.metadata <;> rfl
    | some own =>
      cases request.metadata with
      | none => rfl
      | some requested =>
        simp only [Option.toList_some, lastGiven_append, lastGiven_singleton]
        exact own.gives_merged requested keyword
  intro keyword h
  rw [← hgiven]
  exact annotate schema _ keyword h

end Layered

/-- **Builds.** In a document, the metadata of the request are laid over those of the root. -/
theorem layered_build {graph : TypeGraph} {request : RootRequest} {options : CompileOptions} {compiled : CompiledSchema}
    (h : build graph request options = .ok compiled) :
    ∃ root schema walk, graph.get? request.root = some root ∧
      Walk.run (compileRoot (rootSetting graph options root) root) {} = (.ok schema, walk) ∧
      Layered (root.metadata.toList ++ request.metadata.toList) ("$comment" :: envelope) schema.members
        compiled.schema.members := by
  obtain ⟨hvalid, root, hroot⟩ := exists_root_of_build h
  rw [build_eq hvalid hroot] at h
  rcases hrun : Walk.run (compileRoot (rootSetting graph options root) root) {} with ⟨e | schema, walk⟩
  · rw [hrun] at h
    cases h
  · rw [hrun] at h
    cases h
    obtain ⟨outcome, rfl, hc⟩ := compilation_of_run hvalid hroot hrun
    refine ⟨root, _, walk, hroot, hrun, ?_⟩
    apply (Layered.annotate_root _ root request).then_aside (by simp)
    intro keyword hkeyword
    exact hc.get?_schema fun hm => hkeyword (List.mem_cons_of_mem _ hm)

/-- **Properties.** The metadata of a property are laid over those of its type, where the schema of the type stands in
the property. -/
theorem layered_property {setting : Setting} {compile : Shape.Compiler ObjectNode} {owner : String} {p : Property}
    {member : ObjectId} {default : Option String} {node : ObjectNode} {walk after : Walk} {schema : Schema}
    (hshape : p.shape = .custom member default) (hget : setting.graph.get? member = some node)
    (hinlined : node.kind.isDefined = false)
    (h : Walk.run (Shape.property (Shape.object setting compile) owner p) walk = (.ok (some schema), after)) :
    ∃ inner, Walk.run (compile node) walk = (.ok (some inner), after) ∧
      Layered (node.metadata.toList ++ p.metadata.toList) ["$comment", "default"] inner.members schema.members := by
  unfold Shape.property at h
  rw [hshape] at h
  obtain ⟨outcome, mid, hobject, h⟩ := Walk.run_bind_ok h
  obtain ⟨found, hfound, ⟨hdefined, -⟩ | ⟨-, inner, hrun, houtcome⟩⟩ := Shape.object_ok hobject
  · cases hget.symm.trans hfound
    rw [hinlined] at hdefined
    cases hdefined
  · cases hget.symm.trans hfound
    subst houtcome
    cases inner with
    | none => cases (Walk.run_pure_ok h).1
    | some inner =>
      obtain ⟨hschema, rfl⟩ := Walk.run_pure_ok h
      refine ⟨inner, hrun, ?_⟩
      apply ((Layered.annotate inner node.metadata).trans (Layered.annotate _ p.metadata)).then_aside (by simp)
      intro keyword hkeyword
      obtain ⟨-, hdefault⟩ : keyword ≠ "$comment" ∧ keyword ≠ "default" := by simpa using hkeyword
      rw [Option.some.inj hschema]
      cases default with
      | none => rfl
      | some literal => exact Schema.get?_set_of_ne hdefault _

/-- **Layers merge.** Records of metadata form a monoid under merging. Writing layers in turn leaves, under every keyword
but `$comment`, what writing the merged record leaves: what the last layer gives that gives something there, or else what
was there before. A build lays the metadata of its request over those of the root by this rule, the envelope left aside,
and a property lays its own over those of its type, its default value left aside. No layer gives anything but a title, a
description, examples and whether the type is deprecated. -/
theorem layers_merge :
    (∀ a b c : Metadata, (a.merged b).merged c = a.merged (b.merged c)) ∧
    (∀ m : Metadata, Metadata.merged {} m = m ∧ m.merged {} = m) ∧
    (∀ layers members keyword, keyword ≠ "$comment" →
      Members.get? (applyAll layers members) keyword = Members.get? ((mergeAll layers).applyTo members) keyword) ∧
    (∀ layers members, Layered layers ["$comment"] members (applyAll layers members)) ∧
    (∀ graph request options compiled, build graph request options = .ok compiled →
      ∃ root schema walk, graph.get? request.root = some root ∧
        Walk.run (compileRoot (rootSetting graph options root) root) {} = (.ok schema, walk) ∧
        Layered (root.metadata.toList ++ request.metadata.toList) ("$comment" :: envelope) schema.members
          compiled.schema.members) ∧
    (∀ setting compile owner p member default node walk schema after, p.shape = .custom member default →
      setting.graph.get? member = some node → node.kind.isDefined = false →
      Walk.run (Shape.property (Shape.object setting compile) owner p) walk = (.ok (some schema), after) →
      ∃ inner, Walk.run (compile node) walk = (.ok (some inner), after) ∧
        Layered (node.metadata.toList ++ p.metadata.toList) ["$comment", "default"] inner.members schema.members) ∧
    ∀ layers, ∀ keyword ∉ givable, lastGiven layers keyword = none := by
  refine ⟨Metadata.merged_assoc, fun m => ⟨m.empty_merged, m.merged_empty⟩, ?_, ?_, ?_, ?_, ?_⟩
  · intro layers members keyword h
    rw [Metadata.get?_applyAll layers members h, Metadata.get?_applyTo _ members h, Metadata.gives_mergeAll]
  · intro layers members keyword h
    exact Metadata.get?_applyAll layers members (by simpa using h)
  · exact fun _ _ _ _ h => layered_build h
  · exact fun _ _ _ _ _ _ _ _ _ _ hshape hget hinlined h => layered_property hshape hget hinlined h
  · exact fun layers _ h => Metadata.lastGiven_of_notMem h layers

/-- a property with a title of its own and a default value -/
def countProperty : Property where
  name := "count"
  metadata := some { title := some "Count", deprecated := true, comment := some "of boxes" }
  shape := .custom ⟨0⟩ (some "10")

/-- a number with a title and a description, and a type that has such a number -/
def counted : TypeGraph := ⟨[
  { identity := "int",
    metadata := some { title := some "Integer", description := some "a 32-bit integer", comment := some "signed" },
    shape := .system .int32 },
  { identity := "Stock", shape := .custom [countProperty] [] }]⟩

/-- A request and a property replace the title of the number and keep its description. -/
theorem layers_merge_counted :
    (∃ compiled, build counted { root := ⟨0⟩, metadata := some { title := some "Amount" } } {} = .ok compiled ∧
      Members.get? compiled.schema.members "title" = some (.str "Amount") ∧
      Members.get? compiled.schema.members "description" = some (.str "a 32-bit integer")) ∧
    ∃ schema after, Walk.run (Shape.compileProperty { graph := counted, options := {} } "Stock" countProperty) {} =
        (.ok (some schema), after) ∧
      Members.get? schema.members "title" = some (.str "Count") ∧
      Members.get? schema.members "description" = some (.str "a 32-bit integer") ∧
      Members.get? schema.members "deprecated" = some (.bool true) := by
  obtain ⟨-, -, -, -, hbuild, hproperty, -⟩ := layers_merge
  constructor
  · obtain ⟨compiled, hcompiled⟩ : ∃ compiled,
        build counted { root := ⟨0⟩, metadata := some { title := some "Amount" } } {} = .ok compiled :=
      exists_ok_of_isOk (by rfl)
    obtain ⟨root, schema, walk, hroot, -, hlayered⟩ := hbuild _ _ _ _ hcompiled
    cases hroot
    exact ⟨compiled, hcompiled, hlayered "title" (by decide), hlayered "description" (by decide)⟩
  · let setting : Setting := { graph := counted, options := {} }
    obtain ⟨schema, after, hrun⟩ : ∃ schema after, Walk.run (Shape.property (Shape.object setting
        (Shape.shape setting (Shape.room setting {}))) "Stock" countProperty) {} = (.ok (some schema), after) :=
      ⟨_, _, rfl⟩
    obtain ⟨inner, -, hlayered⟩ := hproperty setting _ _ _ _ _ _ _ _ _ rfl rfl rfl hrun
    exact ⟨schema, after, hrun, hlayered "title" (by decide), hlayered "description" (by decide),
      hlayered "deprecated" (by decide)⟩

/-- Comments are apart: layers that are written in turn keep all of them, and a merged record has the last one. -/
example :
    let layers : List Metadata := [{ comment := some "signed" }, { comment := some "of boxes" }]
    Metadata.commentOf (applyAll layers []) = some "signed\nof boxes" ∧
      Metadata.commentOf ((mergeAll layers).applyTo []) = some "of boxes" := by decide +kernel

end GraphSchema
