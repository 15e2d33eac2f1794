import GraphSchema.Proofs.Ranges

/-!
What readers make of sources whose values fit into the room that is left.

- `Source.Within` : the source is part of a text with so much room, or holds a value that fits into it.
- `Source.Yields` : a property of everything that a reader accepts within some room; one lemma for each way of
  reading.
- `Source.Keeps` : an invariant of a draft while it takes in members (`yields_record`, `yields_recordOrRow`,
  `exists_of_heldRecord`).
-/

namespace GraphSchema.Reading.Source

open Json (Path Place Lexeme Outline Key Ending)

/-- The value of the source fits into the room, if it has one. -/
def Within (room : Nat) : Source → Prop
  | part _ inner outline => inner = room ∧ outline.InRange
  | held value => value.Fits room

/-- Within some room, `read` only accepts what has the property. -/
def Yields {α : Type} (read : Source → Result α) (P : Nat → α → Prop) : Prop :=
  ∀ room source a, Within room source → read source = .ok a → P room a

/-- what is in a slot has the property, if there is anything -/
def Filled {α : Type} (P : α → Prop) (slot : Option α) : Prop :=
  ∀ a, slot = some a → P a

section Filled

variable {α β : Type} {P : α → Prop}

theorem filled_none : Filled P none := nofun

theorem filled_some {a : α} (h : P a) : Filled P (some a) := by
  intro b hsame
  cases hsame
  exact h

theorem Filled.join {slot : Option (Option α)} (h : Filled (Filled P) slot) : Filled P slot.join := by
  cases slot with
  | none => exact filled_none
  | some inner => exact h inner rfl

theorem Filled.map {Q : β → Prop} {slot : Option α} (h : Filled P slot) {change : α → β}
    (heach : ∀ a, P a → Q (change a)) : Filled Q (slot.map change) := by
  cases slot with
  | none => exact filled_none
  | some a => exact filled_some (heach a (h a rfl))

end Filled

/-! ## Scalars, values and lists -/

section Values

variable {α : Type} {read : Source → Result α} {P : Nat → α → Prop} {room : Nat} {source : Source} {value : Json}

theorem yields_trivial (read : Source → Result α) : Yields read fun _ _ => True :=
  fun _ _ _ _ _ => trivial

theorem within_part (path : Path) {outline : Outline} (hinRange : outline.InRange) :
    Within room (part path room outline) :=
  ⟨rfl, hinRange⟩

theorem Within.scalar (h : Within room source) (hscalar : source.scalar? = some value) : value.Fits room := by
  cases source with
  | part path inner outline =>
    obtain ⟨rfl, hinRange⟩ := h
    cases hinRange with
    | leaf hinRange => exact Json.fits_of_scalar hinRange (scalar_of_leaf hscalar)
    | _ => cases hscalar
  | held found =>
    have hsame : found = value := by
      cases found <;> first | exact Option.some.inj hscalar | cases hscalar
    exact hsame ▸ h

theorem yields_count : Yields count fun room n => (Json.nat n).Fits room := by
  intro room source n hwithin haccepted
  unfold count at haccepted
  split at haccepted
  · rename_i hcount
    cases haccepted
    exact hwithin.scalar hcount
  · cases haccepted
  · cases haccepted

theorem yields_map {β : Type} {change : α → β} {Q : Nat → β → Prop} (h : Yields read P)
    (heach : ∀ room a, P room a → Q room (change a)) : Yields (fun source => change <$> read source) Q := by
  intro room source b hwithin haccepted
  obtain ⟨a, hread, rfl⟩ := map_eq_ok.1 haccepted
  exact heach room a (h room source a hwithin hread)

theorem yields_optional (h : Yields read P) : Yields (optional read) fun room => Filled (P room) := by
  intro room source found hwithin haccepted
  unfold optional at haccepted
  split at haccepted
  · cases haccepted
    exact filled_none
  · obtain ⟨a, hread, rfl⟩ := map_eq_ok.1 haccepted
    exact filled_some (h room source a hwithin hread)

theorem yields_raw : Yields raw fun room value => value.Fits room := by
  intro room source value hwithin haccepted
  cases source with
  | part path inner outline =>
    obtain ⟨rfl, hinRange⟩ := hwithin
    exact hinRange.fits inner path value (mapError_eq_ok.1 haccepted)
  | held found =>
    cases haccepted
    exact hwithin

theorem yields_any : Yields any fun room value => value.Fits room ∧ value.Collapsed :=
  yields_map yields_raw fun _ value hfits => ⟨hfits.collapse, Json.collapsed_collapse value⟩

theorem forall_of_listItems (h : Yields read P) {path : Path} {index : Nat} {items : List Outline} {values : List α}
    (hinRange : ∀ item ∈ items, item.InRange) (haccepted : listItems read path room index items = .ok values) :
    ∀ a ∈ values, P room a := by
  induction items generalizing index values with
  | nil => cases haccepted; exact List.forall_mem_nil _
  | cons item items ih =>
    obtain ⟨hfirst, hbehind⟩ := List.forall_mem_cons.1 hinRange
    obtain ⟨a, hread, haccepted⟩ := bind_eq_ok.1 haccepted
    obtain ⟨others, hreads, haccepted⟩ := bind_eq_ok.1 haccepted
    cases haccepted
    exact List.forall_mem_cons.2 ⟨h room _ a (within_part _ hfirst) hread, ih hbehind hreads⟩

theorem forall_of_mapM (h : Yields read P) {items : List Json} {values : List α}
    (hfits : ∀ item ∈ items, item.Fits room)
    (haccepted : items.mapM (fun item => read (held item)) = .ok values) : ∀ a ∈ values, P room a := by
  induction items generalizing values with
  | nil => cases haccepted; exact List.forall_mem_nil _
  | cons item items ih =>
    obtain ⟨hfirst, hbehind⟩ := List.forall_mem_cons.1 hfits
    rw [List.mapM_cons] at haccepted
    obtain ⟨a, hread, haccepted⟩ := bind_eq_ok.1 haccepted
    obtain ⟨others, hreads, haccepted⟩ := bind_eq_ok.1 haccepted
    cases haccepted
    exact List.forall_mem_cons.2 ⟨h room (held item) a hfirst hread, ih hbehind hreads⟩

theorem yields_list (h : Yields read P) :
    Yields (list read) fun room values => ∃ inner, room = inner + 1 ∧ ∀ a ∈ values, P inner a := by
  intro room source values hwithin haccepted
  unfold list at haccepted
  split at haccepted
  · cases haccepted
  · obtain ⟨rfl, hinRange⟩ := hwithin
    cases hinRange with
    | array hinner =>
      obtain ⟨found, hread, haccepted⟩ := bind_eq_ok.1 haccepted
      obtain ⟨_, -, haccepted⟩ := bind_eq_ok.1 haccepted
      cases haccepted
      exact ⟨_, rfl, forall_of_listItems h hinner hread⟩
  · cases hwithin with
    | arr hinner => exact ⟨_, rfl, forall_of_mapM h hinner haccepted⟩
  · cases haccepted

end Values

/-! ## Records -/

section Records

variable {α δ : Type} {form : Form δ α} {I : Nat → δ → Prop} {room : Nat} {draft last : δ} {a : α}

/-- Within some room, a draft that takes in a member keeps the invariant. -/
def Keeps {δ : Type} (take : δ → Source → Result δ) (I : Nat → δ → Prop) : Prop :=
  ∀ room draft source next, I room draft → Within room source → take draft source = .ok next → I room next

/-- A member that may come once keeps an invariant that what is read from it fulfils. -/
theorem keeps_once {β : Type} {read : Source → Result β} {P : Nat → β → Prop} {take : δ → Source → Result δ}
    {name : String} (slot : δ → Option β) (put : δ → Option β → δ) (h : Yields read P)
    (hstep : ∀ draft source,
      take draft source = once name (slot draft) (read source) >>= fun found => .ok (put draft found))
    (hkeep : ∀ room draft b, I room draft → P room b → I room (put draft (some b))) : Keeps take I := by
  intro room draft source next hinv hwithin htaken
  rw [hstep] at htaken
  obtain ⟨found, hfilled, hsame⟩ := bind_eq_ok.1 htaken
  cases hsame
  unfold once at hfilled
  split at hfilled
  · cases hfilled
  · obtain ⟨b, hread, rfl⟩ := map_eq_ok.1 hfilled
    exact hkeep room draft b hinv (h room source b hwithin hread)

/-- A member of some name is taken in in one way, and all others in another way. -/
theorem keeps_ite {name label : String} {take others : δ → Source → Result δ} (h : Keeps take I)
    (hbehind : Keeps others I) :
    Keeps (fun draft source => if name = label then take draft source else others draft source) I := by
  intro room draft source next hinv hwithin htaken
  dsimp only at htaken
  split at htaken
  · exact h room draft source next hinv hwithin htaken
  · exact hbehind room draft source next hinv hwithin htaken

/-- Members that are left out. -/
theorem keeps_draft : Keeps (fun draft _ => .ok draft) I := by
  intro room draft source next hinv _ htaken
  cases htaken
  exact hinv

/-- Members that are passed over. -/
theorem keeps_ignore : Keeps (fun draft source => source.ignore >>= fun _ => .ok draft) I := by
  intro room draft source next hinv _ htaken
  obtain ⟨_, -, hsame⟩ := bind_eq_ok.1 htaken
  cases hsame
  exact hinv

/-- Members that are put aside. -/
theorem keeps_aside {name : String} (put : δ → String × Json → δ)
    (hkeep : ∀ room draft entry, I room draft → entry.2.Fits room → I room (put draft entry)) :
    Keeps (fun draft source => source.raw >>= fun value => .ok (put draft (name, value))) I := by
  intro room draft source next hinv hwithin htaken
  obtain ⟨value, hraw, hsame⟩ := bind_eq_ok.1 htaken
  cases hsame
  exact hkeep room draft (name, value) hinv (yields_raw room source value hwithin hraw)

theorem inv_of_takeMembers (hkeeps : ∀ name, Keeps (form.take · name ·) I) {path : Path}
    {parts : List (Key × Outline × Lexeme)} (hinv : I room draft) (hinRange : ∀ part ∈ parts, part.2.1.InRange)
    (htaken : takeMembers form.take path room draft parts = .ok last) : I room last := by
  induction parts generalizing draft with
  | nil => cases htaken; exact hinv
  | cons part parts ih =>
    obtain ⟨key, outline, after⟩ := part
    obtain ⟨hfirst, hbehind⟩ := List.forall_mem_cons.1 hinRange
    obtain ⟨name, -, htaken⟩ := bind_eq_ok.1 htaken
    obtain ⟨next, htake, htaken⟩ := bind_eq_ok.1 htaken
    exact ih (hkeeps name room draft _ next hinv (within_part _ hfirst) (settled_eq_ok.1 htake)) hbehind htaken

theorem inv_of_takeHeld (hkeeps : ∀ name, Keeps (form.take · name ·) I) {members : List (String × Json)}
    (hinv : I room draft) (hfits : ∀ member ∈ members, member.2.Fits room)
    (htaken : takeHeld form.take draft members = .ok last) : I room last := by
  induction members generalizing draft with
  | nil => cases htaken; exact hinv
  | cons member members ih =>
    obtain ⟨name, value⟩ := member
    obtain ⟨hfirst, hbehind⟩ := List.forall_mem_cons.1 hfits
    obtain ⟨next, htake, htaken⟩ := bind_eq_ok.1 htaken
    exact ih (hkeeps name room draft (held value) next hinv hfirst htake) hbehind htaken

theorem exists_of_heldRecord (hstart : ∀ room, I room form.start) (hkeeps : ∀ name, Keeps (form.take · name ·) I)
    {members : List (String × Json)} (hfits : ∀ member ∈ members, member.2.Fits room)
    (haccepted : heldRecord form members = .ok a) : ∃ last, I room last ∧ form.finish last = .ok a := by
  obtain ⟨last, htaken, hfinish⟩ := bind_eq_ok.1 haccepted
  exact ⟨last, inv_of_takeHeld hkeeps (hstart room) hfits htaken, hfinish⟩

/-- **Records.** What is finished from a draft that keeps an invariant. -/
theorem yields_record {expected : String} {P : Nat → α → Prop} (hstart : ∀ room, I room form.start)
    (hkeeps : ∀ name, Keeps (form.take · name ·) I)
    (hfinish : ∀ room draft a, I room draft → form.finish draft = .ok a → P (room + 1) a) :
    Yields (record expected form) P := by
  intro room source a hwithin haccepted
  unfold record at haccepted
  split at haccepted
  · cases haccepted
  · obtain ⟨rfl, hinRange⟩ := hwithin
    cases hinRange with
    | object hinner =>
      obtain ⟨last, htaken, haccepted⟩ := bind_eq_ok.1 haccepted
      obtain ⟨_, -, haccepted⟩ := bind_eq_ok.1 haccepted
      exact hfinish _ last a (inv_of_takeMembers hkeeps (hstart _) hinner htaken) (settled_eq_ok.1 haccepted)
  · cases hwithin with
    | obj hinner =>
      obtain ⟨last, hinv, hfinished⟩ := exists_of_heldRecord hstart hkeeps hinner haccepted
      exact hfinish _ last a hinv hfinished
  · cases haccepted

theorem inv_of_takeItems {path : Path} {index : Nat} {ending : Ending} {columns : List (δ → Source → Result δ)}
    (hkeeps : ∀ take ∈ columns, Keeps take I) {items : List Outline} (hinv : I room draft)
    (hinRange : ∀ item ∈ items, item.InRange)
    (htaken : takeItems path room index ending draft columns items = .ok last) : I room last := by
  induction columns generalizing index draft items with
  | nil =>
    obtain ⟨_, -, htaken⟩ := bind_eq_ok.1 htaken
    cases htaken
    exact hinv
  | cons take columns ih =>
    obtain ⟨hkeep, hbehind⟩ := List.forall_mem_cons.1 hkeeps
    cases items with
    | nil =>
      obtain ⟨_, -, htaken⟩ := bind_eq_ok.1 htaken
      cases htaken
      exact hinv
    | cons item items =>
      obtain ⟨hfirst, hothers⟩ := List.forall_mem_cons.1 hinRange
      obtain ⟨next, htake, htaken⟩ := bind_eq_ok.1 htaken
      exact ih hbehind (hkeep room draft _ next hinv (within_part _ hfirst) htake) hothers htaken

theorem inv_of_takeHeldItems {columns : List (δ → Source → Result δ)} (hkeeps : ∀ take ∈ columns, Keeps take I)
    {items : List Json} (hinv : I room draft) (hfits : ∀ item ∈ items, item.Fits room)
    (htaken : takeHeldItems draft columns items = .ok last) : I room last := by
  induction columns generalizing draft items with
  | nil => cases htaken; exact hinv
  | cons take columns ih =>
    obtain ⟨hkeep, hbehind⟩ := List.forall_mem_cons.1 hkeeps
    cases items with
    | nil => cases htaken; exact hinv
    | cons item items =>
      obtain ⟨hfirst, hothers⟩ := List.forall_mem_cons.1 hfits
      obtain ⟨next, htake, htaken⟩ := bind_eq_ok.1 htaken
      exact ih hbehind (hkeep room draft (held item) next hinv hfirst htake) hothers htaken

theorem yields_recordOrRow {expected : String} {columns : Columns δ α} {P : Nat → α → Prop}
    (hstart : ∀ room, I room form.start) (hkeeps : ∀ name, Keeps (form.take · name ·) I)
    (hfinish : ∀ room draft a, I room draft → form.finish draft = .ok a → P (room + 1) a)
    (hkeepsItems : ∀ take ∈ columns.take, Keeps take I)
    (hfinishItems : ∀ room draft a, I room draft → columns.finish draft = .ok a → P (room + 1) a) :
    Yields (recordOrRow expected form columns) P := by
  intro room source a hwithin haccepted
  unfold recordOrRow at haccepted
  split at haccepted
  · cases haccepted
  · obtain ⟨rfl, hinRange⟩ := hwithin
    cases hinRange with
    | array hinner =>
      obtain ⟨last, htaken, haccepted⟩ := bind_eq_ok.1 haccepted
      exact hfinishItems _ last a (inv_of_takeItems hkeepsItems (hstart _) hinner htaken) (settled_eq_ok.1 haccepted)
  · cases hwithin with
    | arr hinner =>
      obtain ⟨last, htaken, haccepted⟩ := bind_eq_ok.1 haccepted
      obtain ⟨found, hfinished, haccepted⟩ := bind_eq_ok.1 haccepted
      dsimp only at haccepted
      split at haccepted
      · cases haccepted
        exact hfinishItems _ last a (inv_of_takeHeldItems hkeepsItems (hstart _) hinner htaken) hfinished
      · cases haccepted
  · exact yields_record hstart hkeeps hfinish room source a hwithin haccepted

/-- What stands behind the kind of a record are members of it. -/
theorem subset_of_splitKind {κ : Type} {known : List (String × κ)} {kind : Option κ} {found : κ}
    {members others : List (String × Json)} (h : splitKind known kind members = .ok (found, others)) :
    ∀ member ∈ others, member ∈ members := by
  induction members generalizing kind others with
  | nil =>
    obtain ⟨_, -, hsame⟩ := bind_eq_ok.1 h
    cases hsame
    exact List.forall_mem_nil _
  | cons member members ih =>
    obtain ⟨name, value⟩ := member
    rw [splitKind] at h
    split at h
    · obtain ⟨_, -, h⟩ := bind_eq_ok.1 h
      exact fun member hmem => List.mem_cons_of_mem _ (ih h member hmem)
    · obtain ⟨⟨_, rest⟩, hsplit, hsame⟩ := bind_eq_ok.1 h
      cases hsame
      intro member hmem
      rcases List.mem_cons.1 hmem with rfl | hmem
      · exact List.mem_cons_self
      · exact List.mem_cons_of_mem _ (ih hsplit member hmem)

/-- A record of several kinds is read from some of its members. -/
theorem exists_of_tagged {κ : Type} {known : List (String × κ)} {read : κ → List (String × Json) → Result α}
    {members : List (String × Json)} (haccepted : tagged known read members = .ok a) :
    ∃ kind others, (∀ member ∈ others, member ∈ members) ∧ read kind others = .ok a := by
  obtain ⟨⟨kind, others⟩, hsplit, hread⟩ := bind_eq_ok.1 haccepted
  exact ⟨kind, others, subset_of_splitKind hsplit, hread⟩

end Records

end GraphSchema.Reading.Source
