import SecondBrain.Framework.SchemaComments
import SecondBrain.Library.Lists

set_option autoImplicit false

/-! Composing a base schema with overlays. -/

namespace SecondBrain

open SecondBrain.Json (Value)

namespace Schema

/-- A preset: its identifier, name and description, and the name, description and folder of its types. -/
structure Preset where
  id : Text
  name : Text
  description : Text
  types : List (Text × Text × Text)

def presets : List Preset :=
  [⟨"lyt".toList, "Linking Your Thinking".toList,
      "Ideaverse-style maps, sources, dots, efforts, records, and daily notes.".toList,
      [("meeting".toList, "A time-based meeting record.".toList, "Calendar/Records/Meetings".toList),
        ("capture".toList, "An agent or inbox capture record.".toList, "Calendar/Records/Captures".toList),
        ("person".toList, "A person or contact note.".toList, "Atlas/Dots/People".toList),
        ("project".toList, "An active effort or project.".toList, "Efforts/Projects/Active".toList),
        ("map".toList, "A map of content or collection hub.".toList, "Atlas/Maps".toList)]⟩,
    ⟨"para".toList, "PARA".toList, "Projects, Areas, Resources, and Archives.".toList,
      [("project".toList, "A finite outcome with active work.".toList, "Projects".toList),
        ("area".toList, "A long-running responsibility or standard.".toList, "Areas".toList),
        ("resource".toList, "Reference material grouped by topic.".toList, "Resources".toList),
        ("archive".toList, "Inactive material retained for reference.".toList, "Archives".toList)]⟩,
    ⟨"zettel".toList, "Zettelkasten".toList, "Fleeting, literature, and permanent notes.".toList,
      [("fleeting_note".toList, "A quick temporary thought or capture.".toList, "Fleeting".toList),
        ("literature_note".toList, "A source-grounded note from reading or research.".toList, "Literature".toList),
        ("permanent_note".toList, "An atomic durable knowledge note.".toList, "Permanent".toList)]⟩]

def Preset.value (preset : Preset) : Value :=
  .object (SortedMap.insertAll [] [("id".toList, .string preset.id), ("name".toList, .string preset.name),
    ("description".toList, .string preset.description),
    ("types".toList, .array (preset.types.map fun (name, description, folder) =>
      .object (SortedMap.insertAll [] [("name".toList, .string name), ("description".toList, .string description),
        ("defaultFolder".toList, .string folder)])))])

def preset (id : Text) : Option Value := (presets.find? fun preset => preset.id = id).map Preset.value

/-- One overlay's type; `types` are those defined so far. -/
def composeType (overrides : Bool) (types : Object) (entry : Text × Value) : Except Text Object :=
  if (types.lookup entry.1).isSome && !overrides then
    .error ("framework type already exists: ".toList ++ entry.1)
  else .ok (SortedMap.insert entry.1 entry.2 types)

def kind (schema : Value) : Option Text := (schema.get "schemaKind".toList).bind Value.asStr

def inboxFolder (schema : Value) : Option Value := (schema.get "inbox".toList).bind (Value.get "folder".toList)

def typesOf (schema : Value) : Except Text Object :=
  match schema.get "types".toList with
  | some (.object types) => .ok types
  | _ => .error "types must be an object".toList

def composeOverlay (inbox : Option Value) (types : Object) (overlay : Value) : Except Text Object := do
  if kind overlay ≠ some "overlay".toList then throw "overlay schema must have schema_kind: overlay".toList
  if (inboxFolder overlay).any fun folder => !inbox.any folder.eq then
    throw "overlay cannot change inbox.folder".toList
  let added ← typesOf overlay
  added.foldlM (composeType (isTrue (overlay.get "override".toList))) types

def composeSchema (base : Value) (overlays : List Value) : Except Text Value :=
  match base with
  | .object entries => do
    if kind base ≠ some "base".toList then throw "base schema must have schema_kind: base".toList
    let framework := ((entries.lookup "framework".toList).bind Value.asStr).getD "custom".toList
    let entries := SortedMap.insert "framework".toList (.string framework) entries
    let entries := match preset framework with
      | some preset => SortedMap.insert "preset".toList preset entries
      | none => entries
    let inbox := inboxFolder (.object entries)
    let types ← typesOf (.object entries)
    let types ← overlays.foldlM (composeOverlay inbox) types
    .ok (.object (SortedMap.insert "types".toList (.object types) entries))
  | _ => .error "base schema must be an object".toList

open SortedMap (Sorted)

/-- Nothing, or a string. -/
def Textual (entry : Option Value) : Prop := ∀ value, entry = some value → ∃ text, value = .string text

/-- What copying strings does to the object they are copied to. -/
theorem copyStrings_spec {source target result : Object} {keys : List Text} {place : Text}
    (ran : copyStrings source keys place target = .ok result) :
    (Sorted target → Sorted result) ∧ (∀ key, key ∉ keys → result.lookup key = target.lookup key) ∧
      ∀ key, Textual (target.lookup key) → Textual (result.lookup key) := by
  rw [copyStrings] at ran
  induction keys generalizing target with
  | nil =>
    cases ran
    exact ⟨id, fun _ _ => rfl, fun _ text => text⟩
  | cons key keys ih =>
    rw [List.foldlM_cons] at ran
    split at ran
    · obtain ⟨sorted, other, text⟩ := ih ran
      exact ⟨sorted, fun k out => other k fun inside => out (List.mem_cons_of_mem _ inside), text⟩
    · next content found =>
      obtain ⟨sorted, other, text⟩ := ih ran
      refine ⟨fun before => sorted (before.insert _ _), fun k out => ?_, fun k before => text k fun value same => ?_⟩
      · rw [List.mem_cons, not_or] at out
        rw [other k out.2, SortedMap.lookup_insert_ne _ out.1]
      · by_cases here : k = key
        · rw [here, SortedMap.lookup_insert_self] at same
          exact ⟨content, (Option.some.inj same).symm⟩
        · rw [SortedMap.lookup_insert_ne _ here] at same
          exact before value same
    · cases ran

/-- What the composer relies on in a parsed schema. -/
structure Parsed (schema : Value) where
  entries : Object
  types : Object
  shape : schema = .object entries
  sorted : Sorted entries
  sorted_types : Sorted types
  has_types : entries.lookup "types".toList = some (.object types)
  no_preset : entries.lookup "preset".toList = none
  folder : Textual (inboxFolder schema)

theorem foldTypes_sorted {rawTypes sofar types : Object} (sorted : Sorted sofar)
    (ran : rawTypes.foldlM (fun types entry => do
      let definition ← parseType entry.1 entry.2
      .ok (SortedMap.insert entry.1 definition types)) sofar = .ok types) : Sorted types := by
  induction rawTypes generalizing sofar with
  | nil =>
    cases ran
    exact sorted
  | cons entry rest ih =>
    rw [List.foldlM_cons] at ran
    cases parsed : parseType entry.1 entry.2 with
    | error message =>
      rw [parsed] at ran
      cases ran
    | ok definition =>
      rw [parsed] at ran
      exact ih (sorted.insert _ _) ran

theorem parseTypes_sorted {raw types : Object} (ran : parseTypes raw = .ok types) : Sorted types := by
  rw [parseTypes] at ran
  split at ran
  · exact foldTypes_sorted .nil ran
  · cases ran

/-- The last step of a check: the types are put in. -/
theorem parsed_of_types {result types : Object} (sorted : Sorted result) (typed : Sorted types)
    (preset : result.lookup "preset".toList = none)
    (folder : Textual ((result.lookup "inbox".toList).bind (Value.get "folder".toList))) :
    Nonempty (Parsed (.object (SortedMap.insert "types".toList (.object types) result))) := by
  refine ⟨⟨_, types, rfl, sorted.insert _ _, typed, SortedMap.lookup_insert_self _ _ _, ?_, ?_⟩⟩
  · rw [SortedMap.lookup_insert_ne _ (by decide), preset]
  · rw [inboxFolder, Value.get, SortedMap.lookup_insert_ne _ (by decide)]
    exact folder

theorem parsed_of_validateSchema {raw : Object} {schema : Value} (ran : validateSchema raw = .ok schema) :
    Nonempty (Parsed schema) := by
  simp only [validateSchema] at ran
  split at ran
  · cases ran
  split at ran
  · cases ran
  split at ran
  · cases ran
  obtain ⟨result, copied, ran⟩ := except_bind_eq_ok.mp ran
  obtain ⟨sorted, other, -⟩ := copyStrings_spec copied
  have sorted := sorted (Sorted.insertAll .nil _)
  have preset : result.lookup "preset".toList = none := other _ (by decide)
  split at ran
  · next none' =>
    obtain ⟨_, ⟨⟩, ran⟩ := except_bind_eq_ok.mp ran
    obtain ⟨types, typed, ran⟩ := except_bind_eq_ok.mp ran
    cases ran
    refine parsed_of_types sorted (parseTypes_sorted typed) preset ?_
    rw [other _ (by decide)]
    exact fun _ never => by cases never
  · obtain ⟨inbox, -, ran⟩ := except_bind_eq_ok.mp ran
    obtain ⟨normalized, folder, ran⟩ := except_bind_eq_ok.mp ran
    obtain ⟨_, ⟨⟩, ran⟩ := except_bind_eq_ok.mp ran
    obtain ⟨types, typed, ran⟩ := except_bind_eq_ok.mp ran
    cases ran
    obtain ⟨-, -, text⟩ := copyStrings_spec folder
    refine parsed_of_types (sorted.insert _ _) (parseTypes_sorted typed) ?_ ?_
    · rw [SortedMap.lookup_insert_ne _ (by decide), preset]
    · rw [SortedMap.lookup_insert_self]
      exact text _ fun _ never => by cases never

theorem parsed_of_parseSchema {codecs : Codecs} {source : Text} {schema : Value}
    (ran : parseSchema codecs source = .ok schema) : Nonempty (Parsed schema) := by
  rw [parseSchema] at ran
  split at ran
  · cases ran
  · exact parsed_of_validateSchema ran

/-- The definition that a schema has for a type. -/
def definition (name : Text) (schema : Value) : Option Value := (schema.get "types".toList).bind (Value.get name)

def overrides (schema : Value) : Bool := isTrue (schema.get "override".toList)

theorem Parsed.definition {schema : Value} (parsed : Parsed schema) (name : Text) :
    Schema.definition name schema = parsed.types.lookup name := by
  obtain ⟨entries, types, rfl, -, -, has, -⟩ := parsed
  rw [Schema.definition, Value.get, has]
  rfl

/-- What an overlay needs when `types` are defined already. -/
structure Fits (inbox : Option Value) (types : Object) (overlay : Value) : Prop where
  kind : kind overlay = some "overlay".toList
  folder : ∀ folder, inboxFolder overlay = some folder → inbox = some folder
  types : ∀ name, (definition name overlay).isSome → (types.lookup name).isSome → overrides overlay = true

/-- The keys of an overlay differ, so that its own types do not meet. -/
theorem composeTypes_eq_ok {flag : Bool} {types added after : Object} (sorted : Sorted added) :
    added.foldlM (composeType flag) types = .ok after ↔
      (∀ name, (added.lookup name).isSome → (types.lookup name).isSome → flag = true) ∧
        after = SortedMap.insertAll types added := by
  induction added generalizing types with
  | nil => exact ⟨fun ran => ⟨nofun, (Except.ok.inj ran).symm⟩, fun ran => congrArg _ ran.2.symm⟩
  | cons entry added ih =>
    obtain ⟨least, sorted'⟩ := List.pairwise_cons.mp sorted
    rw [List.foldlM_cons, composeType]
    split
    · next blocked =>
      rw [Bool.and_eq_true, Bool.not_eq_true'] at blocked
      refine iff_of_false nofun fun ⟨allowed, _⟩ => ?_
      rw [allowed entry.1 (by simp) blocked.1] at blocked
      exact absurd blocked.2 (by decide)
    · next allowed =>
      rw [show (Except.ok (SortedMap.insert entry.1 entry.2 types) >>= fun types =>
        added.foldlM (composeType flag) types) = added.foldlM (composeType flag)
          (SortedMap.insert entry.1 entry.2 types) from rfl, ih sorted']
      refine and_congr ?_ Iff.rfl
      have other {name : Text} (there : (added.lookup name).isSome) : name ≠ entry.1 := by
        rintro rfl
        rw [SortedMap.Sorted.lookup_above sorted] at there
        cases there
      constructor
      · intro rest name there before
        by_cases same : name = entry.1
        · rw [same] at before
          simpa [before] using allowed
        · rw [List.lookup_cons, beq_false_of_ne same] at there
          exact rest name there (by rwa [SortedMap.lookup_insert_ne _ same])
      · intro all name there before
        rw [SortedMap.lookup_insert_ne _ (other there)] at before
        refine all name ?_ before
        rw [List.lookup_cons, beq_false_of_ne (other there)]
        exact there

theorem Parsed.typesOf {schema : Value} (parsed : Parsed schema) : Schema.typesOf schema = .ok parsed.types := by
  obtain ⟨entries, types, rfl, -, -, has, -⟩ := parsed
  rw [Schema.typesOf, Value.get, has]

/-- The inbox folder of a parsed overlay is compared as a string. -/
theorem Parsed.changes_iff {overlay : Value} (parsed : Parsed overlay) {inbox : Option Value} :
    (inboxFolder overlay).any (fun folder => !inbox.any folder.eq) = true ↔
      ¬ ∀ folder, inboxFolder overlay = some folder → inbox = some folder := by
  cases found : inboxFolder overlay with
  | none => simp
  | some folder =>
    obtain ⟨text, rfl⟩ := parsed.folder folder found
    cases inbox with
    | none => simp
    | some other => simp [← Value.eq_string]

theorem Parsed.composeOverlay_eq_ok {overlay : Value} (parsed : Parsed overlay) {inbox : Option Value}
    {types after : Object} : composeOverlay inbox types overlay = .ok after ↔
      Fits inbox types overlay ∧ after = SortedMap.insertAll types parsed.types := by
  simp only [composeOverlay]
  split
  · next other => exact iff_of_false nofun fun fits => other fits.1.kind
  next kind =>
  rw [not_not] at kind
  split
  · next changes => exact iff_of_false nofun fun fits => parsed.changes_iff.mp changes fits.1.folder
  next folder =>
  rw [parsed.changes_iff, not_not] at folder
  rw [parsed.typesOf]
  refine (composeTypes_eq_ok parsed.sorted_types).trans (and_congr ⟨fun allowed => ?_, fun fits => ?_⟩ Iff.rfl)
  · exact ⟨kind, folder, fun name => parsed.definition name ▸ allowed name⟩
  · exact fun name => parsed.definition name ▸ fits.types name

/-- The types after an overlay. -/
theorem Parsed.lookup_insertAll {overlay : Value} (parsed : Parsed overlay) (types : Object) (name : Text) :
    (SortedMap.insertAll types parsed.types).lookup name = (Schema.definition name overlay).or (types.lookup name) := by
  rw [parsed.sorted_types.lookup_insertAll, parsed.definition]

/-- Every overlay fits what those before it leave. -/
def Composable (inbox : Option Value) (types : Object) (overlays : List Value) : Prop :=
  ∀ before overlay after, overlays = before ++ overlay :: after →
    kind overlay = some "overlay".toList ∧
    (∀ folder, inboxFolder overlay = some folder → inbox = some folder) ∧
    ∀ name, (definition name overlay).isSome →
      (types.lookup name).isSome ∨ (∃ earlier ∈ before, (definition name earlier).isSome) → overrides overlay = true

theorem composable_cons {inbox : Option Value} {types : Object} {overlay : Value} {overlays : List Value}
    (parsed : Parsed overlay) : Composable inbox types (overlay :: overlays) ↔
      Fits inbox types overlay ∧ Composable inbox (SortedMap.insertAll types parsed.types) overlays := by
  constructor
  · intro composable
    obtain ⟨kind, folder, allowed⟩ := composable [] overlay overlays rfl
    refine ⟨⟨kind, folder, fun name there before => allowed name there (.inl before)⟩, ?_⟩
    rintro before other after rfl
    obtain ⟨kind, folder, allowed⟩ := composable (overlay :: before) other after rfl
    refine ⟨kind, folder, fun name there defined => allowed name there ?_⟩
    rw [parsed.lookup_insertAll, Option.isSome_or, Bool.or_eq_true] at defined
    rcases defined with (here | old) | ⟨earlier, inside, here⟩
    · exact .inr ⟨overlay, List.mem_cons_self, here⟩
    · exact .inl old
    · exact .inr ⟨earlier, List.mem_cons_of_mem _ inside, here⟩
  · rintro ⟨fits, composable⟩ before other after split
    cases before with
    | nil =>
      obtain ⟨rfl, rfl⟩ := List.cons.inj split
      exact ⟨fits.kind, fits.folder, fun name there defined => fits.types name there (by simpa using defined)⟩
    | cons first before =>
      rw [List.cons_append] at split
      obtain ⟨rfl, rfl⟩ := List.cons.inj split
      obtain ⟨kind, folder, allowed⟩ := composable before other after rfl
      refine ⟨kind, folder, fun name there defined => allowed name there ?_⟩
      rw [parsed.lookup_insertAll, Option.isSome_or, Bool.or_eq_true]
      rcases defined with old | ⟨earlier, inside, here⟩
      · exact .inl (.inr old)
      · rcases List.mem_cons.mp inside with rfl | inside
        · exact .inl (.inl here)
        · exact .inr ⟨earlier, inside, here⟩

/-- A run over the overlays, from the step of one. -/
theorem composeOverlays (inbox : Option Value) {types : Object} {overlays : List Value} (sorted : Sorted types)
    (parsed : ∀ overlay ∈ overlays, Nonempty (Parsed overlay)) :
    ((∃ after, overlays.foldlM (composeOverlay inbox) types = .ok after) ↔ Composable inbox types overlays) ∧
      ∀ after, overlays.foldlM (composeOverlay inbox) types = .ok after → Sorted after ∧
        ∀ name, after.lookup name = (overlays.reverse.findSome? (definition name)).or (types.lookup name) := by
  induction overlays generalizing types with
  | nil =>
    refine ⟨iff_of_true ⟨types, rfl⟩ (by simp [Composable]), ?_⟩
    rintro after ⟨⟩
    exact ⟨sorted, fun _ => rfl⟩
  | cons overlay overlays ih =>
    obtain ⟨first⟩ := parsed overlay List.mem_cons_self
    obtain ⟨iff, run⟩ := ih (sorted.insertAll first.types) fun other inside => parsed other (List.mem_cons_of_mem _ inside)
    rw [List.foldlM_cons, composable_cons first, ← iff]
    constructor
    · simp only [except_bind_eq_ok, first.composeOverlay_eq_ok]
      constructor
      · rintro ⟨after, _, ⟨fits, rfl⟩, ran⟩
        exact ⟨fits, after, ran⟩
      · rintro ⟨fits, after, ran⟩
        exact ⟨after, _, ⟨fits, rfl⟩, ran⟩
    · intro after ran
      simp only [except_bind_eq_ok, first.composeOverlay_eq_ok] at ran
      obtain ⟨_, ⟨-, rfl⟩, ran⟩ := ran
      obtain ⟨sorted, lookup⟩ := run after ran
      refine ⟨sorted, fun name => ?_⟩
      rw [lookup, first.lookup_insertAll, List.reverse_cons, List.findSome?_append, List.findSome?_singleton,
        Option.or_assoc]

def framework (schema : Value) : Text :=
  ((schema.get "framework".toList).bind Value.asStr).getD "custom".toList

/-- The entries of a base before its types are put in. -/
def prepared (base : Value) (entries : Object) : Object :=
  match preset (framework base) with
  | some preset => SortedMap.insert "preset".toList preset
      (SortedMap.insert "framework".toList (.string (framework base)) entries)
  | none => SortedMap.insert "framework".toList (.string (framework base)) entries

theorem lookup_prepared (base : Value) (entries : Object) {key : Text}
    (other : key ∉ ["framework".toList, "preset".toList]) : (prepared base entries).lookup key = entries.lookup key := by
  simp only [List.mem_cons, List.not_mem_nil, or_false, not_or] at other
  rw [prepared]
  split
  · rw [SortedMap.lookup_insert_ne _ other.2, SortedMap.lookup_insert_ne _ other.1]
  · rw [SortedMap.lookup_insert_ne _ other.1]

theorem lookup_prepared_framework (base : Value) (entries : Object) :
    (prepared base entries).lookup "framework".toList = some (.string (framework base)) := by
  rw [prepared]
  split
  · rw [SortedMap.lookup_insert_ne _ (by decide), SortedMap.lookup_insert_self]
  · rw [SortedMap.lookup_insert_self]

theorem Parsed.lookup_prepared_preset {base : Value} (parsed : Parsed base) :
    (prepared base parsed.entries).lookup "preset".toList = preset (framework base) := by
  rw [prepared]
  split
  · next found => rw [SortedMap.lookup_insert_self, found]
  · next none' => rw [SortedMap.lookup_insert_ne _ (by decide), parsed.no_preset, none']

theorem Parsed.composeSchema {base : Value} (parsed : Parsed base) (overlays : List Value) :
    Schema.composeSchema base overlays =
      if kind base ≠ some "base".toList then .error "base schema must have schema_kind: base".toList
      else (overlays.foldlM (composeOverlay (inboxFolder base)) parsed.types).map fun types =>
        .object (SortedMap.insert "types".toList (.object types) (prepared base parsed.entries)) := by
  obtain ⟨entries, types, rfl, -, -, has, -⟩ := parsed
  have folder : inboxFolder (.object (prepared (.object entries) entries)) = inboxFolder (.object entries) := by
    rw [inboxFolder, inboxFolder, Value.get, Value.get, lookup_prepared _ _ (by decide)]
  have typed : Schema.typesOf (.object (prepared (.object entries) entries)) = .ok types := by
    rw [Schema.typesOf, Value.get, lookup_prepared _ _ (by decide), has]
  have unfolded : Schema.composeSchema (.object entries) overlays =
      if kind (.object entries) ≠ some "base".toList then .error "base schema must have schema_kind: base".toList
      else Schema.typesOf (.object (prepared (.object entries) entries)) >>= fun types =>
        overlays.foldlM (composeOverlay (inboxFolder (.object (prepared (.object entries) entries)))) types >>= fun types =>
          .ok (.object (SortedMap.insert "types".toList (.object types) (prepared (.object entries) entries))) := rfl
  rw [unfolded, typed, folder]
  rfl

/-- Overlays that define different types. -/
def Disjoint (first second : Value) : Prop :=
  ∀ name, ¬ ((definition name first).isSome ∧ (definition name second).isSome)

theorem Disjoint.symm {first second : Value} (disjoint : Disjoint first second) : Disjoint second first :=
  fun name both => disjoint name both.symm

section

variable {inbox : Option Value} {types after : Object} {first second : Value} {rest : List Value}

theorem Fits.of_insertAll {other : Value} (parsed : Parsed other)
    (fits : Fits inbox (SortedMap.insertAll types parsed.types) first) : Fits inbox types first := by
  refine ⟨fits.kind, fits.folder, fun name there before => fits.types name there ?_⟩
  rw [parsed.lookup_insertAll, Option.isSome_or, before, Bool.or_true]

theorem Fits.insertAll (fits : Fits inbox types first) (parsed : Parsed second) (disjoint : Disjoint first second) :
    Fits inbox (SortedMap.insertAll types parsed.types) first := by
  refine ⟨fits.kind, fits.folder, fun name there before => fits.types name there ?_⟩
  rw [parsed.lookup_insertAll, Option.isSome_or, Bool.or_eq_true] at before
  exact before.resolve_left fun here => disjoint name ⟨there, here⟩

theorem insertAll_comm (sorted : Sorted types) (one : Parsed first) (two : Parsed second)
    (disjoint : Disjoint first second) :
    SortedMap.insertAll (SortedMap.insertAll types one.types) two.types =
      SortedMap.insertAll (SortedMap.insertAll types two.types) one.types := by
  refine ((sorted.insertAll _).insertAll _).ext ((sorted.insertAll _).insertAll _) fun name => ?_
  rw [two.lookup_insertAll, one.lookup_insertAll, one.lookup_insertAll, two.lookup_insertAll]
  have apart := disjoint name
  cases here : definition name first with
  | none => rfl
  | some value =>
    cases there : definition name second with
    | none => rfl
    | some other => simp [here, there] at apart

/-- Neighbours may change places. -/
theorem composeOverlays_swap (sorted : Sorted types) (one : Parsed first) (two : Parsed second)
    (disjoint : Disjoint first second) (ran : (first :: second :: rest).foldlM (composeOverlay inbox) types = .ok after) :
    (second :: first :: rest).foldlM (composeOverlay inbox) types = .ok after := by
  simp only [List.foldlM_cons, except_bind_eq_ok, one.composeOverlay_eq_ok, two.composeOverlay_eq_ok] at ran ⊢
  obtain ⟨_, ⟨fits, rfl⟩, _, ⟨fits', rfl⟩, ran⟩ := ran
  rw [insertAll_comm sorted one two disjoint] at ran
  exact ⟨_, ⟨fits'.of_insertAll one, rfl⟩, _, ⟨fits.insertAll two disjoint, rfl⟩, ran⟩

end

/-- Composition succeeds exactly when the documents fit together. A type is then what the last document
that defines it says, nothing else of the base changes but its preset, and neighbours that define
different types may change places. -/
theorem composition {codecs : Codecs} {source : Text} {base : Value} {overlays : List Value}
    (read : parseSchema codecs source = .ok base)
    (overlaid : ∀ overlay ∈ overlays, ∃ source, parseSchema codecs source = .ok overlay) :
    ((∃ result, composeSchema base overlays = .ok result) ↔
      kind base = some "base".toList ∧ (∀ overlay ∈ overlays, kind overlay = some "overlay".toList) ∧
      (∀ overlay ∈ overlays, ∀ folder, inboxFolder overlay = some folder → inboxFolder base = some folder) ∧
      ∀ before overlay after, overlays = before ++ overlay :: after → ∀ name, (definition name overlay).isSome →
        (∃ earlier ∈ base :: before, (definition name earlier).isSome) → overrides overlay = true) ∧
    (∀ result, composeSchema base overlays = .ok result →
      (∃ types, result.get "types".toList = some (.object types)) ∧
      (∀ name, definition name result = (base :: overlays).reverse.findSome? (definition name)) ∧
      result.get "framework".toList = some (.string (framework base)) ∧
      result.get "preset".toList = preset (framework base) ∧
      ∀ key, key ∉ ["types".toList, "framework".toList, "preset".toList] → result.get key = base.get key) ∧
    ∀ before first second after, overlays = before ++ first :: second :: after →
      Disjoint first second →
        (composeSchema base (before ++ second :: first :: after)).toOption = (composeSchema base overlays).toOption := by
  obtain ⟨parsed⟩ := parsed_of_parseSchema read
  have each : ∀ overlay ∈ overlays, Nonempty (Parsed overlay) := by
    intro overlay inside
    obtain ⟨_, read⟩ := overlaid overlay inside
    exact parsed_of_parseSchema read
  obtain ⟨succeeds, run⟩ := composeOverlays (inboxFolder base) parsed.sorted_types each
  refine ⟨?_, ?_, ?_⟩
  · rw [parsed.composeSchema]
    by_cases based : kind base = some "base".toList
    · rw [if_neg (not_not.mpr based), map_succeeds, succeeds]
      constructor
      · intro composable
        refine ⟨based, fun overlay inside => ?_, fun overlay inside => ?_, fun before overlay after split name there => ?_⟩
        · obtain ⟨before, after, split⟩ := List.append_of_mem inside
          exact (composable before overlay after split).1
        · obtain ⟨before, after, split⟩ := List.append_of_mem inside
          exact (composable before overlay after split).2.1
        · rintro ⟨earlier, inside, here⟩
          refine (composable before overlay after split).2.2 name there ?_
          rcases List.mem_cons.mp inside with rfl | inside
          · exact .inl (parsed.definition name ▸ here)
          · exact .inr ⟨earlier, inside, here⟩
      · rintro ⟨-, kinds, folders, allowed⟩ before overlay after split
        have inside : overlay ∈ overlays := by simp [split]
        refine ⟨kinds overlay inside, folders overlay inside, fun name there defined => ?_⟩
        refine allowed before overlay after split name there ?_
        rcases defined with old | ⟨earlier, inside, here⟩
        · exact ⟨base, List.mem_cons_self, (parsed.definition name).symm ▸ old⟩
        · exact ⟨earlier, List.mem_cons_of_mem _ inside, here⟩
    · rw [if_pos based]
      exact iff_of_false nofun fun fits => based fits.1
  · intro result ran
    rw [parsed.composeSchema] at ran
    split at ran
    · cases ran
    cases ended : overlays.foldlM (composeOverlay (inboxFolder base)) parsed.types with
    | error message =>
      rw [ended] at ran
      cases ran
    | ok types =>
      rw [ended] at ran
      cases ran
      obtain ⟨sorted, lookup⟩ := run types ended
      have has : (SortedMap.insert "types".toList (Value.object types) (prepared base parsed.entries)).lookup
          "types".toList = some (.object types) := SortedMap.lookup_insert_self _ _ _
      refine ⟨⟨types, has⟩, fun name => ?_, ?_, ?_, fun key other => ?_⟩
      · rw [definition, Value.get, has]
        rw [List.reverse_cons, List.findSome?_append, List.findSome?_singleton, parsed.definition]
        exact lookup name
      · rw [Value.get, SortedMap.lookup_insert_ne _ (by decide), lookup_prepared_framework]
      · rw [Value.get, SortedMap.lookup_insert_ne _ (by decide), parsed.lookup_prepared_preset]
      · rw [List.mem_cons, not_or] at other
        rw [Value.get, SortedMap.lookup_insert_ne _ other.1, lookup_prepared _ _ other.2]
        conv_rhs => rw [parsed.shape, Value.get]
  · rintro before first second after rfl disjoint
    obtain ⟨one⟩ := each first (by simp)
    obtain ⟨two⟩ := each second (by simp)
    rw [parsed.composeSchema, parsed.composeSchema]
    split
    · rfl
    rw [toOption_map, toOption_map]
    congr 1
    apply toOption_eq
    intro types
    rw [List.foldlM_append, List.foldlM_append, except_bind_eq_ok, except_bind_eq_ok]
    refine exists_congr fun between => and_congr_right fun ran => ?_
    have sorted := ((composeOverlays (inboxFolder base) parsed.sorted_types fun overlay inside =>
      each overlay (List.mem_append_left _ inside)).2 between ran).1
    exact ⟨composeOverlays_swap sorted two one disjoint.symm, composeOverlays_swap sorted one two disjoint⟩

def projectsBase : Value :=
  .object [("framework".toList, .string "para".toList), ("override".toList, .bool false),
    ("schemaKind".toList, .string "base".toList),
    ("types".toList, .object [("project".toList, .object [("folder".toList, .string "Projects".toList)])]),
    ("version".toList, .number (.posInt 1))]

def workOverlay : Value :=
  .object [("override".toList, .bool true), ("schemaKind".toList, .string "overlay".toList),
    ("types".toList, .object [("project".toList, .object [("folder".toList, .string "Work".toList)])]),
    ("version".toList, .number (.posInt 1))]

theorem projectsBase_read : parseSchema versionCodecs
    "version: 1\nschema_kind: base\nframework: para\ntypes:\n  project:\n    folder: Projects".toList =
      .ok projectsBase := by rfl

theorem workOverlay_read : parseSchema versionCodecs
    "version: 1\nschema_kind: overlay\noverride: true\ntypes:\n  project:\n    folder: Work".toList =
      .ok workOverlay := by rfl

/-- An overlay that says so redefines a type of the base. -/
theorem composition_work : ∃ result, composeSchema projectsBase [workOverlay] = .ok result := by
  refine (composition projectsBase_read fun overlay inside => ?_).1.mpr ⟨rfl, ?_, ?_, ?_⟩
  · exact ⟨_, List.mem_singleton.mp inside ▸ workOverlay_read⟩
  · intro overlay inside
    rw [List.mem_singleton.mp inside]
    rfl
  · intro overlay inside folder found
    rw [List.mem_singleton.mp inside] at found
    cases found
  · intro before overlay after split name _ _
    have inside : overlay ∈ [workOverlay] := by simp [split]
    rw [List.mem_singleton.mp inside]
    rfl

end Schema

end SecondBrain
