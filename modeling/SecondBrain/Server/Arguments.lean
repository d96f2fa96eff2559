import SecondBrain.Framework.SchemaDepth
import SecondBrain.Library.JsonSchema
import SecondBrain.Server.Authority

set_option autoImplicit false

/-! The schemas of the tools and the code that reads the arguments agree: what a schema forbids is refused, and
what it does not name is not read. -/

namespace SecondBrain

open SecondBrain.Json (Value)
open JsonSchema (hasType admitsSelf admits properties required Conforms Agree Fits)
open FileSystem (Name)
open Prog (Within Checks)
open RuntimeProg (ofVault guarded)
open ServerProg (call ofRuntime ofSkills)

namespace ToolRegistry

theorem get_prop (kind description : String) (more : List (Text × Value)) (key : Text)
    (typed : key ≠ "type".toList) (described : key ≠ "description".toList) :
    (prop kind description more).get key = more.lookup key := by
  have same : (prop kind description more).get key = (SortedMap.insert "type".toList (.string kind.toList)
    (SortedMap.insert "description".toList (.string description.toList) more)).lookup key := rfl
  rw [same, SortedMap.lookup_insert_ne _ typed, SortedMap.lookup_insert_ne _ described]

theorem get_type (kind description : String) (more : List (Text × Value)) :
    (prop kind description more).get "type".toList = some (.string kind.toList) :=
  SortedMap.lookup_insert_self ..

theorem admitsSelf_prop {kind description : String} {more : List (Text × Value)} {value : Value} :
    admitsSelf (prop kind description more) value = true ↔ hasType kind.toList value = true ∧
      ∀ allowed, more.lookup "enum".toList = some (.array allowed) → allowed.any (Value.eq · value) = true := by
  have enum := get_prop kind description more "enum".toList (by decide) (by decide)
  rw [admitsSelf, get_type, enum, Bool.and_eq_true]
  refine and_congr Iff.rfl ?_
  cases more.lookup "enum".toList with
  | none => simp
  | some value => cases value <;> simp [Value.asArray]

theorem admits_prop {kind description : String} {value : Value} (typed : hasType kind.toList value = true) :
    admits (prop kind description []) value = true := by
  have items := get_prop kind description [] "items".toList (by decide) (by decide)
  rw [admits, items, Bool.and_eq_true]
  exact ⟨admitsSelf_prop.mpr ⟨typed, nofun⟩, rfl⟩

theorem admits_enumProp {values : List String} {description : String} {text : Text}
    (listed : text ∈ values.map String.toList) : admits (enumProp values description) (.string text) = true := by
  have items := get_prop "string" description [("enum".toList, .array (values.map fun value => .string value.toList))]
    "items".toList (by decide) (by decide)
  rw [admits, enumProp, items, Bool.and_eq_true]
  refine ⟨admitsSelf_prop.mpr ⟨rfl, fun allowed same => ?_⟩, rfl⟩
  obtain rfl := Value.array.inj (Option.some.inj same)
  obtain ⟨value, member, rfl⟩ := List.mem_map.mp listed
  exact List.any_eq_true.mpr ⟨_, List.mem_map_of_mem member, Value.eq_string.mpr rfl⟩

theorem admits_intArrayProp {description : String} {items : List Value}
    (whole : items.all (fun item => item.asF64.any Binary64.isWhole) = true) :
    admits (intArrayProp description) (.array items) = true := by
  have told : (intArrayProp description).get "items".toList =
      some (.object [("type".toList, .string "integer".toList)]) := get_prop _ _ _ _ (by decide) (by decide)
  rw [admits, told, Bool.and_eq_true]
  refine ⟨admitsSelf_prop.mpr ⟨rfl, nofun⟩, ?_⟩
  refine List.all_eq_true.mpr fun item member => ?_
  have integer := List.all_eq_true.mp whole item member
  rw [admitsSelf, Bool.and_eq_true]
  exact ⟨integer, rfl⟩

theorem properties_object (names : List String) (entries : List (String × Value)) :
    properties (object names entries) =
      SortedMap.insertAll [] (entries.map fun entry => (entry.1.toList, entry.2)) := by
  unfold properties object
  split
  · rfl
  · have differs : "properties".toList ≠ "required".toList := by decide
    simp only [Value.get, SortedMap.lookup_insert_ne _ differs]
    rfl

theorem required_object (names : List String) (entries : List (String × Value)) :
    required (object names entries) = names.map String.toList := by
  unfold required object
  split
  · rename_i none
    rw [List.isEmpty_iff.mp none]
    rfl
  · simp only [Value.get, SortedMap.lookup_insert_self, Option.bind_some, Value.asArray, Option.getD_some,
      List.filterMap_map]
    exact congrFun List.filterMap_eq_map names

theorem mem_properties_object {names : List String} {entries : List (String × Value)} {key : Text} {property : Value}
    (member : (key, property) ∈ properties (object names entries)) : ∃ name, key = name.toList ∧ (name, property) ∈ entries := by
  rw [properties_object] at member
  rcases Schema.mem_insertAll member with never | listed
  · cases never
  · obtain ⟨entry, inside, same⟩ := List.mem_map.mp listed
    cases same
    exact ⟨entry.1, rfl, inside⟩

theorem keys_properties_object {names : List String} {entries : List (String × Value)} {key : Text} :
    key ∈ (properties (object names entries)).map Prod.fst ↔ key ∈ entries.map fun entry => entry.1.toList := by
  rw [properties_object, SortedMap.keys_insertAll, List.map_map]
  simp

variable {args other : Arguments}

theorem conforms_object {names : List String} {entries : List (String × Value)}
    (present : names.Forall fun name => args.lookup name.toList ≠ none)
    (typed : entries.Forall fun entry => Fits entry.2 (args.lookup entry.1.toList)) :
    Conforms (object names entries) args := by
  refine ⟨fun key member => ?_, fun key property member => ?_⟩
  · rw [required_object] at member
    obtain ⟨name, listed, rfl⟩ := List.mem_map.mp member
    exact List.forall_iff_forall_mem.mp present name listed
  · obtain ⟨name, rfl, listed⟩ := mem_properties_object member
    exact List.forall_iff_forall_mem.mp typed _ listed

end ToolRegistry

section Readers

open ToolRegistry

variable {args : Arguments} {key : Text} {description : String}

theorem stringAllowEmpty_lookup {text : Text} (read : stringAllowEmpty args key = .ok text) :
    args.lookup key = some (.string text) := by
  unfold stringAllowEmpty at read
  split at read
  · rename_i value told
    obtain ⟨member, found, text⟩ := Option.bind_eq_some_iff.mp told
    rw [found, Value.asStr_eq_some.mp text, Except.ok.inj read]
  · cases read

theorem string_lookup {text : Text} (read : string args key = .ok text) : args.lookup key = some (.string text) := by
  unfold string at read
  split at read
  · rename_i value told
    obtain ⟨member, found, text⟩ := Option.bind_eq_some_iff.mp told
    split at read
    · cases read
    · rw [found, Value.asStr_eq_some.mp text, Except.ok.inj read]
  · cases read

theorem string_present {text : Text} (read : string args key = .ok text) : args.lookup key ≠ none :=
  string_lookup read ▸ Option.some_ne_none _

theorem string_fits {text : Text} (read : string args key = .ok text) :
    Fits (stringProp description) (args.lookup key) := by
  rw [string_lookup read]
  rintro _ ⟨⟩
  exact admits_prop rfl

theorem stringAllowEmpty_present {text : Text} (read : stringAllowEmpty args key = .ok text) : args.lookup key ≠ none :=
  stringAllowEmpty_lookup read ▸ Option.some_ne_none _

theorem stringAllowEmpty_fits {text : Text} (read : stringAllowEmpty args key = .ok text) :
    Fits (stringProp description) (args.lookup key) := by
  rw [stringAllowEmpty_lookup read]
  rintro _ ⟨⟩
  exact admits_prop rfl

theorem optionalString_lookup {text : Option Text} (read : optionalString args key = .ok text) :
    args.lookup key = text.map Value.string := by
  unfold optionalString at read
  split at read
  · cases read
    assumption
  · cases read
    assumption
  · cases read

theorem optionalString_fits {text : Option Text} (read : optionalString args key = .ok text) :
    Fits (stringProp description) (args.lookup key) := by
  rw [optionalString_lookup read]
  intro value same
  obtain ⟨text, -, rfl⟩ := Option.map_eq_some_iff.mp same
  exact admits_prop rfl

/-- An optional argument of a few values, when it is checked to be one of them. -/
theorem optionalString_listed {text : Option Text} {values : List String} {fallback : Text}
    (read : optionalString args key = .ok text) (listed : text.getD fallback ∈ values.map String.toList) :
    Fits (enumProp values description) (args.lookup key) := by
  rw [optionalString_lookup read]
  intro value same
  obtain ⟨text, rfl, rfl⟩ := Option.map_eq_some_iff.mp same
  exact admits_enumProp listed

theorem optionalBool_fits {flag : Option Bool} (read : optionalBool args key = .ok flag) :
    Fits (boolProp description) (args.lookup key) := by
  unfold optionalBool at read
  split at read
  · rename_i absent
    exact absent ▸ Fits.none
  · rename_i found
    rw [found]
    rintro _ ⟨⟩
    exact admits_prop rfl
  · cases read

theorem searchFilters_fits {filters : SearchFilters} (read : searchFilters args = .ok filters) :
    Fits (objectProp description) (args.lookup "filters".toList) := by
  unfold searchFilters at read
  cases found : args.lookup "filters".toList with
  | none => exact Fits.none
  | some value =>
    rw [found] at read
    cases value with
    | object members =>
      rintro _ ⟨⟩
      exact admits_prop rfl
    | null | bool | number | string | array => cases read

theorem frontmatterArg_fits {fields : Option Frontmatter} (read : frontmatterArg args key = .ok fields) :
    Fits (objectProp description) (args.lookup key) := by
  unfold frontmatterArg at read
  cases found : args.lookup key with
  | none => exact Fits.none
  | some value =>
    rw [found] at read
    cases value with
    | object members =>
      rintro _ ⟨⟩
      exact admits_prop rfl
    | null | bool | number | string | array => cases read

theorem frontmatterArg_present {fields : Frontmatter} (read : frontmatterArg args key = .ok (some fields)) :
    args.lookup key ≠ none := by
  intro absent
  rw [frontmatterArg, absent] at read
  cases read

theorem frontmatter_fits {fields : Frontmatter} (read : frontmatter (args.lookup key) = .ok fields) :
    Fits (objectProp description) (args.lookup key) := by
  unfold frontmatter at read
  cases found : args.lookup key with
  | none => exact Fits.none
  | some value =>
    rw [found] at read
    cases value with
    | object members =>
      rintro _ ⟨⟩
      exact admits_prop rfl
    | null | bool | number | string | array => cases read

theorem readPriority_fits {value priority : Value} {name : Text} (read : readPriority value name = .ok priority) :
    admits (intProp description) value = true := by
  unfold readPriority at read
  split at read
  · rename_i whole
    exact admits_prop whole
  · cases read

theorem pagesArg_fits {pages : Option Value} (read : Ocr.pagesArg args = .ok pages) :
    Fits (intArrayProp description) (args.lookup "pages".toList) := by
  unfold Ocr.pagesArg at read
  cases found : args.lookup "pages".toList with
  | none => exact Fits.none
  | some value =>
    rw [found] at read
    dsimp only at read
    split at read
    · rename_i whole
      cases value with
      | array items =>
        rintro _ ⟨⟩
        exact admits_intArrayProp whole
      | null | bool | number | string | object => cases whole
    · cases read

theorem forceArg_fits {force : Option Value} (read : Ocr.forceArg args = .ok force) :
    Fits (boolProp description) (args.lookup "force".toList) := by
  unfold Ocr.forceArg at read
  cases found : args.lookup "force".toList with
  | none => exact Fits.none
  | some value =>
    rw [found] at read
    cases value with
    | bool flag =>
      rintro _ ⟨⟩
      exact admits_prop rfl
    | null | number | string | array | object => cases read

theorem materializePreset_listed {id source : Text} (made : Schema.materializePreset id = .ok source) :
    id ∈ ["lyt", "para", "zettel"].map String.toList := by
  unfold Schema.materializePreset at made
  split at made
  · cases made
  · rename_i preset found
    have ids : ∀ preset ∈ Schema.presets, preset.id ∈ ["lyt", "para", "zettel"].map String.toList := by decide +kernel
    have same : preset.id = id := by simpa using List.find?_some found
    exact same ▸ ids preset (List.mem_of_find?_eq_some found)

end Readers

/-- The calls before the arguments are checked: they look at the state, or wait for their turn. -/
inductive Idles : RuntimeOp → Prop where
  | peeks {op : RuntimeOp} (peeks : Peeks op) : Idles op
  | lock : Idles (.lock .frameworkMutation)
  | unlock : Idles (.unlock .frameworkMutation)

def Anything (Op : Type) (Resp : Op → Type) : (op : Op) → Resp op → Prop := fun _ _ => True

section Tools

open ToolRegistry

variable {ε δ α β : Type} {good : Prop}

theorem ofVault_checks {p : VaultProg ε α} (checks : p.Checks Views (Anything _ _) good) :
    (ofVault p).Checks Idles (Anything _ _) good := by
  induction checks with
  | done value holds => exact .done value holds
  | fail error => exact .fail error
  | call here rest ih => exact .call (here.imp_left fun views => .peeks (.vault views)) ih

theorem guarded_checks {p : RuntimeProg ε α} (checks : p.Checks Idles (Anything _ _) good) :
    (guarded .frameworkMutation p).Checks Idles (Anything _ _) good :=
  .call (.inl .lock) fun _ _ => checks.attempt_bind fun _ => .call (.inl .unlock) fun _ _ => .fail _

namespace SchemaFramework

variable (service : SchemaFramework) (fuel : Nat) {name : Text} (args : Arguments)

theorem writeNote_checks :
    (service.writeNote fuel name args).Checks Views (Anything _ _) (Conforms (inputSchemaForTool name) args) := by
  refine .parse fun _ path => ?_
  refine .split ?_ fun _ => .split ?_ fun _ => .split ?_ fun _ => .split ?_ fun _ => .split ?_ fun _ => .split ?_ fun _ => .fail _
  · rintro rfl
    exact .parse fun _ content => .parse fun _ fields => .of_good (conforms_object
      ⟨string_present path, string_present content⟩ ⟨string_fits path, string_fits content, frontmatterArg_fits fields⟩)
  · rintro rfl
    exact .parse fun _ content => .parse fun _ base => .parse fun _ fields => .of_good (conforms_object
      ⟨string_present path, string_present content, string_present base⟩
      ⟨string_fits path, string_fits content, string_fits base, frontmatterArg_fits fields⟩)
  · rintro rfl
    refine .parse fun patch read => ?_
    cases patch with
    | none => exact .fail _
    | some patch =>
      exact .parse fun _ base => .of_good (conforms_object
        ⟨string_present path, frontmatterArg_present read, string_present base⟩
        ⟨string_fits path, frontmatterArg_fits read, string_fits base⟩)
  · rintro rfl
    exact .parse fun _ marker => .parse fun _ content => .parse fun _ base => .of_good (conforms_object
      ⟨string_present path, string_present marker, string_present content, string_present base⟩
      ⟨string_fits path, string_fits marker, string_fits content, string_fits base⟩)
  · rintro rfl
    exact .parse fun _ base => .of_good (conforms_object ⟨string_present path, string_present base⟩
      ⟨string_fits path, string_fits base⟩)
  · rintro rfl
    exact .parse fun _ base => .of_good (conforms_object ⟨string_present path, string_present base⟩
      ⟨string_fits path, string_fits base⟩)

theorem createRecord_checks : (service.createRecord fuel args).Checks Views (Anything _ _)
    (Conforms (inputSchemaForTool "create_record".toList) args) := by
  refine .parse fun _ kind => .parse fun _ title => .parse fun date read => ?_
  refine .after (service.parseDate_views date) fun date => .parse fun _ body => ?_
  refine .after service.compose_views fun schema => ?_
  split
  · exact .fail _
  · rename_i definition found
    exact .after (service.readTemplate_views definition) fun template => .parse fun _ fields => .of_good (conforms_object
      ⟨string_present kind, string_present title⟩
      ⟨string_fits kind, string_fits title, optionalString_fits read, optionalString_fits body, frontmatter_fits fields⟩)

theorem capture_checks (listed : name ∈ ["capture_for_date".toList, "inbox_capture".toList]) :
    (service.capture fuel name args).Checks Idles (Anything _ _) (Conforms (inputSchemaForTool name) args) := by
  refine .parse fun _ content => .parse fun _ client => .parse fun _ source => .parse fun _ kind => ?_
  refine .parse fun _ title => .parse fun date read => ?_
  refine .after ((ofVault_peeks (service.parseDate_views date)).mono fun _ => .peeks) fun date => ?_
  refine .parse fun strategy told => .split (fun _ => .fail _) fun known => .of_good ?_
  rcases List.mem_cons.mp listed with rfl | last
  · exact conforms_object ⟨string_present content, string_present client⟩ ⟨string_fits content, string_fits client,
      optionalString_fits read, optionalString_fits source, optionalString_fits kind, optionalString_fits title⟩
  · obtain rfl := List.mem_singleton.mp last
    exact conforms_object ⟨string_present content, string_present client⟩ ⟨string_fits content, string_fits client,
      optionalString_fits read, optionalString_fits source, optionalString_fits kind, optionalString_fits title,
      optionalString_listed told (not_not.mp known)⟩

theorem daily_checks : (service.daily fuel name args).Checks Views (Anything _ _) (Conforms (inputSchemaForTool name) args) := by
  refine .parse fun date read => .after (service.parseDate_views date) fun date => ?_
  refine .split ?_ fun _ => .split ?_ fun _ => .split ?_ fun _ => .fail _
  · rintro rfl
    exact .of_good (conforms_object ⟨⟩ (optionalString_fits read))
  · rintro rfl
    exact .parse fun _ content => .parse fun _ base => .parse fun _ part => .of_good (conforms_object
      ⟨string_present content, string_present base⟩
      ⟨string_fits content, string_fits base, optionalString_fits read, optionalString_fits part⟩)
  · rintro rfl
    exact .parse fun _ base => .of_good (conforms_object (string_present base)
      ⟨string_fits base, optionalString_fits read⟩)

theorem init_checks : (service.init args fuel).Checks Idles (Anything _ _)
    (Conforms (inputSchemaForTool "framework_init".toList) args) := by
  refine .parse fun framework named => .parse fun source made => .parse fun _ path => .parse fun mode told => ?_
  refine .split (fun _ => .fail _) fun known => .of_good (conforms_object (string_present named)
    ⟨fun value found => ?_, optionalString_fits path, optionalString_listed told (not_not.mp known)⟩)
  obtain rfl := Option.some.inj ((string_lookup named).symm.trans found)
  exact admits_enumProp (materializePreset_listed made)

theorem register_checks : (service.register args fuel).Checks Idles (Anything _ _)
    (Conforms (inputSchemaForTool "framework_register".toList) args) := by
  have looks {α : Type} {p : ToolProg α} (within : p.Within Looks) : (ofVault p).Within Idles :=
    (ofVault_peeks (looks_views within)).mono fun _ => .peeks
  refine .parse fun _ name => .parse fun path told => .after (looks (service.checkPath_looks path)) fun path => ?_
  refine .after (looks (canonicalVaultPathForWrite_looks _ path).mapError) fun canonical => ?_
  refine .after (looks (service.checkPath_looks _)) fun _ => .parse fun priority read => .of_good ?_
  refine conforms_object ⟨string_present name, string_present told⟩ ⟨string_fits name, string_fits told, ?_⟩
  intro value found
  rw [found] at read
  exact readPriority_fits read

theorem unregister_checks : (service.unregister args fuel).Checks Idles (Anything _ _)
    (Conforms (inputSchemaForTool "framework_unregister".toList) args) :=
  .parse fun _ name => .of_good (conforms_object (string_present name) (string_fits name))

theorem dispatch_checks : (service.dispatch fuel name args).Checks Idles (Anything _ _)
    (Conforms (inputSchemaForTool name) args) := by
  refine .split ?_ fun _ => .split ?_ fun _ => .split ?_ fun _ => .split ?_ fun _ => .split ?_ fun _ => ?_
  · rintro rfl
    exact service.init_checks fuel args
  · rintro rfl
    exact service.register_checks fuel args
  · rintro rfl
    exact service.unregister_checks fuel args
  · rintro rfl
    exact .of_good (conforms_object ⟨⟩ ⟨⟩)
  · rintro rfl
    exact .of_good (conforms_object ⟨⟩ ⟨⟩)
  refine .split ?_ fun _ => .split ?_ fun _ => .split ?_ fun _ => .split ?_ fun _ => .split ?_ fun _ => .split ?_ fun _ => .fail _
  · rintro rfl
    exact .of_good (conforms_object ⟨⟩ ⟨⟩)
  · rintro rfl
    exact .of_good (conforms_object ⟨⟩ ⟨⟩)
  · rintro rfl
    exact Checks.bind (.parse fun _ topic => .of_good (conforms_object ⟨⟩ (optionalString_fits topic)))
  · rintro rfl
    exact (ofVault_checks (service.createRecord_checks fuel args)).bind
  · exact fun listed => (service.capture_checks fuel args listed).bind
  · exact fun _ => (ofVault_checks (service.daily_checks fuel args)).bind

theorem frameworkTool_checks : (service.frameworkTool fuel name args).Checks Idles (Anything _ _)
    (Conforms (inputSchemaForTool name) args) := by
  have checks := @dispatch_checks service fuel name args
  exact .split (fun _ => guarded_checks checks.bind) fun _ => checks.bind

theorem writeTool_checks : (service.writeTool fuel name args).Checks Idles (Anything _ _)
    (Conforms (inputSchemaForTool name) args) := (ofVault_checks (service.writeNote_checks fuel args)).bind

end SchemaFramework

/-- The calls of the server before the arguments are checked. -/
inductive Hesitates : ServerOp → Prop where
  | browses {op : ServerOp} (browses : Browses op) : Hesitates op
  | lock : Hesitates (.runtime (.lock .frameworkMutation))
  | unlock : Hesitates (.runtime (.unlock .frameworkMutation))
  | ocr {name : Text} {args : Arguments} (idle : ∀ (queue : OcrQueue) id now, (queue.dispatch id now name args).2 = queue) :
      Hesitates (.ocr name args)

/-- What the queue may answer; of the other answers nothing is said. -/
def ServerOp.May : (op : ServerOp) → op.Resp → Prop
  | .ocr name args, answer => ∃ (queue : OcrQueue) (id now : Text), answer = (queue.dispatch id now name args).1
  | _, _ => True

theorem ofRuntime_checks {p : RuntimeProg ε α} (checks : p.Checks Idles (Anything _ _) good) :
    (ofRuntime p).Checks Hesitates ServerOp.May good := by
  induction checks with
  | done value holds => exact .done value holds
  | fail error => exact .fail error
  | call here rest ih =>
    refine .call (here.imp_left fun idles => ?_) fun answer _ => ih answer trivial
    cases idles with
    | peeks peeks => exact .browses (.runtime peeks)
    | lock => exact .lock
    | unlock => exact .unlock

theorem jobFor_conforms {name kind : Text} {args : Arguments} {input : Value} (made : Ocr.jobFor name args = .ok (kind, input)) :
    Conforms (inputSchemaForTool name) args := by
  unfold Ocr.jobFor at made
  split at made
  · rename_i named
    subst named
    obtain ⟨identifier, given, made⟩ := except_bind_eq_ok.mp made
    obtain ⟨pages, listed, made⟩ := except_bind_eq_ok.mp made
    obtain ⟨force, flag, -⟩ := except_bind_eq_ok.mp made
    exact conforms_object (string_present given) ⟨string_fits given, pagesArg_fits listed, forceArg_fits flag⟩
  · split at made
    · rename_i named
      subst named
      obtain ⟨notebook, given, -⟩ := except_bind_eq_ok.mp made
      exact conforms_object (string_present given) (string_fits given)
    · cases made

theorem ocr_conforms {queue : OcrQueue} {id now name : Text} {args : Arguments} {reply : Value}
    (ran : (queue.dispatch id now name args).1 = .ok reply) : Conforms (inputSchemaForTool name) args := by
  by_cases status : name = "ocr_status".toList
  · subst status
    rw [OcrQueue.dispatch, if_pos rfl] at ran
    cases job : string args "job_id".toList with
    | error error =>
      rw [job] at ran
      cases ran
    | ok id => exact conforms_object (string_present job) (string_fits job)
  · obtain ⟨kind, input, made, -⟩ := OcrQueue.dispatch_makes status ran
    exact jobFor_conforms made

theorem ocr_hesitates (name : Text) (args : Arguments) :
    Hesitates (.ocr name args) ∨ Conforms (inputSchemaForTool name) args := by
  by_cases conforms : Conforms (inputSchemaForTool name) args
  · exact .inr conforms
  · refine .inl (.ocr fun queue id now => ?_)
    rcases OcrQueue.dispatch_cases queue id now name args with same | ⟨kind, input, made, -⟩
    · exact same
    · exact absurd (jobFor_conforms made) conforms

namespace Runtime

variable (runtime : Runtime) (fuel : Nat) (name : Text) (args : Arguments)

/-- A tool checks its arguments against its schema before it does anything. -/
theorem dispatch_checks : (runtime.dispatch fuel name args).Checks Hesitates ServerOp.May
    (Conforms (inputSchemaForTool name) args) := by
  have tool {tool : ToolCall} {good : Prop} (checks : (tool.program runtime.framework fuel).Checks Idles (Anything _ _) good) :
      (runtime.toolCall fuel tool).Checks Hesitates ServerOp.May good := (ofRuntime_checks checks).mapError.bind
  unfold dispatch
  refine .split ?_ fun _ => .split ?_ fun _ => .split ?_ fun _ => .split ?_ fun _ => .split ?_ fun _ => .split ?_ fun _ => ?_
  · rintro rfl
    exact .of_good (conforms_object ⟨⟩ ⟨⟩)
  · rintro rfl
    exact .of_good (conforms_object ⟨⟩ ⟨⟩)
  · intro _
    refine .call (ocr_hesitates name args) fun answer told => ?_
    obtain ⟨queue, id, now, same⟩ := told
    cases answer with
    | error error => exact .fail _
    | ok reply => exact .of_good (ocr_conforms same.symm)
  · exact fun _ => tool (runtime.framework.frameworkTool_checks fuel args)
  · exact fun _ => tool (runtime.framework.writeTool_checks fuel args)
  · rintro rfl
    exact .of_good (conforms_object ⟨⟩ ⟨⟩)
  refine .split ?_ fun _ => .split ?_ fun _ => .split ?_ fun _ => .split ?_ fun _ => ?_
  · rintro rfl
    exact .parse fun _ path => .of_good (conforms_object (string_present path) (string_fits path))
  · rintro rfl
    exact .parse fun _ path => .parse fun _ recursive => .of_good (conforms_object (stringAllowEmpty_present path)
      ⟨stringAllowEmpty_fits path, optionalBool_fits recursive⟩)
  · rintro rfl
    exact .parse fun _ text => .parse fun _ filters => .of_good (conforms_object (stringAllowEmpty_present text)
      ⟨stringAllowEmpty_fits text, searchFilters_fits filters⟩)
  · rintro rfl
    exact .parse fun _ path => .of_good (conforms_object (string_present path) (string_fits path))
  refine .split ?_ fun _ => .split ?_ fun _ => .split ?_ fun _ => .split ?_ fun _ => .fail _
  · rintro rfl
    exact .parse fun _ path => .of_good (conforms_object (string_present path) (string_fits path))
  · rintro rfl
    exact .of_good (conforms_object ⟨⟩ ⟨⟩)
  · rintro rfl
    exact .parse fun _ notebook => .parse fun _ page => .of_good (conforms_object
      ⟨string_present notebook, string_present page⟩ ⟨string_fits notebook, string_fits page⟩)
  · rintro rfl
    exact .of_good (conforms_object ⟨⟩ ⟨⟩)

end Runtime

theorem callTool_checks (handler : SecondBrainHandler) (fuel : Nat) (auth : Option AuthContext) (name : Text)
    (args : Arguments) : (handler.callTool fuel auth name args).Checks Hesitates ServerOp.May
      (Conforms (inputSchemaForTool name) args) := by
  have logs (error : ErrorData) (outcome : ToolCallResult) :
      (Prog.bind (call (.log (handler.logEntry auth name args outcome))) fun _ =>
        (.ofExcept id (.error error) : ServerProg ErrorData McpReply)).Checks Hesitates ServerOp.May
          (Conforms (inputSchemaForTool name) args) := .call (.inl (.browses (.log _))) fun _ _ => .fail _
  unfold SecondBrainHandler.callTool SecondBrainHandler.runTool
  cases auth.elim .forbidden fun auth => handler.toolAllowed auth name with
  | unknown => exact logs methodNotFound .error
  | forbidden => exact logs forbiddenScope .forbiddenScope
  | allowed =>
    simp only [Prog.bind_eq, Prog.bind_assoc]
    exact (handler.runtime.dispatch_checks fuel name args).attempt_bind fun error => logs (errorData error) .error

end Tools

section Ignored

open ToolRegistry

variable {args other : Arguments} {key : Text}

theorem string_congr (same : args.lookup key = other.lookup key) : string args key = string other key := by
  rw [string, string, same]

theorem optionalString_congr (same : args.lookup key = other.lookup key) :
    optionalString args key = optionalString other key := by
  rw [optionalString, optionalString, same]

theorem stringAllowEmpty_congr (same : args.lookup key = other.lookup key) :
    stringAllowEmpty args key = stringAllowEmpty other key := by
  rw [stringAllowEmpty, stringAllowEmpty, same]

theorem optionalBool_congr (same : args.lookup key = other.lookup key) : optionalBool args key = optionalBool other key := by
  rw [optionalBool, optionalBool, same]

theorem frontmatterArg_congr (same : args.lookup key = other.lookup key) :
    frontmatterArg args key = frontmatterArg other key := by
  rw [frontmatterArg, frontmatterArg, same]

theorem searchFilters_congr (same : args.lookup "filters".toList = other.lookup "filters".toList) :
    searchFilters args = searchFilters other := by
  rw [searchFilters, searchFilters, same]

theorem agree_object {names : List String} {entries : List (String × Value)} (agree : Agree (object names entries) args other) :
    entries.Forall fun entry => args.lookup entry.1.toList = other.lookup entry.1.toList := by
  refine List.forall_iff_forall_mem.mpr fun entry member => ?_
  obtain ⟨⟨key, property⟩, listed, same⟩ := List.mem_map.mp (keys_properties_object.mpr (List.mem_map_of_mem member))
  exact same ▸ agree key property listed

namespace SchemaFramework

variable (service : SchemaFramework) (fuel : Nat) {name : Text}

theorem writeNote_congr (listed : name ∈ Runtime.writeNames) (agree : Agree (inputSchemaForTool name) args other) :
    service.writeNote fuel name args = service.writeNote fuel name other := by
  have path : args.lookup "path".toList = other.lookup "path".toList := by
    simp only [Runtime.writeNames, List.mem_cons, List.not_mem_nil, or_false] at listed
    rcases listed with rfl | rfl | rfl | rfl | rfl | rfl <;> exact (agree_object agree).1
  unfold writeNote
  rw [string_congr path]
  refine congrArg _ (funext fun _ => ite_congr rfl ?_ fun _ => ite_congr rfl ?_ fun _ => ite_congr rfl ?_ fun _ =>
    ite_congr rfl ?_ fun _ => ite_congr rfl ?_ fun _ => ite_congr rfl ?_ fun _ => rfl)
  · rintro rfl
    obtain ⟨-, content, fields⟩ := agree_object agree
    simp only [string_congr content, frontmatterArg_congr fields]
  · rintro rfl
    obtain ⟨-, content, base, fields⟩ := agree_object agree
    simp only [string_congr content, string_congr base, frontmatterArg_congr fields]
  · rintro rfl
    obtain ⟨-, patch, base⟩ := agree_object agree
    simp only [string_congr base, frontmatterArg_congr patch]
  · rintro rfl
    obtain ⟨-, marker, content, base⟩ := agree_object agree
    simp only [string_congr marker, string_congr content, string_congr base]
  · rintro rfl
    rw [string_congr (agree_object agree).2]
  · rintro rfl
    rw [string_congr (agree_object agree).2]

theorem createRecord_congr (agree : Agree (inputSchemaForTool "create_record".toList) args other) :
    service.createRecord fuel args = service.createRecord fuel other := by
  obtain ⟨kind, title, date, body, fields⟩ := agree_object agree
  simp only [createRecord, string_congr kind, string_congr title, optionalString_congr date, optionalString_congr body]
  rw [fields]

theorem capture_congr (listed : name ∈ ["capture_for_date".toList, "inbox_capture".toList])
    (agree : Agree (inputSchemaForTool name) args other) : service.capture fuel name args = service.capture fuel name other := by
  rcases List.mem_cons.mp listed with rfl | last
  · have differs : "capture_for_date".toList ≠ "inbox_capture".toList := by decide
    obtain ⟨content, client, date, source, kind, title⟩ := agree_object agree
    simp only [capture, string_congr content, string_congr client, optionalString_congr date, optionalString_congr source,
      optionalString_congr kind, optionalString_congr title, if_neg differs]
  · obtain rfl := List.mem_singleton.mp last
    obtain ⟨content, client, date, source, kind, title, strategy⟩ := agree_object agree
    simp only [capture, string_congr content, string_congr client, optionalString_congr date, optionalString_congr source,
      optionalString_congr kind, optionalString_congr title, optionalString_congr strategy]

theorem daily_congr (listed : name ∈ ["daily_note_get".toList, "daily_note_append".toList, "daily_note_repair_markers".toList])
    (agree : Agree (inputSchemaForTool name) args other) : service.daily fuel name args = service.daily fuel name other := by
  have date : args.lookup "date".toList = other.lookup "date".toList := by
    simp only [List.mem_cons, List.not_mem_nil, or_false] at listed
    rcases listed with rfl | rfl | rfl
    · exact agree_object agree
    · exact (agree_object agree).2.2.1
    · exact (agree_object agree).2
  unfold daily
  rw [optionalString_congr date]
  refine congrArg _ (funext fun _ => congrArg _ (funext fun day => ite_congr rfl (fun _ => rfl) fun _ =>
    ite_congr rfl ?_ fun _ => ite_congr rfl ?_ fun _ => rfl))
  · rintro rfl
    obtain ⟨content, base, -, part⟩ := agree_object agree
    simp only [Daily.append, string_congr content, string_congr base, optionalString_congr part]
  · rintro rfl
    simp only [Daily.repair, string_congr (agree_object agree).1]

theorem init_congr (agree : Agree (inputSchemaForTool "framework_init".toList) args other) :
    service.init args fuel = service.init other fuel := by
  obtain ⟨framework, path, mode⟩ := agree_object agree
  simp only [init, string_congr framework, optionalString_congr path, optionalString_congr mode]

theorem register_congr (agree : Agree (inputSchemaForTool "framework_register".toList) args other) :
    service.register args fuel = service.register other fuel := by
  obtain ⟨name, path, priority⟩ := agree_object agree
  simp only [register, string_congr name, string_congr path]
  rw [priority]

theorem dispatch_congr (agree : Agree (inputSchemaForTool name) args other) :
    service.dispatch fuel name args = service.dispatch fuel name other := by
  refine ite_congr rfl ?_ fun _ => ite_congr rfl ?_ fun _ => ite_congr rfl ?_ fun _ => ite_congr rfl (fun _ => rfl) fun _ =>
    ite_congr rfl (fun _ => rfl) fun _ => ite_congr rfl (fun _ => rfl) fun _ => ite_congr rfl (fun _ => rfl) fun _ =>
      ite_congr rfl ?_ fun _ => ite_congr rfl ?_ fun _ => ite_congr rfl ?_ fun _ => ite_congr rfl ?_ fun _ => rfl
  · rintro rfl
    exact service.init_congr fuel agree
  · rintro rfl
    exact service.register_congr fuel agree
  · rintro rfl
    rw [unregister, unregister, string_congr (agree_object agree)]
  · rintro rfl
    rw [findMaps, findMaps, optionalString_congr (agree_object agree)]
  · rintro rfl
    rw [service.createRecord_congr fuel agree]
  · exact fun listed => by rw [service.capture_congr fuel listed agree]
  · exact fun listed => by rw [service.daily_congr fuel listed agree]

theorem frameworkTool_congr (agree : Agree (inputSchemaForTool name) args other) :
    service.frameworkTool fuel name args = service.frameworkTool fuel name other := by
  rw [frameworkTool, frameworkTool, service.dispatch_congr fuel agree]

theorem writeTool_congr (listed : name ∈ Runtime.writeNames) (agree : Agree (inputSchemaForTool name) args other) :
    service.writeTool fuel name args = service.writeTool fuel name other := by
  rw [writeTool, writeTool, service.writeNote_congr fuel listed agree]

end SchemaFramework

theorem jobFor_congr {name : Text} (agree : Agree (inputSchemaForTool name) args other) :
    Ocr.jobFor name args = Ocr.jobFor name other := by
  refine ite_congr rfl ?_ fun _ => ite_congr rfl ?_ fun _ => rfl
  · rintro rfl
    obtain ⟨identifier, pages, force⟩ := agree_object agree
    rw [string_congr identifier, Ocr.pagesArg, Ocr.pagesArg, pages, Ocr.forceArg, Ocr.forceArg, force]
  · rintro rfl
    rw [string_congr (agree_object agree)]

theorem ocr_congr {name : Text} (agree : Agree (inputSchemaForTool name) args other) (queue : OcrQueue) (id now : Text) :
    queue.dispatch id now name args = queue.dispatch id now name other := by
  rw [OcrQueue.dispatch, OcrQueue.dispatch]
  refine ite_congr rfl ?_ fun _ => by rw [jobFor_congr agree]
  rintro rfl
  rw [string_congr (agree_object agree)]

/-- A tool reads no argument that its schema does not name. A tool of the OCR queue hands its arguments on to the
queue, which reads no others either. -/
theorem undeclared_ignored (runtime : Runtime) (fuel : Nat) (name : Text) (args other : Arguments)
    (agree : Agree (inputSchemaForTool name) args other) :
    (name ∉ Runtime.ocrNames ∨ runtime.ocrEnabled = false →
      runtime.dispatch fuel name args = runtime.dispatch fuel name other) ∧
    ∀ (queue : OcrQueue) (id now : Text), queue.dispatch id now name args = queue.dispatch id now name other := by
  refine ⟨fun plain => ?_, ocr_congr agree⟩
  refine ite_congr rfl (fun _ => rfl) fun _ => ite_congr rfl (fun _ => rfl) fun _ => ite_congr rfl ?_ fun _ =>
    ite_congr rfl ?_ fun _ => ite_congr rfl ?_ fun _ => ite_congr rfl (fun _ => rfl) fun _ => ite_congr rfl ?_ fun _ =>
      ite_congr rfl ?_ fun _ => ite_congr rfl ?_ fun _ => ite_congr rfl ?_ fun _ => ite_congr rfl ?_ fun _ =>
        ite_congr rfl (fun _ => rfl) fun _ => ite_congr rfl ?_ fun _ => rfl
  · rintro ⟨listed, enabled⟩
    rcases plain with unlisted | disabled
    · exact absurd listed unlisted
    · exact absurd (enabled.symm.trans disabled) (by decide)
  · exact fun _ => by rw [Runtime.toolCall, ToolCall.program, runtime.framework.frameworkTool_congr fuel agree]; rfl
  · exact fun listed => by rw [Runtime.toolCall, ToolCall.program, runtime.framework.writeTool_congr fuel listed agree]; rfl
  · rintro rfl
    rw [Runtime.readNote, Runtime.readNote, string_congr (agree_object agree)]
  · rintro rfl
    obtain ⟨path, recursive⟩ := agree_object agree
    rw [Runtime.listFolder, Runtime.listFolder, stringAllowEmpty_congr path, optionalBool_congr recursive]
  · rintro rfl
    obtain ⟨text, filters⟩ := agree_object agree
    rw [Runtime.search, Runtime.search, stringAllowEmpty_congr text, searchFilters_congr filters]
  · rintro rfl
    rw [Runtime.getBacklinks, Runtime.getBacklinks, string_congr (agree_object agree)]
  · rintro rfl
    rw [Runtime.getOutgoingLinks, Runtime.getOutgoingLinks, string_congr (agree_object agree)]
  · rintro rfl
    obtain ⟨notebook, page⟩ := agree_object agree
    rw [Runtime.linkToPage, Runtime.linkToPage, string_congr notebook, string_congr page]

/-- A note is read with a member that no schema names, and without it. -/
theorem undeclared_ignored_note :
    plainHandler.runtime.dispatch 5 "read_note".toList
        [("path".toList, .string "a.md".toList), ("line".toList, .null)] =
      plainHandler.runtime.dispatch 5 "read_note".toList [("path".toList, .string "a.md".toList)] := by
  refine (undeclared_ignored plainHandler.runtime 5 "read_note".toList _ _ fun key property member => ?_).1
    (.inl (by decide +kernel))
  have only : properties (inputSchemaForTool "read_note".toList) =
      [("path".toList, stringProp "Vault-relative markdown path.")] := rfl
  rw [only, List.mem_singleton] at member
  cases member
  rfl

end Ignored

section Runs

variable {fold : Name → Name} {engine : IndexEngine} {paths : PathEngine} {setting : Setting fold}
  {handler : SecondBrainHandler} {fuel : Nat} {requests : Nat → Option AuthContext × McpRequest}
  {current : Nat → ServerProg ErrorData McpReply} {start w : ServerWorld fold}

/-- Nothing was changed that a client could see; a mutex of the runtime may have been taken or given back. -/
structure Spared (before after : ServerWorld fold) : Prop where
  tree : after.runtime.vault.tree = before.runtime.vault.tree
  audit : after.runtime.vault.audit = before.runtime.vault.audit
  locks : after.runtime.vault.locks = before.runtime.vault.locks
  index : after.runtime.index = before.runtime.index
  policy : after.skills.policy = before.skills.policy
  skills : after.skills.skills = before.skills.skills
  ocr : after.ocr = before.ocr

theorem Hesitates.spared {task : Nat} {op : ServerOp} {w after : ServerWorld fold} {answer : op.Resp}
    (hesitates : Hesitates op) (effect : ServerEffect engine paths setting task op w answer after) : Spared w after := by
  cases hesitates with
  | browses browses =>
    have same := browses.untouched effect
    exact ⟨same.tree, same.audit, same.locks, same.index, same.policy, same.skills, same.ocr⟩
  | lock =>
    obtain ⟨effect⟩ := effect
    cases effect
    exact ⟨rfl, rfl, rfl, rfl, rfl, rfl, rfl⟩
  | unlock =>
    obtain ⟨effect⟩ := effect
    cases effect
    exact ⟨rfl, rfl, rfl, rfl, rfl, rfl, rfl⟩
  | ocr idle =>
    cases effect with
    | ocr name args fresh => exact ⟨rfl, rfl, rfl, rfl, rfl, rfl, idle _ _ _⟩

theorem ServerEffect.may {task : Nat} {op : ServerOp} {w after : ServerWorld fold} {answer : op.Resp}
    (effect : ServerEffect engine paths setting task op w answer after) : op.May answer := by
  cases effect with
  | ocr name args fresh => exact ⟨_, _, _, rfl⟩
  | _ => trivial

/-- A call whose arguments are not as the schema of its tool says never succeeds, and none of its steps changes
anything, whatever else is going on. -/
theorem schemas_enforced (run : Pool (ServerEffect engine paths setting)
      (fun i => handler.handle fuel (requests i).1 (requests i).2) start current w)
    {i : Nat} {name : Text} {args : Arguments} (asked : (requests i).2 = .callTool name args)
    (wrong : ¬ Conforms (ToolRegistry.inputSchemaForTool name) args) :
    (∀ reply, current i ≠ .done reply) ∧
      ∀ op next, current i = Prog.call op next → ∀ answer after,
        ServerEffect engine paths setting i op w answer after → Spared w after := by
  have checks : (current i).Checks Hesitates ServerOp.May (Conforms (ToolRegistry.inputSchemaForTool name) args) := by
    refine run.checks (fun _ _ _ _ => ServerEffect.may) ?_
    rw [asked]
    exact callTool_checks handler fuel (requests i).1 name args
  constructor
  · intro reply ended
    rw [ended] at checks
    cases checks with
    | done value holds => exact wrong holds
  · intro op next calls answer after effect
    rw [calls] at checks
    cases checks with
    | call here rest => exact (here.resolve_right wrong).spared effect

def pathlessRequest : Option AuthContext × McpRequest := (some (caller {.vaultRead}), .callTool "read_note".toList [])

/-- A note is asked for without a path, and the call comes to its end. -/
theorem schemas_enforced_pathless : ∃ (current : Nat → ServerProg ErrorData McpReply) (error : ErrorData),
    current 0 = Prog.fail error ∧ ∀ reply, current 0 ≠ Prog.done reply := by
  obtain ⟨entry, next, error, calls, fails⟩ : ∃ entry next error,
      plainHandler.handle 5 pathlessRequest.1 pathlessRequest.2 = Prog.call (.log entry) next ∧
        next () = Prog.fail error := ⟨_, _, _, rfl, rfl⟩
  have run : Pool (ServerEffect plainEngine asciiEngine openSetting)
      (fun _ => plainHandler.handle 5 pathlessRequest.1 pathlessRequest.2) plainServer _ _ :=
    Pool.start.step (i := 0) calls (.log plainServer entry)
  have wrong : ¬ Conforms (ToolRegistry.inputSchemaForTool "read_note".toList) [] := fun conforms =>
    conforms.present "path".toList (by decide +kernel) rfl
  exact ⟨_, error, (Function.update_self ..).trans fails, (schemas_enforced run (i := 0) rfl wrong).1⟩

end Runs

end SecondBrain
