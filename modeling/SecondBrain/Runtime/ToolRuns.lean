import SecondBrain.Framework.DateWriting
import SecondBrain.Framework.MetadataConfinement
import SecondBrain.Library.Schedules
import SecondBrain.Runtime.Freshness
import SecondBrain.Runtime.ListingRuns

set_option autoImplicit false

/-! Runs of the tools beside each other, and the snapshots that they publish. -/

namespace SecondBrain

open FileSystem (FsPath FsOp Name Tree)
open Recording
open RuntimeProg (call ofVault guarded)

/-- What a tool does before its refresh. -/
def ToolCall.mutation (service : SchemaFramework) (fuel : Nat) : ToolCall → FrameworkProg ToolReply
  | framework name args => do
    let _ ← if name ∈ SchemaFramework.mutating then call (.lock .frameworkMutation) else pure ()
    let reply ← service.dispatch fuel name args
    return .framework reply
  | write name args => do
    let result ← ofVault (service.writeNote fuel name args)
    return .written result

variable {fold : Name → Name} {I : Type} [DecidableEq I]

section Safe

variable {engine : IndexEngine} {setting : Setting fold} {task : I → Nat} {reader : VaultReader} {fuel : Nat}
  {start : IndexTables} {i : I} {ε α : Type}
  {s t : {s : RuntimeWorld fold × Past I fold // Consistent engine task reader fuel start s}}

theorem rely_extended (others : (refreshing engine setting task reader fuel start i).rely s t) :
    Extended engine i s.1.2 t.1.2 := by
  obtain ⟨⟨more, same, others⟩, -⟩ := others
  exact ⟨more, same, silent_others others⟩

theorem adds_extended {p : RuntimeProg ε α} {result : Except ε α} {before after : Past I fold}
    (adds : Returned i Ordinary p result before after) : Extended engine i before after := by
  obtain ⟨more, same, own, -⟩ := adds
  exact ⟨more, same, fun event inside mine => not_publishes (own event inside mine).not_rebuild⟩

theorem ordinary_safe {p : RuntimeProg ε α} (within : p.Within Ordinary)
    (s : {s : RuntimeWorld fold × Past I fold // Consistent engine task reader fuel start s}) :
    (refreshing engine setting task reader fuel start i).Safe (fun result t => Returned i Ordinary p result s.1.2 t.1.2 ∧
      ∀ n, Holding .indexRefresh i n s.1.2 → Holding .indexRefresh i n t.1.2) p s :=
  plays_safe (fun _ ordinary _ _ _ consistent step => consistent.ordinary ordinary step)
    (fun _ ordinary => ordinary.outside) within s

/-- What a refresh has brought about: a publication begun after it, or nothing. -/
structure RefreshDid (engine : IndexEngine) (reader : VaultReader) (fuel : Nat) (i : I) (before : Past I fold)
    (result : Except ε α) (after : Past I fold) : Prop where
  longer : before <+: after
  published : ∀ value, result = .ok value →
    ∃ n m tables, before.length ≤ n ∧ Publication engine reader fuel after i n m tables
  failed : ∀ error, result = .error error → Extended engine i before after

theorem RefreshDid.extended {before after later : Past I fold} {result : Except ε α}
    (did : RefreshDid engine reader fuel i before result after) (more : Extended engine i after later) :
    RefreshDid engine reader fuel i before result later := by
  refine ⟨did.longer.trans ?_, fun value ok => ?_, fun error failed => (did.failed error failed).trans more⟩
  · obtain ⟨rest, rfl, -⟩ := more
    exact List.prefix_append ..
  · obtain ⟨n, m, tables, le, publication⟩ := did.published value ok
    obtain ⟨rest, rfl, -⟩ := more
    exact ⟨n, m, tables, le, publication.append rest⟩

theorem RefreshDid.of_publication {before after : Past I fold} {n m : Nat} {tables : IndexTables} {value : α}
    (longer : before <+: after) (le : before.length ≤ n)
    (publication : Publication engine reader fuel after i n m tables) :
    RefreshDid engine reader fuel i before (.ok value : Except ε α) after :=
  ⟨longer, fun _ _ => ⟨n, m, tables, le, publication⟩, nofun⟩

theorem RefreshDid.of_error {before after : Past I fold} {error : ε} (extended : Extended engine i before after) :
    RefreshDid engine reader fuel i before (.error error : Except ε α) after := by
  refine ⟨?_, nofun, fun _ _ => extended⟩
  obtain ⟨more, rfl, -⟩ := extended
  exact List.prefix_append ..

/-- A refresh that holds the mutex since `n`. -/
theorem refresh_run {n : Nat} {before : Past I fold} (began : Extended engine i before t.1.2)
    (le : before.length ≤ n) (holding : Holding .indexRefresh i n t.1.2)
    (fresh : answersOf i (t.1.2.drop (n + 1)) = []) :
    (refreshing engine setting task reader fuel start i).Safe
      (fun result u => Holding .indexRefresh i n u.1.2 ∧ RefreshDid engine reader fuel i before result u.1.2)
      (refresh reader fuel) t := by
  rw [refresh_eq]
  refine (ordinary_safe ((collect_works reader fuel).mono fun _ => .inl) t).bind ?_ ?_
  · rintro ⟨notes, conflicts⟩ u ⟨adds, kept⟩
    have extended := began.trans (adds_extended adds)
    obtain ⟨more, same, own, played⟩ := adds
    have told : answersOf i (u.1.2.drop (n + 1)) = answersOf i more := by
      rw [same, List.drop_append_of_le_length (Nat.succ_le_of_lt holding.lt), answersOf_append, fresh, List.nil_append]
    refine rebuild_call (kept n holding) (told ▸ played) ?_ ?_
    · rintro v m tables held longer publication w ⟨⟨rest, later, others⟩, stays⟩
      refine ⟨stays n held, .of_publication ?_ le (later ▸ publication.append rest)⟩
      obtain ⟨front, first, -⟩ := extended
      rw [later]
      exact ((first ▸ List.prefix_append before front).trans longer).trans (List.prefix_append ..)
    · rintro v error held grown w others
      exact ⟨others.2 n held, .of_error ((extended.trans grown).trans (rely_extended others))⟩
  · rintro error u ⟨adds, kept⟩
    exact ⟨kept n holding, .of_error (began.trans (adds_extended adds))⟩

theorem coldRebuild_run (s : {s : RuntimeWorld fold × Past I fold // Consistent engine task reader fuel start s}) :
    (refreshing engine setting task reader fuel start i).Safe
      (fun result t => RefreshDid engine reader fuel i s.1.2 result t.1.2) (coldRebuild reader fuel) s := by
  refine lock_call fun t n began le holding fresh => ?_
  refine Protocol.Safe.attempt_bind (refresh_run began le holding fresh) ?_
  rintro result u ⟨held, did⟩
  refine unlock_call held fun v extended => Protocol.Safe.ofExcept fun w others => ?_
  have later := did.extended (extended.trans (rely_extended others))
  cases result with
  | ok value => exact later
  | error error => exact later

/-- What a tool has brought about. -/
structure ToolDid (engine : IndexEngine) (reader : VaultReader) (fuel : Nat) (i : I) (mutation : FrameworkProg ToolReply)
    (result : Except DispatchError ToolOutcome) (past : Past I fold) : Prop where
  fresh : ∀ outcome, result = .ok outcome → outcome.refresh = some (.ok ()) → ∃ p n m tables, p ≤ n ∧
    mutation.Plays (answersOf i (past.take p)) (.ok outcome.reply) ∧
      Publication engine reader fuel past i n m tables
  silent : (∀ outcome, result = .ok outcome → outcome.refresh ≠ some (.ok ())) → Silent engine i past

theorem ToolDid.extended {mutation : FrameworkProg ToolReply} {result : Except DispatchError ToolOutcome}
    {past later : Past I fold} (did : ToolDid engine reader fuel i mutation result past)
    (more : Extended engine i past later) : ToolDid engine reader fuel i mutation result later := by
  obtain ⟨rest, rfl, silent⟩ := more
  refine ⟨fun outcome ok refreshed => ?_, fun unrefreshed => (did.silent unrefreshed).append silent⟩
  obtain ⟨p, n, m, tables, le, played, publication⟩ := did.fresh outcome ok refreshed
  have short : p ≤ past.length := by
    have before := publication.lt
    obtain ⟨_, _, _, found, -⟩ := publication.published
    have within := (List.getElem?_eq_some_iff.mp found).1
    omega
  exact ⟨p, n, m, tables, le, by rwa [List.take_append_of_le_length short], publication.append rest⟩

/-- The refresh after a mutation that was answered with all calls of the task so far. -/
theorem refreshAfter_run {service : SchemaFramework} {mutation : FrameworkProg ToolReply} {reply : ToolReply}
    (s : {s : RuntimeWorld fold × Past I fold // Consistent engine task service.reader fuel start s})
    (played : mutation.Plays (answersOf i s.1.2) (.ok reply)) (silent : Silent engine i s.1.2) :
    (refreshing engine setting task service.reader fuel start i).Safe
      (fun result t => ToolDid engine service.reader fuel i mutation result t.1.2)
      (service.refreshAfter fuel reply) s := by
  refine Protocol.Safe.attempt_bind (coldRebuild_run s) fun result t did => ?_
  intro u others
  refine ToolDid.extended ?_ (rely_extended others)
  refine ⟨?_, fun unrefreshed => ?_⟩
  · rintro _ ⟨⟩ refreshed
    obtain rfl : result = .ok () := Option.some.inj refreshed
    obtain ⟨n, m, tables, le, publication⟩ := did.published () rfl
    refine ⟨s.1.2.length, n, m, tables, le, ?_, publication⟩
    obtain ⟨more, same⟩ := did.longer
    rwa [← same, List.take_left]
  · cases result with
    | ok value => exact absurd rfl (unrefreshed _ rfl)
    | error error =>
      obtain ⟨more, same, quiet⟩ := did.failed error rfl
      rw [same]
      exact silent.append quiet

theorem ToolDid.of_error {mutation : FrameworkProg ToolReply} {error : DispatchError} {past : Past I fold}
    (silent : Silent engine i past) : ToolDid engine reader fuel i mutation (.error error) past :=
  ⟨nofun, fun _ => silent⟩

omit [DecidableEq I] in
theorem silent_of_extended {past : Past I fold} (extended : Extended engine i [] past) : Silent engine i past := by
  obtain ⟨more, rfl, silent⟩ := extended
  exact silent

theorem program_run {service : SchemaFramework} (toolCall : ToolCall)
    (s : {s : RuntimeWorld fold × Past I fold // Consistent engine task service.reader fuel start s})
    (fresh : s.1.2 = []) : (refreshing engine setting task service.reader fuel start i).Safe
      (fun result t => ToolDid engine service.reader fuel i (toolCall.mutation service fuel) result t.1.2)
      (toolCall.program service fuel) s := by
  cases toolCall with
  | write name args =>
    refine (ordinary_safe ((ofVault_works (service.writeNote fuel name args)).mono fun _ => .inl) s).bind ?_ ?_
    · rintro result t ⟨adds, -⟩
      rw [fresh] at adds
      have silent : Silent engine i t.1.2 := silent_of_extended (adds_extended adds)
      obtain ⟨more, same, -, played⟩ := adds
      obtain rfl : t.1.2 = more := same
      refine refreshAfter_run t ?_ silent
      rw [← List.append_nil (answersOf i t.1.2)]
      exact played.bind ⟨rfl, rfl⟩
    · rintro error t ⟨adds, -⟩
      exact .of_error (silent_of_extended (adds_extended (fresh ▸ adds)))
  | framework name args =>
    have works : (service.dispatch fuel name args).Within Ordinary :=
      (service.dispatch_works fuel name args).mono fun _ => .inl
    have calls {op : RuntimeOp} (ordinary : Ordinary op) : (call op : FrameworkProg op.Resp).Within Ordinary :=
      ⟨ordinary, fun _ => trivial⟩
    by_cases mutating : name ∈ SchemaFramework.mutating
    · rw [ToolCall.program, SchemaFramework.frameworkTool, if_pos mutating]
      refine (ordinary_safe (calls (.inr (.inl rfl))) s).bind ?_ ?_
      · rintro _ u ⟨adds, -⟩
        rw [fresh] at adds
        have silent : Silent engine i u.1.2 := silent_of_extended (adds_extended adds)
        obtain ⟨front, same, -, locked⟩ := adds
        obtain rfl : u.1.2 = front := same
        have inner : (refreshing engine setting task service.reader fuel start i).Safe (fun result t => ToolDid engine
            service.reader fuel i ((ToolCall.framework name args).mutation service fuel) result t.1.2)
            ((service.dispatch fuel name args).bind fun reply => service.refreshAfter fuel (.framework reply)) u := by
          refine (ordinary_safe works u).bind ?_ ?_
          · rintro reply v ⟨adds, -⟩
            have quiet : Extended engine i u.1.2 v.1.2 := adds_extended adds
            obtain ⟨more, same, -, played⟩ := adds
            refine refreshAfter_run v ?_ ?_
            · rw [same, answersOf_append, ToolCall.mutation, if_pos mutating, ← List.append_nil (answersOf i more)]
              exact locked.bind (played.bind ⟨rfl, rfl⟩)
            · obtain ⟨rest, same, quiet⟩ := quiet
              rw [same]
              exact silent.append quiet
          · rintro error v ⟨adds, -⟩
            obtain ⟨rest, same, quiet⟩ : Extended engine i u.1.2 v.1.2 := adds_extended adds
            exact .of_error (same ▸ silent.append quiet)
        refine Protocol.Safe.attempt_bind inner fun result v did => ?_
        refine (ordinary_safe (calls (.inr (.inr rfl))) v).bind ?_ ?_
        · rintro _ w ⟨adds, -⟩
          refine Protocol.Safe.ofExcept fun x others => ?_
          have later := (did.extended (adds_extended adds)).extended (rely_extended others)
          cases result with
          | ok value => exact later
          | error error => exact later
        · rintro error w ⟨⟨more, same, -, played⟩, -⟩
          obtain ⟨_, _, -, -, never⟩ := played
          cases never
      · rintro error u ⟨⟨more, same, -, played⟩, -⟩
        obtain ⟨_, _, -, -, never⟩ := played
        cases never
    · rw [ToolCall.program, SchemaFramework.frameworkTool, if_neg mutating]
      refine (ordinary_safe works s).bind ?_ ?_
      · rintro reply t ⟨adds, -⟩ u others
        have extended : Extended engine i s.1.2 u.1.2 := (adds_extended adds).trans (rely_extended others)
        have silent : Silent engine i u.1.2 := silent_of_extended (fresh ▸ extended)
        refine ⟨?_, fun _ => silent⟩
        rintro _ ⟨⟩ never
        cases never
      · rintro error t ⟨adds, -⟩
        exact .of_error (silent_of_extended (adds_extended (fresh ▸ adds)))

end Safe

section Snapshots

variable (engine : IndexEngine) (reader : VaultReader) (fuel : Nat)

/-- One note of a snapshot: the entry it was listed as, and the answers that it was read from. -/
structure NoteReading where
  entry : FolderEntry
  answers : List ((op : RuntimeOp) × op.Resp)
  note : ReadNoteResult

/-- The tables are what was read: every note listed, each as it was read, and all conflicts. -/
def Snapshot (answers : List ((op : RuntimeOp) × op.Resp)) (tables : IndexTables) : Prop :=
  ∃ (readings : List NoteReading) (listing scanning : List ((op : RuntimeOp) × op.Resp)),
    answers = listing ++ (readings.flatMap NoteReading.answers ++ scanning) ∧
    (reader.listFolder [] true fuel).Plays listing (.ok (readings.map NoteReading.entry)) ∧
    (∀ reading ∈ readings, (ofVault (reader.readNote reading.entry.path)).Plays reading.answers (.ok reading.note)) ∧
    (scanConflicts reader.vaultRoot fuel).Plays scanning (.ok tables.conflicts) ∧ tables.Rebuilt ∧
    tables.notes = readings.map (fun reading => noteRow engine (noteRecord reading.note)) ∧
    tables.links = readings.flatMap fun reading => linkRows (noteRecord reading.note)

variable {engine reader fuel} {answers : List ((op : RuntimeOp) × op.Resp)} {tables : IndexTables}
  {notes : List NoteRecord} {conflicts : List ConflictPair}

theorem readNotes_plays {entries : List FolderEntry} (played : (readNotes reader entries).Plays answers (.ok notes)) :
    ∃ readings : List NoteReading, answers = readings.flatMap NoteReading.answers ∧
      readings.map NoteReading.entry = entries ∧ notes = readings.map (fun reading => noteRecord reading.note) ∧
      ∀ reading ∈ readings,
        (ofVault (reader.readNote reading.entry.path)).Plays reading.answers (.ok reading.note) := by
  induction entries generalizing answers notes with
  | nil =>
    obtain ⟨rfl, same⟩ := played
    cases same
    exact ⟨[], rfl, rfl, rfl, nofun⟩
  | cons entry entries ih =>
    obtain ⟨note, first, later, rfl, read, played⟩ := Prog.Plays.of_bind played
    obtain ⟨rest, second, last, rfl, others, rfl, same⟩ := Prog.Plays.of_bind played
    cases same
    obtain ⟨readings, rfl, rfl, rfl, each⟩ := ih others
    refine ⟨⟨entry, first, note⟩ :: readings, by simp, by simp, by simp, ?_⟩
    intro reading inside
    rcases List.mem_cons.mp inside with rfl | inside
    · exact read
    · exact each reading inside

theorem snapshot_of_plays (played : (collect reader fuel).Plays answers (.ok (notes, conflicts)))
    (built : rebuild engine notes conflicts = .ok tables) : Snapshot engine reader fuel answers tables := by
  obtain ⟨valid, rows, links, rfl⟩ := rebuild_spec built
  obtain ⟨entries, listing, later, rfl, listed, played⟩ := Prog.Plays.of_bind played
  obtain ⟨notes', reading, later, rfl, read, played⟩ := Prog.Plays.of_bind played
  obtain ⟨found, scanning, last, rfl, scanned, rfl, same⟩ := Prog.Plays.of_bind played
  cases same
  obtain ⟨readings, rfl, rfl, rfl, each⟩ := readNotes_plays read.of_mapError
  refine ⟨readings, listing, scanning, by rw [List.append_nil], listed.of_mapError, each, scanned, valid, ?_, ?_⟩
  · rw [rows, List.map_map]
    rfl
  · rw [links, List.flatMap_map]

theorem Publication.snapshot {past : Past I fold} {i : I} {n m : Nat}
    (publication : Publication engine reader fuel past i n m tables) :
    Snapshot engine reader fuel (answersOf i ((past.take m).drop (n + 1))) tables := by
  obtain ⟨-, w, notes, conflicts, -, built, played⟩ := publication
  exact snapshot_of_plays played built

end Snapshots

section Pools

variable {engine : IndexEngine} {setting : Setting fold} {task : I → Nat} {service : SchemaFramework} {fuel : Nat}
  {calls : I → ToolCall} {current : I → FrameworkProg ToolOutcome} {start w : RuntimeWorld fold} {past : Past I fold}

theorem consistent_start (reader : VaultReader) (start : RuntimeWorld fold) :
    Consistent engine task reader fuel start.index (start, ([] : Past I fold)) where
  holder i n holding := absurd holding.lt (Nat.not_lt_zero n)
  index := .inr ⟨rfl, nofun⟩
  published m event tables found := by simp at found

/-- What holds of the record in every state that the tools reach. -/
theorem tools_reach (pool : Pool (recording fun i => RuntimeEffect engine setting (task i))
    (fun i => (calls i).program service fuel) (start, []) current (w, past)) :
    Consistent engine task service.reader fuel start.index (w, past) ∧ ∀ i,
      (∀ outcome, current i = .done outcome → ToolDid engine service.reader fuel i
        ((calls i).mutation service fuel) (.ok outcome) past) ∧
      ∀ error, current i = .fail error → ToolDid engine service.reader fuel i
        ((calls i).mutation service fuel) (.error error) past := by
  have begins : Consistent engine task service.reader fuel start.index (start, ([] : Past I fold)) :=
    consistent_start service.reader start
  have seen (i : I) : (refreshing engine setting task service.reader fuel start.index i).view = Subtype.val := rfl
  obtain ⟨⟨t, consistent⟩, rfl, -, safe⟩ := Protocol.Pool.safe seen recorded_compatible
    (fun i => program_run (calls i) ⟨_, begins⟩ rfl) pool
  refine ⟨consistent, fun i => ⟨fun outcome finished => ?_, fun error failed => ?_⟩⟩
  · have done := safe i
    rw [finished] at done
    exact done _ ((refreshing engine setting task service.reader fuel start.index i).rely_refl _)
  · have done := safe i
    rw [failed] at done
    exact done _ ((refreshing engine setting task service.reader fuel start.index i).rely_refl _)

/-- Publications are made one after another: the later one was begun after the earlier one. -/
theorem Publication.serial {reader : VaultReader} {past : Past I fold} {i j : I} {n m k l : Nat}
    {tables other : IndexTables} (first : Publication engine reader fuel past i n m tables)
    (second : Publication engine reader fuel past j k l other) (lt : m < l) : m < k := by
  have began := first.holding.mono second.holding lt.le
  obtain ⟨w, notes, conflicts, found, -⟩ := first.published
  obtain ⟨_, _, _, -, -, played⟩ := second.published
  obtain ⟨⟨entered, atK, own, locks⟩, -⟩ := second.holding
  by_contra le
  rcases began.lt_or_eq with after | rfl
  · have short : k < m := by
      refine lt_of_le_of_ne (Nat.not_lt.mp le) ?_
      rintro rfl
      rw [List.getElem?_take_of_lt lt, found] at atK
      cases atK
      cases locks
    rw [List.getElem?_take_of_lt (short.trans lt), ← List.getElem?_take_of_lt short] at atK
    exact absurd (first.holding.later atK locks) (Nat.not_le.mpr after)
  · obtain ⟨⟨entered', atN, own', -⟩, -⟩ := first.holding
    rw [List.getElem?_take_of_lt first.lt, ← List.getElem?_take_of_lt (first.lt.trans lt), atK] at atN
    obtain rfl : i = j := own'.symm.trans (Option.some.inj atN ▸ own)
    -- the earlier publication would be one of the calls that collect the later snapshot
    rw [← List.getElem?_take_of_lt lt] at found
    have works := (collect_works reader fuel).plays played _ (mem_answersOf (mem_after found first.lt))
    cases works

theorem Publication.publishes {reader : VaultReader} {tables : IndexTables} {i : I} {n m : Nat}
    (publication : Publication engine reader fuel past i n m tables) :
    ∃ event, past[m]? = some event ∧ event.task = i ∧ Publishes engine event tables := by
  obtain ⟨-, w, notes, conflicts, found, built, -⟩ := publication
  exact ⟨_, found, rfl, i, w, notes, conflicts, rfl, built⟩

/-- A tool whose refresh succeeded has published a snapshot. -/
theorem refreshed_publishes (pool : Pool (recording fun i => RuntimeEffect engine setting (task i))
    (fun i => (calls i).program service fuel) (start, []) current (w, past)) {i : I} {outcome : ToolOutcome}
    (finished : current i = .done outcome) (refreshed : outcome.refresh = some (.ok ())) :
    ∃ (m : Nat) (event : Event I RuntimeOp RuntimeOp.Resp (RuntimeWorld fold)) (tables : IndexTables),
      past[m]? = some event ∧ event.task = i ∧ Publishes engine event tables := by
  obtain ⟨-, did⟩ := tools_reach pool
  obtain ⟨p, n, m, tables, -, -, publication⟩ := (did i).1 outcome finished |>.fresh outcome rfl refreshed
  obtain ⟨event, found, own, publishes⟩ := publication.publishes
  exact ⟨m, event, tables, found, own, publishes⟩

/-- A tool that returned after a refresh that succeeded: from then on the index is a snapshot that
was begun when the mutation of the tool was complete, or later. -/
theorem index_fresh (pool : Pool (recording fun i => RuntimeEffect engine setting (task i))
    (fun i => (calls i).program service fuel) (start, []) current (w, past)) {i : I} {outcome : ToolOutcome}
    (finished : current i = .done outcome) (refreshed : outcome.refresh = some (.ok ())) :
    (∀ event ∈ past, ∃ after, RuntimeEffect engine setting (task event.task) event.op event.state event.answer after) ∧
    ∃ p j n m, p ≤ n ∧ n < m ∧
      ((calls i).mutation service fuel).Plays (answersOf i (past.take p)) (.ok outcome.reply) ∧
      Holding .indexRefresh j n (past.take m) ∧
      Snapshot engine service.reader fuel (answersOf j ((past.take m).drop (n + 1))) w.index := by
  refine ⟨recording_effect pool, ?_⟩
  obtain ⟨consistent, did⟩ := tools_reach pool
  obtain ⟨p, n, m, tables, le, played, publication⟩ := (did i).1 outcome finished |>.fresh outcome rfl refreshed
  obtain ⟨event, found, -, publishes⟩ := publication.publishes
  rcases consistent.index with ⟨k, last, atK, latest, since⟩ | ⟨-, silent⟩
  · obtain ⟨l, other⟩ := consistent.published k last w.index atK latest
    have order : m ≤ k := by
      by_contra after
      exact since event (mem_after found (Nat.not_le.mp after)) tables publishes
    have later := publication.holding.mono other.holding order
    exact ⟨p, last.task, l, k, le.trans later, other.lt, played, other.holding, other.snapshot⟩
  · exact absurd publishes (silent event (List.mem_of_getElem? found) tables)

/-- At any time the index is the snapshot that was published last. Each snapshot was read within
one section of the refresh mutex, and that section began after the publication before. A tool
whose refresh failed, or that failed itself, has published nothing. -/
theorem publications_serial (pool : Pool (recording fun i => RuntimeEffect engine setting (task i))
    (fun i => (calls i).program service fuel) (start, []) current (w, past)) :
    Latest engine start.index past w.index ∧
    (∃ begun : Nat → Nat, ∀ m event tables, past[m]? = some event → Publishes engine event tables →
      Holding .indexRefresh event.task (begun m) (past.take m) ∧
      Snapshot engine service.reader fuel (answersOf event.task ((past.take m).drop (begun m + 1))) tables ∧
      ∀ l later tables', past[l]? = some later → Publishes engine later tables' → m < l → m < begun l) ∧
    ∀ i, ((∃ outcome, current i = .done outcome ∧ outcome.refresh ≠ some (.ok ())) ∨ ∃ error, current i = .fail error) →
      Silent engine i past := by
  obtain ⟨consistent, did⟩ := tools_reach pool
  refine ⟨consistent.index, ?_, ?_⟩
  · have sections (m : Nat) : ∃ n, ∀ event tables, past[m]? = some event → Publishes engine event tables →
        Publication engine service.reader fuel past event.task n m tables := by
      by_cases published : ∃ event tables, past[m]? = some event ∧ Publishes engine event tables
      · obtain ⟨event, tables, found, publishes⟩ := published
        obtain ⟨n, publication⟩ := consistent.published m event tables found publishes
        refine ⟨n, fun other tables' found' publishes' => ?_⟩
        obtain rfl : event = other := Option.some.inj (found.symm.trans found')
        obtain rfl : tables = tables' := publishes.unique publishes'
        exact publication
      · exact ⟨0, fun event tables found publishes => absurd ⟨event, tables, found, publishes⟩ published⟩
    choose begun publication using sections
    refine ⟨begun, fun m event tables found publishes => ?_⟩
    have here := publication m event tables found publishes
    exact ⟨here.holding, here.snapshot, fun l later tables' found' publishes' lt =>
      here.serial (publication l later tables' found' publishes') lt⟩
  · rintro i (⟨outcome, finished, unrefreshed⟩ | ⟨error, failed⟩)
    · exact ((did i).1 outcome finished).silent fun other same => by cases same; exact unrefreshed
    · exact ((did i).2 error failed).silent nofun

end Pools

/-- A service whose system is in UTC and that has no registry. -/
def plainService : SchemaFramework :=
  { plainFramework with
    schemaPath := "schema.yaml".toList
    json := ⟨fun _ => none, fun _ => []⟩
    collate := fun _ _ => .eq
    lowercase := id
    zone := Dates.utc }

/-- Nothing fails in a vault where no name is bound but at the keys. -/
theorem openScript_listed {keys : List (List Name)} (nodup : keys.Nodup) (task : Nat) (op : RuntimeOp)
    (w : RuntimeWorld id) (answer : op.Resp) (after : RuntimeWorld id) (among : w.vault.tree.Among keys)
    (ran : openScript.listed plainEngine keys task op w = some (answer, after)) :
    RuntimeEffect plainEngine openSetting task op w answer after ∧ after.vault.tree.Among keys :=
  Script.listed_sound rfl (fun _ => trivial) (fun _ _ never => absurd never Bool.false_ne_true) nodup op w answer after
    among ran

def dayNote : Name := "2024-02-29.md".toList

def dayFolder : FsPath := ["v".toList, "Calendar".toList, "Days".toList]

/-- A daily note with one section. -/
def dayText (content : Text) : Text :=
  sectionStart "daily-captures".toList ++ content ++ sectionEnd "daily-captures".toList

/-- A vault with one daily note. -/
def dayTree : Tree id :=
  ((((Tree.bare id).put [] ⟨"v".toList, .dir true, 0, 0⟩).put ["v".toList] ⟨"Calendar".toList, .dir true, 0, 0⟩).put
    ["v".toList, "Calendar".toList] ⟨"Days".toList, .dir true, 0, 0⟩).put
      dayFolder ⟨dayNote, .file (.utf8 (dayText [])), 0, 0⟩

/-- The keys of the vault, and that of the file that the note is written through. -/
def dayKeys : List (List Name) :=
  [dayFolder ++ [tempName dayNote []], dayFolder ++ [dayNote], dayFolder, ["v".toList, "Calendar".toList],
    ["v".toList], []]

theorem dayTree_among : dayTree.Among dayKeys := fun key bound =>
  .tail _ ((((FileSystem.Tree.bare_among.put _ _).put _ _).put _ _).put _ _ key bound)

def dayVault : RuntimeWorld id := ⟨{ secretVault none with tree := dayTree }, fun _ => none, .empty⟩

/-- An append to the daily note, a look at it, and a call that replaces what the append has made of it. -/
def dayCalls : Fin 3 → ToolCall
  | 0 => .framework "daily_note_append".toList [("date".toList, .string "2024-02-29".toList),
      ("content".toList, .string "hello".toList), ("base_sha256".toList, .string (dayText []))]
  | 1 => .framework "daily_note_get".toList [("date".toList, .string "2024-02-29".toList)]
  | 2 => .write "replace_note".toList [("path".toList, .string "Calendar/Days/2024-02-29.md".toList),
      ("content".toList, .string "done".toList), ("base_sha256".toList, .string (dayText "\nhello\n".toList))]

/-- The last call asks for the lock of the note before the append does and refreshes the index after the look. -/
def dayTurns : List (Fin 3 × Nat) := [(2, 3), (0, 104), (2, 48), (1, 45), (2, 35)]

/-- The calls beside each other, in turns. -/
theorem dayCalls_run : ∃ (current : Fin 3 → FrameworkProg ToolOutcome) (w : RuntimeWorld id) (past : Past (Fin 3) id),
    past.map Event.task = tasksOf dayTurns ∧
      Pool (recording fun i : Fin 3 => RuntimeEffect plainEngine openSetting i.val)
        (fun i => (dayCalls i).program plainService 5) (dayVault, []) current (w, past) ∧
      (∀ i, ∃ outcome, current i = .done outcome ∧ outcome.refresh = some (.ok ())) ∧
      w.vault.tree.content (dayFolder ++ [dayNote]) = some (.utf8 "done".toList) := by
  have finishes : (follow (fun i : Fin 3 => openScript.listed plainEngine dayKeys i.val) dayTurns
      (fun i => (dayCalls i).program plainService 5) dayVault).any (fun reached => decide
        ((∀ i, (reached.1 i).returned.any fun outcome => decide (outcome.refresh = some (.ok ()))) ∧
          reached.2.vault.tree.content (dayFolder ++ [dayNote]) = some (.utf8 "done".toList))) = true := by
    decide +kernel
  obtain ⟨⟨current, w⟩, ran, refreshed, written⟩ := option_any_decide.mp finishes
  obtain ⟨past, turns, pool⟩ := recording_schedule
    (fun i : Fin 3 => openScript_listed (show dayKeys.Nodup by decide) i.val) dayTree_among ran
  refine ⟨current, w, past, turns, pool, fun i => ?_, written⟩
  obtain ⟨outcome, returns, ok⟩ := option_any_decide.mp (refreshed i)
  exact ⟨outcome, Prog.returned_eq_some.mp returns, ok⟩

/-- The append, whose snapshot others have replaced since. -/
theorem index_fresh_day : ∃ (outcome : ToolOutcome) (w : RuntimeWorld id) (past : Past (Fin 3) id),
    past.map Event.task = tasksOf dayTurns ∧ outcome.refresh = some (.ok ()) ∧
    w.vault.tree.content (dayFolder ++ [dayNote]) = some (.utf8 "done".toList) ∧ ∃ p j n m, p ≤ n ∧ n < m ∧
      ((dayCalls 0).mutation plainService 5).Plays (answersOf 0 (past.take p)) (.ok outcome.reply) ∧
      Holding .indexRefresh j n (past.take m) ∧
      Snapshot plainEngine plainService.reader 5 (answersOf j ((past.take m).drop (n + 1))) w.index := by
  obtain ⟨current, w, past, turns, pool, finished, written⟩ := dayCalls_run
  obtain ⟨outcome, finished, refreshed⟩ := finished 0
  exact ⟨outcome, w, past, turns, refreshed, written, (index_fresh pool finished refreshed).2⟩

/-- Two of the publications, the later of which was begun after the earlier. -/
theorem publications_serial_day : ∃ (w : RuntimeWorld id) (past : Past (Fin 3) id),
    past.map Event.task = tasksOf dayTurns ∧ Latest plainEngine dayVault.index past w.index ∧
      ∃ (n m l : Nat) (event later : Event (Fin 3) RuntimeOp RuntimeOp.Resp (RuntimeWorld id))
        (tables tables' : IndexTables), past[m]? = some event ∧ past[l]? = some later ∧
        Publishes plainEngine event tables ∧ Publishes plainEngine later tables' ∧
        Holding .indexRefresh later.task n (past.take l) ∧ m < n ∧ n < l := by
  obtain ⟨current, w, past, turns, pool, finished, -⟩ := dayCalls_run
  obtain ⟨latest, ⟨begun, published⟩, -⟩ := publications_serial pool
  refine ⟨w, past, turns, latest, ?_⟩
  have ordered {m l : Nat} {event later : Event (Fin 3) RuntimeOp RuntimeOp.Resp (RuntimeWorld id)}
      {tables tables' : IndexTables} (first : past[m]? = some event) (second : past[l]? = some later)
      (publishes : Publishes plainEngine event tables) (publishes' : Publishes plainEngine later tables') (lt : m < l) :
      Holding .indexRefresh later.task (begun l) (past.take l) ∧ m < begun l ∧ begun l < l := by
    have holding := (published l later tables' second publishes').1
    have short := holding.lt
    rw [List.length_take] at short
    exact ⟨holding, (published m event tables first publishes).2.2 l later tables' second publishes' lt, by omega⟩
  have publication (i : Fin 3) : ∃ (m : Nat) (event : Event (Fin 3) RuntimeOp RuntimeOp.Resp (RuntimeWorld id))
      (tables : IndexTables), past[m]? = some event ∧ event.task = i ∧
      Publishes plainEngine event tables := by
    obtain ⟨outcome, returned, refreshed⟩ := finished i
    exact refreshed_publishes pool returned refreshed
  obtain ⟨m, event, tables, first, own, publishes⟩ := publication 0
  obtain ⟨l, later, tables', second, own', publishes'⟩ := publication 1
  rcases Nat.lt_trichotomy m l with lt | rfl | lt
  · exact ⟨begun l, m, l, event, later, tables, tables', first, second, publishes, publishes',
      ordered first second publishes publishes' lt⟩
  · obtain rfl : event = later := Option.some.inj (first.symm.trans second)
    rw [own] at own'
    cases own'
  · exact ⟨begun m, l, m, later, event, tables', tables, second, first, publishes', publishes,
      ordered second first publishes' publishes lt⟩

end SecondBrain
