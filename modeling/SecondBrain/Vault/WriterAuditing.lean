import SecondBrain.Vault.AuditRetention
import SecondBrain.Vault.WriterRuns

set_option autoImplicit false

/-! What the audit says about a call, against what the call did to the files. -/

namespace SecondBrain

open FileSystem (Tree Name Content FsPath FsOp IoError)

variable {fold : Name → Name}

namespace AuditStore

theorem insertAttempt_ok {store after : AuditStore} {row : AttemptRow}
    (ran : store.insertAttempt row = .ok after) : after = { store with
      writeAuditAttempts := store.writeAuditAttempts ++
        [{ row with id := store.writeAuditAttempts.length + 1 }] } := by
  simp only [insertAttempt] at ran
  split at ran
  · cases ran
    rfl
  · cases ran

theorem insertWrite_ok {store after : AuditStore} {row : WriteRow}
    (ran : store.insertWrite row = .ok after) : after = { store with
      writeAudit := store.writeAudit ++ [{ row with id := store.writeAudit.length + 1 }] } := by
  simp only [insertWrite] at ran
  split at ran
  · cases ran
    rfl
  · cases ran

/-- The terminal events of an attempt. -/
def terminals (store : AuditStore) (id : Text) : List AttemptRow :=
  store.writeAuditAttempts.filter fun row => row.attemptId = id ∧ row.eventType.terminal

/-- The hashes that the succeeded events name. -/
def succeededHashes (store : AuditStore) : List (Option Text) :=
  (store.writeAuditAttempts.filter fun row => row.eventType = .succeeded).map (·.resultSha256)

/-- Every attempt has at most one terminal event, and every succeeded event has a provenance
row of its own with the same hash. -/
structure Settled (store : AuditStore) : Prop where
  terminal : ∀ id, (store.terminals id).length ≤ 1
  provenance : store.succeededHashes.Sublist (store.writeAudit.map fun row => some row.resultSha256)

theorem settled_empty : AuditStore.empty.Settled := ⟨fun _ => by simp [terminals, empty], .refl _⟩

section Rows

variable {store : AuditStore} {row : AttemptRow}

theorem terminals_append (rows : List AttemptRow) (row : AttemptRow) (writes : List WriteRow) (id : Text) :
    terminals ⟨writes, rows ++ [row]⟩ id =
      terminals ⟨writes, rows⟩ id ++ if row.attemptId = id ∧ row.eventType.terminal then [row] else [] := by
  simp only [terminals, List.filter_append]
  congr 1
  by_cases hit : row.attemptId = id ∧ row.eventType.terminal
  · rw [List.filter_cons_of_pos (by simpa using hit), if_pos hit, List.filter_nil]
  · rw [List.filter_cons_of_neg (by simpa using hit), if_neg hit, List.filter_nil]

theorem terminals_closed {writes later : List WriteRow} {rows : List AttemptRow}
    (none' : terminals ⟨writes, rows⟩ row.attemptId = []) (ends : row.eventType.terminal) :
    terminals ⟨later, rows ++ [row]⟩ row.attemptId = [row] := by
  have none' : terminals ⟨later, rows⟩ row.attemptId = [] := none'
  rw [terminals_append, none', if_pos ⟨rfl, ends⟩, List.nil_append]

/-- At most one terminal event more, for an attempt without one. -/
theorem terminals_concat (fewer : ∀ id, (store.terminals id).length ≤ 1)
    (fresh : row.eventType.terminal → store.terminals row.attemptId = []) (writes : List WriteRow)
    (id : Text) : (terminals ⟨writes, store.writeAuditAttempts ++ [row]⟩ id).length ≤ 1 := by
  rw [terminals_append]
  split
  · rename_i hit
    obtain ⟨rfl, ends⟩ := hit
    have open' : terminals ⟨writes, store.writeAuditAttempts⟩ row.attemptId = [] := fresh ends
    rw [open', List.nil_append, List.length_singleton]
  · rw [List.append_nil]
    exact fewer id

theorem Settled.attempt (settled : store.Settled)
    (fresh : row.eventType.terminal → store.terminals row.attemptId = [])
    (kind : row.eventType ≠ .succeeded) :
    Settled { store with writeAuditAttempts := store.writeAuditAttempts ++ [row] } where
  terminal := terminals_concat settled.terminal fresh _
  provenance := by
    simpa [succeededHashes, List.filter_append, kind] using settled.provenance

theorem Settled.write (settled : store.Settled) (write : WriteRow) :
    Settled { store with writeAudit := store.writeAudit ++ [write] } where
  terminal := settled.terminal
  provenance := by
    rw [List.map_append]
    exact settled.provenance.trans (List.sublist_append_left _ _)

theorem Settled.completed {write : WriteRow} (settled : store.Settled)
    (fresh : store.terminals row.attemptId = []) (kind : row.eventType = .succeeded)
    (same : row.resultSha256 = some write.resultSha256) :
    Settled ⟨store.writeAudit ++ [write], store.writeAuditAttempts ++ [row]⟩ where
  terminal := terminals_concat settled.terminal (fun _ => fresh) _
  provenance := by
    have last : succeededHashes ⟨store.writeAudit ++ [write], store.writeAuditAttempts ++ [row]⟩ =
        store.succeededHashes ++ [some write.resultSha256] := by
      simp [succeededHashes, List.filter_append, kind, same]
    rw [last, List.map_append]
    exact settled.provenance.append (.refl _)

end Rows

/-- The attempt that began with the row `start` has no terminal event, and the query for
incomplete attempts lists it. -/
def Pending (store : AuditStore) (start : AttemptRow) : Prop :=
  store.terminals start.attemptId = [] ∧ ∀ limit, start ∈ store.listIncompleteWrites limit

/-- The newest row of a query is listed, whatever the limit. -/
theorem newest_listed {α : Type} (older : List α) (last : α) (limit : Option Int) :
    last ∈ (older ++ [last]).reverse.take (clampLimit limit) := by
  have some' : clampLimit limit = clampLimit limit - 1 + 1 := by
    unfold clampLimit
    omega
  rw [List.reverse_concat, some']
  exact List.mem_cons_self

/-- The newest start is listed, whatever the limit. -/
theorem pending_last {writes : List WriteRow} {rows : List AttemptRow} {start : AttemptRow}
    (kind : start.eventType = .started) (none' : terminals ⟨writes, rows ++ [start]⟩ start.attemptId = []) :
    Pending ⟨writes, rows ++ [start]⟩ start := by
  refine ⟨none', fun limit => ?_⟩
  have open' : unfinished ⟨writes, rows ++ [start]⟩ start.attemptId := by
    rw [unfinished, Bool.not_eq_true', List.any_eq_false]
    intro row inside ends
    exact List.filter_eq_nil_iff.mp none' row inside (by simpa using ends)
  have last : ∃ older, incomplete ⟨writes, rows ++ [start]⟩ = older ++ [start] := by
    unfold incomplete
    rw [List.filter_append, List.filter_cons_of_pos (by simp [kind, open']), List.filter_nil]
    exact ⟨_, rfl⟩
  obtain ⟨older, last⟩ := last
  rw [listIncompleteWrites, last]
  exact newest_listed older start limit

/-- The attempt succeeded, with a provenance row that keeps what the caller asked for and that the query for
recent writes lists. -/
def Succeeded (store : AuditStore) (start : AttemptRow) : Prop :=
  ∃ done write, store.terminals start.attemptId = [done] ∧ done.eventType = .succeeded ∧
    write ∈ store.writeAudit ∧ done.resultSha256 = some write.resultSha256 ∧
    start.operation = some write.operation ∧ start.path = some write.path ∧
    start.baseSha256 = write.baseSha256 ∧ ∀ limit, write ∈ store.listRecentWrites limit

end AuditStore

namespace Solo

variable {c : Solo fold} {aim : c.Aim} {attempt : Option Text} {audit : AuditStore} {w : World fold}

/-- The rows of a call follow those that were there. -/
theorem Started.rows (started : c.Started aim attempt audit) :
    audit.writeAudit = c.start.audit.writeAudit ∧
      (attempt = none ∧ audit = c.start.audit ∨ ∃ id now key, attempt = some id ∧
        (∀ row ∈ c.start.audit.writeAuditAttempts, row.attemptId ≠ id) ∧
        audit = { c.start.audit with writeAuditAttempts := c.start.audit.writeAuditAttempts ++
          [{ AuditStore.startedRow id (c.input aim) now with id := key }] }) := by
  rcases started with ⟨rfl, rfl⟩ | ⟨id, now, rfl, fresh, ran⟩
  · exact ⟨rfl, .inl ⟨rfl, rfl⟩⟩
  · have same := AuditStore.insertAttempt_ok ran
    exact ⟨by rw [same], .inr ⟨id, now, _, rfl, fresh, same⟩⟩

theorem Started.settled (started : c.Started aim attempt audit) (settled : c.start.audit.Settled) :
    audit.Settled := by
  obtain ⟨-, ⟨-, rfl⟩ | ⟨id, now, key, rfl, fresh, rfl⟩⟩ := started.rows
  · exact settled
  · exact settled.attempt nofun (by simp [AuditStore.startedRow])

/-- An attempt that was only started has no terminal event. -/
theorem Started.open {id : Text} (started : c.Started aim (some id) audit) : audit.terminals id = [] := by
  obtain ⟨-, ⟨none', -⟩ | ⟨_, now, key, ⟨⟩, fresh, rfl⟩⟩ := started.rows
  · cases none'
  · rw [AuditStore.terminals_append]
    refine List.append_eq_nil_iff.mpr ⟨List.filter_eq_nil_iff.mpr fun row inside => ?_, if_neg ?_⟩
    · simp [fresh row inside]
    · simp [AuditStore.startedRow, EventType.terminal]

/-- A note was made, removed or given other content, or a copy of it appeared. -/
def Changed (c : Solo fold) (w : World fold) : Prop :=
  ∃ key, w.tree.content key ≠ c.start.tree.content key ∧ ¬ Draft w key

/-- What the audit owes about a call: a settled store, in which nothing was added to earlier
attempts, and an attempt of a call that changed the notes is pending or succeeded. -/
structure Audited (c : Solo fold) (w : World fold) : Prop where
  settled : w.audit.Settled
  earlier : ∃ rows, w.audit.writeAuditAttempts = c.start.audit.writeAuditAttempts ++ rows ∧
    ∀ row ∈ rows, ∀ old ∈ c.start.audit.writeAuditAttempts, old.attemptId ≠ row.attemptId
  changed : c.Changed w → ∀ start ∈ w.audit.writeAuditAttempts,
    start ∉ c.start.audit.writeAuditAttempts → start.eventType = .started →
      w.audit.Pending start ∨ w.audit.Succeeded start

/-- No removal of a file fails in a deletion. -/
def Removes (c : Solo fold) : Prop :=
  c.request.mutation = .delete → ∀ file w error after, ¬ c.handler (.fs (.removeFile file)) w (.error error) after

/-- A call that failed has changed no note. -/
theorem failed_unchanged (removes : c.Removes) {phase : Phase} {checks : Checks}
    (at' : (c.attempt aim audit).At phase checks w) {error : VaultWriteError}
    (outcome : Outcome c.writer aim.path c.request.base c.request.mutation (.error error) phase) :
    ¬ c.Changed w := by
  rcases outcome.error_phase with ⟨known, id, rfl⟩ | ⟨current, target, rfl⟩
  · rintro ⟨key, differs, apart⟩
    rcases at'.files key with same | ⟨-, draft⟩
    · exact differs same
    · exact apart draft
  · obtain ⟨-, kind, -, file, before, refusal, after, refused⟩ := at'.facts
    exact absurd refused (removes kind file before refusal after)

/-- The row of a call is the only one that its attempt began with. -/
theorem only_start {rows : List AttemptRow} {start begun : AttemptRow}
    (inside : begun ∈ rows ++ [start]) (absent : begun ∉ rows) : begun = start :=
  (List.mem_append.mp inside).elim (fun old => absurd old absent) List.mem_singleton.mp

/-- While the outcome is not recorded. -/
theorem audited_open (started : c.Started aim attempt audit) (settled : c.start.audit.Settled)
    (same : w.audit = audit) : c.Audited w := by
  have now' := started.settled settled
  obtain ⟨-, ⟨-, rfl⟩ | ⟨id, now, key, rfl, fresh, rows⟩⟩ := started.rows
  · refine ⟨same ▸ now', ⟨[], by rw [same, List.append_nil], nofun⟩, fun _ start inside absent => ?_⟩
    rw [same] at inside
    exact absurd inside absent
  · have none' := started.open
    subst same
    refine ⟨now', ⟨_, by rw [rows], ?_⟩, fun _ start inside absent kind => .inl ?_⟩
    · rintro row inside old before
      rw [List.mem_singleton.mp inside]
      exact fresh old before
    · rw [rows] at inside none' ⊢
      obtain rfl := only_start inside absent
      exact AuditStore.pending_last kind none'

/-- After the outcome is recorded as a success. -/
theorem audited_completed (started : c.Started aim attempt audit) (settled : c.start.audit.Settled)
    {hash now : Text} (ran : audit.recordWriteCompleted (c.input aim) attempt hash now = .ok w.audit) :
    c.Audited w := by
  have before := started.settled settled
  obtain ⟨-, ⟨rfl, rfl⟩ | ⟨id, begun, key, rfl, fresh, rows⟩⟩ := started.rows
  · have same := AuditStore.insertWrite_ok ran
    refine ⟨same ▸ before.write _, ⟨[], by rw [same, List.append_nil], nofun⟩, fun _ start inside absent => ?_⟩
    rw [same] at inside
    exact absurd inside absent
  · have none' := started.open
    cases first : audit.insertAttempt (AuditStore.terminalRow id (.ok hash) now) with
    | error error => simp [AuditStore.recordWriteCompleted, first, bind, Except.bind] at ran
    | ok middle =>
      simp only [AuditStore.recordWriteCompleted, first, bind, Except.bind] at ran
      have same := AuditStore.insertWrite_ok ran
      rw [AuditStore.insertAttempt_ok first] at same
      refine ⟨?_, ?_, fun _ start inside absent kind => .inr ?_⟩
      · rw [same]
        exact before.completed none' rfl rfl
      · refine ⟨[_, _], by rw [same, rows, List.append_assoc]; rfl, ?_⟩
        rintro row inside old old'
        rcases List.mem_pair.mp inside with rfl | rfl <;> exact fresh old old'
      · rw [same, rows] at inside
        rcases List.mem_append.mp inside with begins | ends
        · obtain rfl := only_start begins absent
          refine ⟨{ AuditStore.terminalRow id (.ok hash) now with id := audit.writeAuditAttempts.length + 1 },
            { AuditStore.writeRow (c.input aim) hash now with id := audit.writeAudit.length + 1 },
            ?_, rfl, ?_, rfl, rfl, rfl, rfl, fun limit => ?_⟩
          · rw [same]
            exact AuditStore.terminals_closed none' rfl
          · rw [same]
            exact List.mem_append_right _ (List.mem_singleton_self _)
          · rw [same]
            exact AuditStore.newest_listed audit.writeAudit _ limit
        · rw [List.mem_singleton.mp ends] at kind
          cases kind

/-- After the outcome is recorded as a failure. -/
theorem audited_failed (started : c.Started aim attempt audit) (settled : c.start.audit.Settled)
    (still : ¬ c.Changed w) {id message now : Text} (known : attempt = some id)
    (ran : audit.recordWriteFailed id message now = .ok w.audit) : c.Audited w := by
  have before := started.settled settled
  subst known
  have none' := started.open
  obtain ⟨-, ⟨none'', -⟩ | ⟨_, begun, key, ⟨⟩, fresh, rows⟩⟩ := started.rows
  · cases none''
  · have same := AuditStore.insertAttempt_ok ran
    refine ⟨?_, ⟨[_, _], by rw [same, rows, List.append_assoc]; rfl, ?_⟩, fun changed => absurd changed still⟩
    · rw [same]
      exact before.attempt (fun _ => none') (by simp [AuditStore.terminalRow, Except.isOk, Except.toBool])
    · rintro row inside old old'
      rcases List.mem_pair.mp inside with rfl | rfl <;> exact fresh old old'

theorem Stage.audited (stage : c.Stage w) (removes : c.Removes) (settled : c.start.audit.Settled) :
    c.Audited w := by
  cases stage with
  | locking tree same =>
    refine ⟨same ▸ settled, ⟨[], by rw [same, List.append_nil], nofun⟩, fun _ start inside absent => ?_⟩
    rw [same] at inside
    exact absurd inside absent
  | applying aim started at' => exact audited_open started settled at'.audit
  | ended aim started at' outcome closed =>
    rcases closed with same | ⟨value, now, -, ran⟩ | ⟨error, id, now, rfl, known, ran⟩
    · exact audited_open started settled same
    · exact audited_completed started settled ran
    · have still := failed_unchanged removes at' outcome
      exact audited_failed started settled still known ran

/-- In every run whose removals of notes succeed, whatever else fails and wherever it stops. -/
theorem audit_tells (c : Solo fold) (removes : c.Removes) (settled : c.start.audit.Settled) (fuel : Nat)
    {q : WriterProg WriteResult} {w : World fold}
    (reach : Prog.Reach c.handler (c.writer.run c.request fuel) c.start q w) : c.Audited w := by
  have started : c.Stage c.start := .locking rfl rfl c.undrawn
  exact Stage.audited ((run_safe c fuel).reach started (fun owes => owes.stage) reach) removes settled

end Solo

/-- A creation, in which nothing can be removed in vain. -/
def plainCreation : VaultWriter.WriteCall :=
  ⟨"b.md".toList, none, .create "text".toList none, by simp⟩

theorem plainCreation_named (path : Text) (normalized : normalizeVaultPath plainCreation.path = .ok path) :
    ∀ other ∈ components path, other.getLast? ≠ some 'p' := by
  have told : normalizeVaultPath plainCreation.path = .ok "b.md".toList := by decide +kernel
  obtain rfl : path = "b.md".toList := Except.ok.inj (normalized.symm.trans told)
  have single : components "b.md".toList = ["b.md".toList] := by decide +kernel
  intro other inside
  rw [single, List.mem_singleton] at inside
  rw [inside]
  decide

def plainCreate : Solo id :=
  plainSolo (plainVault "a.md".toList "hello".toList) plainVault_undrawn plainCreation plainCreation_named

/-- A creation that succeeds although the temporary file stays behind. -/
theorem audit_tells_created :
    ∃ result w, (plainWriter.run plainCreation 1).exec
        ((plainScript fun op => match op with | .removeFile _ => true | _ => false).run 0)
        plainCreate.start = some (result, w) ∧ plainCreate.Audited w := by
  have ends : ((plainWriter.run plainCreation 1).exec
      ((plainScript fun op => match op with | .removeFile _ => true | _ => false).run 0)
      plainCreate.start).isSome := by decide +kernel
  obtain ⟨⟨result, w⟩, ran⟩ := Option.isSome_iff_exists.mp ends
  exact ⟨result, w, ran, plainCreate.audit_tells nofun AuditStore.settled_empty 1 (plainSolo_reach ran)⟩

/-- A deletion that could not remove the note after linking it into the trash: the copy is
there, and the attempt is recorded as failed and no longer listed. -/
theorem deletion_misreported :
    ∃ result w, Prog.Reach plainDelete.handler (plainDelete.writer.run plainDelete.request 1)
        plainDelete.start (Prog.ofResult result) w ∧
      w.tree.content ["v".toList, ".trash".toList, "a.md".toList] = some (.utf8 "hello".toList) ∧
      w.audit.writeAuditAttempts.map (fun row => (row.attemptId, row.eventType)) =
        [([], .started), ([], .failed)] ∧ w.audit.listIncompleteWrites none = [] ∧
      ¬ plainDelete.Audited w := by
  have told : ((plainWriter.run plainDeletion 1).exec ((plainScript failsUnlink).run 0)
      plainDelete.start).map (fun r => (r.2.tree.content ["v".toList, ".trash".toList, "a.md".toList],
        r.2.audit.writeAuditAttempts.map fun row => (row.attemptId, row.eventType),
        r.2.audit.listIncompleteWrites none, r.2.drawn.length)) =
      some (some (.utf8 "hello".toList), [([], .started), ([], .failed)], [], 0) := by decide +kernel
  obtain ⟨⟨result, w⟩, ran, shown⟩ := Option.map_eq_some_iff.mp told
  simp only [Prod.mk.injEq] at shown
  obtain ⟨copied, events, unlisted, undrawn⟩ := shown
  refine ⟨result, w, plainSolo_reach ran, copied, events, unlisted, fun audited => ?_⟩
  have changed : plainDelete.Changed w := by
    refine ⟨["v".toList, ".trash".toList, "a.md".toList], ?_, fun ⟨_, _, _, drawn, _⟩ => ?_⟩
    · rw [copied]
      decide +kernel
    · rw [List.eq_nil_of_length_eq_zero undrawn] at drawn
      cases drawn
  obtain ⟨start, inside, begun⟩ : ∃ start ∈ w.audit.writeAuditAttempts, start.eventType = .started := by
    have first : (([] : Text), EventType.started) ∈
        w.audit.writeAuditAttempts.map fun row => (row.attemptId, row.eventType) := by simp [events]
    obtain ⟨start, inside, same⟩ := List.mem_map.mp first
    exact ⟨start, inside, congrArg Prod.snd same⟩
  rcases audited.changed changed start inside nofun begun with pending | succeeded
  · have listed := pending.2 none
    rw [unlisted] at listed
    cases listed
  · obtain ⟨done, _, only, kind, _⟩ := succeeded
    have member : done ∈ w.audit.terminals start.attemptId := by simp [only]
    have event := List.mem_map_of_mem (f := fun row : AttemptRow => (row.attemptId, row.eventType))
      (List.mem_of_mem_filter member)
    rw [events] at event
    simp [kind] at event

end SecondBrain
