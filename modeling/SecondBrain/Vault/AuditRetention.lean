import SecondBrain.Vault.AuditRotation
import Mathlib.Data.List.Count
import Mathlib.Data.List.Nodup

set_option autoImplicit false

namespace SecondBrain

open Protocol

theorem AuditStore.insertAttempt_rows {store after : AuditStore} {row : AttemptRow}
    (ran : store.insertAttempt row = .ok after) :
    ∃ added, after = { store with writeAuditAttempts := store.writeAuditAttempts ++ [added] } := by
  simp only [AuditStore.insertAttempt] at ran
  split at ran
  · cases ran
    exact ⟨_, rfl⟩
  · cases ran

theorem AuditStore.insertWrite_rows {store after : AuditStore} {row : WriteRow}
    (ran : store.insertWrite row = .ok after) :
    ∃ added, after = { store with writeAudit := store.writeAudit ++ [added] } := by
  simp only [AuditStore.insertWrite] at ran
  split at ran
  · cases ran
    exact ⟨_, rfl⟩
  · cases ran

/-- Recording appends to the tables. -/
theorem AuditEvent.record_rows {event : AuditEvent} {store after : AuditStore} {now : Text}
    (ran : event.record store now = .ok after) :
    store.writeAudit.Sublist after.writeAudit ∧
      store.writeAuditAttempts.Sublist after.writeAuditAttempts := by
  have attempt (row : AttemptRow) {store after : AuditStore}
      (ran : store.insertAttempt row = .ok after) :
      store.writeAudit.Sublist after.writeAudit ∧
        store.writeAuditAttempts.Sublist after.writeAuditAttempts := by
    obtain ⟨added, rfl⟩ := AuditStore.insertAttempt_rows ran
    exact ⟨.refl _, List.sublist_append_left _ _⟩
  have write {store after : AuditStore} {row : WriteRow} (ran : store.insertWrite row = .ok after) :
      store.writeAudit.Sublist after.writeAudit ∧
        store.writeAuditAttempts.Sublist after.writeAuditAttempts := by
    obtain ⟨added, rfl⟩ := AuditStore.insertWrite_rows ran
    exact ⟨List.sublist_append_left _ _, .refl _⟩
  cases event with
  | started id input => exact attempt (AuditStore.startedRow id input now) ran
  | succeeded id hash => exact attempt (AuditStore.terminalRow id (.ok hash) now) ran
  | failed id message => exact attempt (AuditStore.terminalRow id (.error message) now) ran
  | write input hash => exact write ran
  | completed input attemptId hash =>
    simp only [AuditEvent.record, AuditStore.recordWriteCompleted] at ran
    cases attemptId with
    | none => exact write ran
    | some id =>
      cases first : store.insertAttempt (AuditStore.terminalRow id (.ok hash) now) with
      | error error => simp [first, bind, Except.bind] at ran
      | ok middle =>
        simp only [first, bind, Except.bind] at ran
        exact ⟨(attempt _ first).1.trans (write ran).1, (attempt _ first).2.trans (write ran).2⟩

theorem AuditEvent.record_perm {event : AuditEvent} {store after : AuditStore} {now : Text}
    (ran : event.record store now = .ok after) :
    (AuditFile.database after).rows.Perm ((AuditFile.database store).rows ++
      (AuditFile.database after).rows.diff (AuditFile.database store).rows) := by
  obtain ⟨writes, attempts⟩ := record_rows ran
  have grows : (AuditFile.database store).rows.Sublist (AuditFile.database after).rows :=
    (writes.map _).append (attempts.map _)
  exact (List.subperm_append_diff_self_of_count_le fun row _ => grows.count_le row).symm

def AuditDisk.rows (disk : AuditDisk) : List AuditRow :=
  (disk.live.map AuditFile.rows).getD [] ++ disk.archives.flatMap fun archive => archive.2.rows

@[simp] theorem AuditFile.rows_empty : AuditFile.empty.rows = [] := rfl

def AuditFile.settled : AuditFile → Prop
  | .empty => True
  | .database store => store.incomplete = []

/-- The history of a ledger is kept: every committed row is in one place, and no archive holds
an attempt that is still open. -/
structure Ledger.Kept (l : Ledger) : Prop where
  accounted : l.disk.rows.Perm l.committed
  distinct : (l.disk.archives.map Prod.fst).Nodup
  settled : ∀ name file, l.disk.archive name = some file → file.settled

/-- Every archive file of `old` is in `l`, as it was. -/
def Ledger.Preserves (l old : Ledger) : Prop :=
  ∀ name file, old.disk.archive name = some file → l.disk.archive name = some file

theorem Ledger.fresh_kept : Ledger.fresh.Kept :=
  ⟨.refl _, List.nodup_nil, fun _ _ found => by simp [Ledger.fresh, AuditDisk.archive] at found⟩

theorem archive_split {archives : List (Text × AuditFile)} {name : Text} {file : AuditFile}
    (found : archives.lookup name = some file) :
    ∃ before after, archives = before ++ (name, file) :: after ∧
      archives.eraseP (·.1 = name) = before ++ after := by
  obtain ⟨before, after, rfl, other⟩ := List.lookup_eq_some_iff.mp found
  refine ⟨before, after, rfl, ?_⟩
  rw [List.eraseP_append_right, List.eraseP_cons_of_pos (by simp)]
  intro entry inside same
  have different := other entry inside
  simp_all

theorem lookup_insert_ne {before after : List (Text × AuditFile)} {name other : Text}
    {file : AuditFile} (different : other ≠ name) :
    (before ++ (name, file) :: after).lookup other = (before ++ after).lookup other := by
  rw [List.lookup_append, List.lookup_append, List.lookup_cons, beq_false_of_ne different]

/-- The names that the running rotation may bind or drop: placeholders of its own. -/
def Ledger.Reserved (l old : Ledger) (name : Text) : Prop :=
  l.disk.archive name = some .empty ∧ old.disk.archive name = none

/-- The archives of `l` around a reserved placeholder. -/
theorem Ledger.Kept.around {l old : Ledger} {name : Text} (kept : l.Kept)
    (reserved : l.Reserved old name) :
    ∃ before rest, l.disk.archives = before ++ (name, .empty) :: rest ∧
      l.disk.archives.eraseP (·.1 = name) = before ++ rest ∧
      ((before ++ rest).map Prod.fst).Nodup ∧ name ∉ (before ++ rest).map Prod.fst ∧
      ∀ other file, other ≠ name →
        ((before ++ rest).lookup other = some file ↔ l.disk.archive other = some file) := by
  obtain ⟨before, rest, split, erased⟩ := archive_split reserved.1
  have names : (name :: (before ++ rest).map Prod.fst).Nodup := by
    have distinct := kept.distinct
    rw [split, List.map_append, List.map_cons] at distinct
    rw [List.map_append]
    exact List.perm_middle.nodup_iff.mp distinct
  refine ⟨before, rest, split, erased, (List.nodup_cons.mp names).2,
    (List.nodup_cons.mp names).1, fun other file different => ?_⟩
  rw [AuditDisk.archive, split, lookup_insert_ne different]

/-- Adding a file under a name that no archive has. -/
theorem archives_append {archives : List (Text × AuditFile)} {name : Text} (file : AuditFile)
    (distinct : (archives.map Prod.fst).Nodup) (fresh : name ∉ archives.map Prod.fst) :
    ((archives ++ [(name, file)]).map Prod.fst).Nodup ∧
      ∀ other found, (archives ++ [(name, file)]).lookup other = some found ↔
        archives.lookup other = some found ∨ other = name ∧ found = file := by
  constructor
  · rw [List.map_append, List.nodup_append]
    refine ⟨distinct, by simp, fun other inside single listed same => fresh ?_⟩
    rw [List.map_singleton, List.mem_singleton] at listed
    have same' : other = name := same.trans listed
    exact same' ▸ inside
  · intro other found
    have absent : archives.lookup name = none := by
      rw [List.lookup_eq_none_iff]
      intro entry inside
      simp only [bne_iff_ne, ne_eq]
      exact fun same => fresh (List.mem_map.mpr ⟨entry, inside, same.symm⟩)
    rw [List.lookup_append, Option.or_eq_some_iff]
    by_cases same : other = name
    · subst same
      simp [absent, eq_comm]
    · simp [same, List.lookup_cons, beq_false_of_ne same]

/-- What a call needs so that the history is kept. -/
def AuditOp.Permitted (l old : Ledger) : AuditOp → Prop
  | renameLive name => l.Reserved old name ∧ ∀ file, l.disk.live = some file → file.settled
  | removeArchive name => l.Reserved old name
  | _ => True

theorem Ledger.Kept.reserve {l old : Ledger} {name : Text} (kept : l.Kept)
    (preserves : l.Preserves old) (vacant : l.disk.archive name = none) :
    ({ l with disk.archives := l.disk.archives ++ [(name, .empty)] } : Ledger).Kept ∧
      ({ l with disk.archives := l.disk.archives ++ [(name, .empty)] } : Ledger).Preserves old := by
  have fresh : name ∉ l.disk.archives.map Prod.fst := by
    intro inside
    obtain ⟨entry, member, rfl⟩ := List.mem_map.mp inside
    simpa using List.lookup_eq_none_iff.mp vacant entry member
  obtain ⟨distinct, lookup⟩ := archives_append .empty kept.distinct fresh
  refine ⟨⟨?_, distinct, ?_⟩, ?_⟩
  · simpa [AuditDisk.rows, AuditFile.rows] using kept.accounted
  · intro other file found
    rcases (lookup other file).mp found with found | ⟨-, rfl⟩
    · exact kept.settled other file found
    · trivial
  · exact fun other file found => (lookup other file).mpr (.inl (preserves other file found))

theorem Ledger.Kept.renameLive {l old : Ledger} {name : Text} {file : AuditFile} (kept : l.Kept)
    (preserves : l.Preserves old) (reserved : l.Reserved old name)
    (found : l.disk.live = some file) (settled : file.settled) :
    ({ l with disk.live := none
              disk.archives := l.disk.archives.eraseP (·.1 = name) ++ [(name, file)] } :
        Ledger).Kept ∧
      ({ l with disk.live := none
                disk.archives := l.disk.archives.eraseP (·.1 = name) ++ [(name, file)] } :
        Ledger).Preserves old := by
  obtain ⟨before, rest, split, erased, distinct, fresh, others⟩ := kept.around reserved
  rw [erased]
  obtain ⟨distinct, lookup⟩ := archives_append file distinct fresh
  have different {other : Text} {bound : AuditFile}
      (inside : (before ++ rest).lookup other = some bound) : other ≠ name := by
    rintro rfl
    obtain ⟨left, right, same, -⟩ := List.lookup_eq_some_iff.mp inside
    exact fresh (by rw [same]; simp)
  refine ⟨⟨?_, distinct, ?_⟩, ?_⟩
  · refine List.Perm.trans ?_ kept.accounted
    simp only [AuditDisk.rows, split, found, Option.map_none, Option.getD_none, Option.map_some,
      Option.getD_some, List.flatMap_append, List.flatMap_cons, List.flatMap_nil, List.nil_append,
      List.append_nil, AuditFile.rows_empty]
    exact List.perm_append_comm
  · intro other bound inside
    rcases (lookup other bound).mp inside with inside | ⟨-, rfl⟩
    · exact kept.settled other bound ((others other bound (different inside)).mp inside)
    · exact settled
  · intro other bound inside
    refine (lookup other bound).mpr (.inl ((others other bound ?_).mpr (preserves other bound inside)))
    rintro rfl
    rw [reserved.2] at inside
    cases inside

theorem Ledger.Kept.removeArchive {l old : Ledger} {name : Text} (kept : l.Kept)
    (preserves : l.Preserves old) (reserved : l.Reserved old name) :
    ({ l with disk.archives := l.disk.archives.eraseP (·.1 = name) } : Ledger).Kept ∧
      ({ l with disk.archives := l.disk.archives.eraseP (·.1 = name) } : Ledger).Preserves old := by
  obtain ⟨before, rest, split, erased, distinct, fresh, others⟩ := kept.around reserved
  rw [erased]
  refine ⟨⟨?_, distinct, ?_⟩, ?_⟩
  · refine List.Perm.trans ?_ kept.accounted
    simp [AuditDisk.rows, split]
  · intro other bound inside
    refine kept.settled other bound ((others other bound ?_).mp inside)
    rintro rfl
    obtain ⟨left, right, same, -⟩ := List.lookup_eq_some_iff.mp inside
    change before ++ rest = _ at same
    exact fresh (by rw [same]; simp)
  · intro other bound inside
    refine (others other bound ?_).mpr (preserves other bound inside)
    rintro rfl
    rw [reserved.2] at inside
    cases inside

/-- The step lemma: a permitted call keeps the history, whatever it answers. -/
theorem AuditEffect.kept {op : AuditOp} {l after old : Ledger} {answer : op.Resp}
    (effect : AuditEffect op l answer after) (permitted : op.Permitted l old) (kept : l.Kept)
    (preserves : l.Preserves old) : after.Kept ∧ after.Preserves old := by
  cases effect with
  | tryExists | countWrites | hasPending | now | uniqueId | reserved | noDirectory | noLive |
    rejected | fault => exact ⟨kept, preserves⟩
  | connect =>
    refine ⟨⟨?_, kept.distinct, kept.settled⟩, preserves⟩
    have accounted := kept.accounted
    cases found : l.disk.live <;> simpa [AuditDisk.rows, found] using accounted
  | createArchiveDir => exact ⟨⟨kept.accounted, kept.distinct, kept.settled⟩, preserves⟩
  | reserve made vacant => exact kept.reserve preserves vacant
  | renameLive found => exact kept.renameLive preserves permitted.1 found (permitted.2 _ found)
  | removeArchive => exact kept.removeArchive preserves permitted
  | @createTables _ file found =>
    refine ⟨⟨?_, kept.distinct, kept.settled⟩, preserves⟩
    have accounted := kept.accounted
    cases file <;> simpa [AuditDisk.rows, found, AuditFile.rows, AuditStore.empty] using accounted
  | record found ran =>
    refine ⟨⟨?_, kept.distinct, kept.settled⟩, preserves⟩
    have accounted := kept.accounted
    simp only [AuditDisk.rows, found, Option.map_some, Option.getD_some] at accounted ⊢
    refine ((AuditEvent.record_perm ran).append_right _).trans ?_
    rw [List.append_assoc]
    refine (List.perm_append_comm.append_left _).trans ?_
    rw [← List.append_assoc]
    exact accounted.append_right _

/-- What a session owes the ledger `old` it started from. -/
def Ledger.Intact (old l : Ledger) : Prop := l.Kept ∧ l.Preserves old

abbrev retention (old : Ledger) : Protocol AuditOp AuditOp.Resp Ledger Ledger :=
  sequential AuditEffect fun _ t => old.Intact t

open AuditProg (call)

section Programs

variable {old l : Ledger}

/-- A permitted call followed by the rest of the program. -/
theorem AuditProg.call_safe {α : Type} {op : AuditOp} {rest : op.Resp → AuditProg α}
    {post : Except AuditError α → Ledger → Prop} (intact : old.Intact l)
    (permitted : op.Permitted l old)
    (continues : ∀ answer after, AuditEffect op l answer after → old.Intact after →
      (retention old).Safe post (rest answer) after) :
    (retention old).Safe post ((call op).bind rest) l := by
  refine sequential_call.mpr fun answer after effect => ?_
  have kept := effect.kept permitted intact.1 intact.2
  exact ⟨kept, continues answer after effect kept⟩

theorem AuditProg.answer_safe {α β δ : Type} {convert : δ → AuditError} {answer : Except δ β}
    {rest : β → AuditProg α} {post : Except AuditError α → Ledger → Prop}
    (failed : ∀ error, post (.error error) l)
    (continues : ∀ value, answer = .ok value → (retention old).Safe post (rest value) l) :
    (retention old).Safe post ((Prog.ofExcept convert answer).bind rest) l := by
  cases answer with
  | ok value => exact continues value rfl
  | error error => exact sequential_fail.mpr (failed _)

/-- The reservation leaves the live store alone and ends with a placeholder of its own. -/
theorem reserveArchive_safe {timestamp : Text} {fuel : Nat} {destination : Text}
    (intact : old.Intact l) :
    (retention old).Safe (fun result after => old.Intact after ∧ after.disk.live = l.disk.live ∧
      ∀ name, result = .ok name → after.Reserved old name) (reserveArchive timestamp fuel destination) l := by
  induction fuel generalizing l destination with
  | zero =>
    refine AuditProg.call_safe intact trivial fun never _ _ _ => ?_
    exact nomatch never
  | succ fuel ih =>
    refine AuditProg.call_safe intact trivial fun answer after effect kept => ?_
    cases effect with
    | reserve made vacant =>
      refine sequential_done.mpr ⟨kept, rfl, ?_⟩
      rintro _ ⟨⟩
      refine ⟨?_, ?_⟩
      · simp only [AuditDisk.archive] at vacant ⊢
        rw [List.lookup_append, vacant]
        simp
      · rw [← Option.not_isSome_iff_eq_none]
        intro present
        obtain ⟨file, bound⟩ := Option.isSome_iff_exists.mp present
        rw [intact.2 destination file bound] at vacant
        cases vacant
    | reserved taken =>
      refine AuditProg.call_safe kept trivial fun id after effect kept => ?_
      cases effect with
      | uniqueId => exact ih kept
      | fault fails => cases fails
    | noDirectory => exact sequential_fail.mpr ⟨kept, rfl, by rintro _ ⟨⟩⟩
    | fault fails =>
      cases fails
      exact sequential_fail.mpr ⟨kept, rfl, by rintro _ ⟨⟩⟩

theorem archiveAt_safe {now : UtcTime} {fuel : Nat} (intact : old.Intact l)
    (settled : ∀ file, l.disk.live = some file → file.settled) :
    (retention old).Safe (fun _ => old.Intact) (archiveAt now fuel) l := by
  refine Safe.bind (reserveArchive_safe intact) ?_ fun error after reserved => reserved.1
  rintro destination after ⟨intact, live, reserved⟩
  have own := reserved destination rfl
  rw [← live] at settled
  refine AuditProg.call_safe intact ⟨own, settled⟩ fun answer after effect kept => ?_
  have failure {error : FileSystem.IoError} (l : Ledger) (own : l.Reserved old destination)
      (intact : old.Intact l) :
      (retention old).Safe (fun _ => old.Intact) (do
        let _ ← call (.removeArchive destination)
        .fail (.io error) : AuditProg Text) l :=
    AuditProg.call_safe intact own fun _ _ _ kept => sequential_fail.mpr kept
  cases effect with
  | renameLive found => exact sequential_done.mpr kept
  | noLive => exact failure _ own intact
  | fault fails =>
    cases fails
    exact failure _ own intact

theorem canRotate_safe {maxRows : Nat} (intact : old.Intact l) :
    (retention old).Safe (fun result after => old.Intact after ∧
      (result = .ok true → ∀ file, after.disk.live = some file → file.settled)) (canRotate maxRows) l := by
  refine AuditProg.call_safe intact trivial fun connected l _ intact => ?_
  refine AuditProg.answer_safe (fun _ => ⟨intact, by rintro ⟨⟩⟩) fun _ _ => ?_
  refine AuditProg.call_safe intact trivial fun count l _ intact => ?_
  split
  · exact sequential_done.mpr ⟨intact, by rintro ⟨⟩⟩
  refine AuditProg.call_safe intact trivial fun pending after effect kept => ?_
  refine AuditProg.answer_safe (fun _ => ⟨kept, by rintro ⟨⟩⟩) fun pending' answered => ?_
  refine sequential_done.mpr ⟨kept, fun none' file live => ?_⟩
  cases effect with
  | hasPending found =>
    cases answered
    rw [found] at live
    cases live
    simpa [AuditFile.settled] using none'
  | fault fails =>
    cases fails
    cases answered

theorem rotateWriteAuditIfNeeded_safe {path : Text} {maxRows fuel : Nat} (intact : old.Intact l) :
    (retention old).Safe (fun _ => old.Intact) (rotateWriteAuditIfNeeded path maxRows fuel) l := by
  unfold rotateWriteAuditIfNeeded
  split
  · exact sequential_done.mpr intact
  refine AuditProg.call_safe intact trivial fun present l _ intact => ?_
  refine AuditProg.answer_safe (fun _ => intact) fun present _ => ?_
  split
  · exact sequential_done.mpr intact
  refine Safe.bind (canRotate_safe intact) ?_ fun _ _ holds => holds.1
  rintro rotates after ⟨intact, settled⟩
  split
  · exact sequential_done.mpr intact
  rename_i allowed
  have settled := settled (by simpa using allowed)
  refine AuditProg.call_safe intact trivial fun made after effect intact => ?_
  refine AuditProg.answer_safe (fun _ => intact) fun _ answered => ?_
  refine AuditProg.call_safe intact trivial fun now later timed intact => ?_
  refine Safe.bind (archiveAt_safe intact ?_) (fun name after intact => ?_) fun _ _ => id
  case refine_2 =>
    change (retention old).Safe _ (.done (some name)) after
    exact sequential_done.mpr intact
  cases timed with
  | now =>
    cases effect with
    | createArchiveDir => exact settled
    | fault => exact settled
  | fault fails => cases fails

theorem openStore_safe (intact : old.Intact l) :
    (retention old).Safe (fun _ => old.Intact) openStore l := by
  refine AuditProg.call_safe intact trivial fun connected l _ intact => ?_
  refine AuditProg.answer_safe (fun _ => intact) fun _ _ => ?_
  refine AuditProg.call_safe intact trivial fun created l _ intact => ?_
  cases created with
  | ok value => exact sequential_done.mpr intact
  | error error => exact sequential_fail.mpr intact

theorem recordAll_safe {events : List AuditEvent} (intact : old.Intact l) :
    (retention old).Safe (fun _ => old.Intact) (recordAll events) l := by
  induction events generalizing l with
  | nil => exact sequential_done.mpr intact
  | cons event events ih => exact AuditProg.call_safe intact trivial fun _ l _ intact => ih intact

theorem Session.program_safe (session : Session) (intact : old.Intact l) :
    (retention old).Safe (fun _ => old.Intact) session.program l :=
  Safe.bind (rotateWriteAuditIfNeeded_safe intact)
    (fun _ _ intact => Safe.bind (openStore_safe intact) (fun _ _ => recordAll_safe) fun _ _ => id)
    fun _ _ => id

end Programs

/-- Wherever a session stops, it leaves the history it found intact. -/
theorem Session.intact {session : Session} {before after : Ledger} {rest : AuditProg Unit}
    (kept : before.Kept) (reach : Prog.Reach AuditEffect session.program before rest after) :
    before.Intact after :=
  have intact : before.Intact before := ⟨kept, fun _ _ => id⟩
  (session.program_safe intact).reach intact id reach

theorem Sessions.intact {start l : Ledger} (sessions : Sessions start l) (kept : start.Kept) :
    start.Intact l := by
  induction sessions with
  | start => exact ⟨kept, fun _ _ => id⟩
  | session session previous reach ih =>
    have last := session.intact ih.1 reach
    exact ⟨last.1, fun name file bound => last.2 name file (ih.2 name file bound)⟩

/-- A started attempt of which no terminal event was ever committed. -/
def Ledger.Pending (l : Ledger) (row : AttemptRow) : Prop :=
  .attempt row ∈ l.committed ∧ row.eventType = .started ∧
    ∀ other, .attempt other ∈ l.committed → other.attemptId = row.attemptId →
      other.eventType.terminal = false

theorem AuditFile.mem_rows {file : AuditFile} {row : AttemptRow} (member : .attempt row ∈ file.rows) :
    ∃ store, file = .database store ∧ row ∈ store.writeAuditAttempts := by
  cases file with
  | empty => simp at member
  | database store => exact ⟨store, rfl, by simpa [AuditFile.rows] using member⟩

/-- A pending attempt is incomplete in whatever store its start is in. -/
theorem Ledger.Pending.incomplete {l : Ledger} {row : AttemptRow} {store : AuditStore}
    (pending : l.Pending row) (kept : l.Kept) (held : ∀ other, other ∈ (AuditFile.database store).rows →
      other ∈ l.disk.rows) (member : row ∈ store.writeAuditAttempts) : row ∈ store.incomplete := by
  refine List.mem_filter.mpr ⟨member, ?_⟩
  simp only [pending.2.1, decide_true, Bool.true_and, AuditStore.unfinished, Bool.not_eq_true',
    List.any_eq_false, Bool.and_eq_true, decide_eq_true_eq, not_and, Bool.not_eq_true]
  intro other inside same
  refine pending.2.2 other (kept.accounted.mem_iff.mp (held _ ?_)) same
  simp [AuditFile.rows, inside]

theorem Ledger.Pending.live {l : Ledger} {row : AttemptRow} (pending : l.Pending row) (kept : l.Kept) :
    ∃ store, l.disk.live = some (.database store) ∧ row ∈ store.incomplete := by
  have present := kept.accounted.mem_iff.mpr pending.1
  rcases List.mem_append.mp present with inLive | archived
  · cases found : l.disk.live with
    | none => simp [found] at inLive
    | some file =>
      rw [found] at inLive
      obtain ⟨store, rfl, member⟩ := AuditFile.mem_rows inLive
      refine ⟨store, rfl, pending.incomplete kept (fun other inside => ?_) member⟩
      exact List.mem_append_left _ (by rw [found]; exact inside)
  · obtain ⟨⟨name, file⟩, inside, member⟩ := List.mem_flatMap.mp archived
    obtain ⟨store, same, started⟩ := AuditFile.mem_rows member
    cases same
    have listed := pending.incomplete kept (fun other held =>
      List.mem_append_right _ (List.mem_flatMap.mpr ⟨_, inside, held⟩)) started
    have settled := kept.settled name (.database store)
      (List.lookup_eq_some_iff.mpr ?_)
    · rw [settled] at listed
      simp at listed
    · obtain ⟨before, after, split⟩ := List.append_of_mem inside
      refine ⟨before, after, split, fun entry earlier => ?_⟩
      have distinct := kept.distinct
      rw [split, List.map_append, List.map_cons, List.nodup_append] at distinct
      exact bne_iff_ne.mpr fun same =>
        distinct.2.2 entry.1 (List.mem_map_of_mem earlier) name (by simp) same.symm

theorem AuditStore.listed {store : AuditStore} {row : AttemptRow} (member : row ∈ store.incomplete) :
    ∃ older newer, store.incomplete = older ++ row :: newer ∧
      ∀ limit, newer.length < clampLimit limit → row ∈ store.listIncompleteWrites limit := by
  obtain ⟨older, newer, split⟩ := List.append_of_mem member
  refine ⟨older, newer, split, fun limit few => ?_⟩
  have shape : store.incomplete.reverse = (newer.reverse ++ [row]) ++ older.reverse := by
    simp [split]
  have whole : (newer.reverse ++ [row]).length ≤ clampLimit limit := by
    rw [List.length_append, List.length_reverse, List.length_singleton]
    omega
  rw [listIncompleteWrites, shape, List.take_append, List.take_of_length_le whole]
  simp

/-- Over any number of sessions, each stopped anywhere: every committed row is in exactly one of
the live store and the archives, no later session touches an archive file, and an attempt
without a terminal event is in the live store, where the query lists it unless its limit is
used up by newer ones. -/
theorem audit_history_kept {l : Ledger} (sessions : Sessions .fresh l) :
    (l.disk.rows.Perm l.committed ∧ (l.disk.archives.map Prod.fst).Nodup) ∧
      (∀ later, Sessions l later → ∀ name file,
        l.disk.archive name = some file → later.disk.archive name = some file) ∧
      ∀ row, l.Pending row → ∃ store older newer, l.disk.live = some (.database store) ∧
        store.incomplete = older ++ row :: newer ∧
          ∀ limit, newer.length < AuditStore.clampLimit limit → row ∈ store.listIncompleteWrites limit := by
  have kept := (sessions.intact Ledger.fresh_kept).1
  refine ⟨⟨kept.accounted, kept.distinct⟩, fun later more => (more.intact kept).2, ?_⟩
  intro row pending
  obtain ⟨store, live, member⟩ := pending.live kept
  obtain ⟨older, newer, split, listed⟩ := AuditStore.listed member
  exact ⟨store, older, newer, live, split, listed⟩

def plainInput : AuditInput := ⟨"create_note".toList, "a.md".toList, none, "{}".toList⟩

/-- Starting attempts one after another adds their rows. -/
theorem recordAll_started (ids : List Text) {l : Ledger} {store : AuditStore}
    (found : l.disk.live = some (.database store)) :
    ∃ after rows, Prog.Reach AuditEffect (recordAll (ids.map (.started · plainInput))) l (.done ()) after ∧
      after.disk.live = some (.database ⟨store.writeAudit, store.writeAuditAttempts ++ rows⟩) ∧
      after.disk.archives = l.disk.archives ∧ rows.map AttemptRow.attemptId = ids ∧
      ∀ row ∈ rows, row.eventType = .started := by
  induction ids generalizing l store with
  | nil => exact ⟨l, [], .start, by simpa using found, rfl, rfl, by simp⟩
  | cons id ids ih =>
    let row : AttemptRow :=
      { AuditStore.startedRow id plainInput [] with id := store.writeAuditAttempts.length + 1 }
    have ran : (AuditEvent.started id plainInput).record store [] =
        .ok ⟨store.writeAudit, store.writeAuditAttempts ++ [row]⟩ := rfl
    obtain ⟨after, rows, reach, live, archives, names, started⟩ :=
      ih (l := { l with disk.live := some (.database ⟨store.writeAudit, store.writeAuditAttempts ++ [row]⟩)
                        committed := l.committed ++ _ }) rfl
    refine ⟨after, row :: rows, (Prog.Reach.step .start (.record found ran)).trans reach, ?_, archives,
      congrArg (id :: ·) names, ?_⟩
    · rw [live]
      simp
    · intro other member
      rcases List.mem_cons.mp member with rfl | later
      · rfl
      · exact started other later

/-- A server that starts the attempts `ids` and stops. -/
theorem Sessions.starting (ids : List Text) :
    ∃ l rows, Sessions .fresh l ∧ l.disk.live = some (.database ⟨[], rows⟩) ∧
      l.disk.archives = [] ∧ rows.map AttemptRow.attemptId = ids ∧
      ∀ row ∈ rows, row.eventType = .started := by
  let session : Session := ⟨[], 0, 0, ids.map (.started · plainInput)⟩
  have opened : Prog.Reach AuditEffect session.program .fresh (recordAll session.events)
      ⟨⟨some (.database .empty), false, []⟩, []⟩ := by
    refine (Prog.Reach.step .start (AuditEffect.connect _)).trans ?_
    exact (Prog.Reach.step .start (AuditEffect.createTables rfl)).trans .start
  obtain ⟨l, rows, reach, live, archives, names, started⟩ :=
    recordAll_started ids (l := ⟨⟨some (.database .empty), false, []⟩, []⟩) rfl
  exact ⟨l, rows, .session session .start (opened.trans reach), live, archives, names, started⟩

theorem Ledger.pending_of_started {l : Ledger} {rows : List AttemptRow} {row : AttemptRow} (kept : l.Kept)
    (live : l.disk.live = some (.database ⟨[], rows⟩)) (archives : l.disk.archives = [])
    (started : ∀ row ∈ rows, row.eventType = .started) (member : row ∈ rows) : l.Pending row := by
  have held (other : AttemptRow) : .attempt other ∈ l.committed ↔ other ∈ rows := by
    rw [← kept.accounted.mem_iff]
    simp [AuditDisk.rows, live, archives, AuditFile.rows]
  refine ⟨(held row).mpr member, started row member, fun other inside _ => ?_⟩
  rw [started other ((held other).mp inside)]
  rfl

/-- With more than a thousand newer attempts pending, no limit lets the query show the oldest. -/
theorem incomplete_unlisted :
    ∃ l store row, Sessions .fresh l ∧ l.disk.live = some (.database store) ∧ l.Pending row ∧
      ∀ limit, row ∉ store.listIncompleteWrites limit := by
  obtain ⟨l, rows, sessions, live, archives, names, started⟩ :=
    Sessions.starting ((List.range 1001).map fun n => List.replicate n 'a')
  have kept := (sessions.intact Ledger.fresh_kept).1
  cases rows with
  | nil => exact absurd (congrArg List.length names) (by simp)
  | cons row newer =>
    refine ⟨l, ⟨[], row :: newer⟩, row, sessions, live,
      Ledger.pending_of_started kept live archives started List.mem_cons_self, fun limit listed => ?_⟩
    have all : AuditStore.incomplete ⟨[], row :: newer⟩ = row :: newer := by
      refine List.filter_eq_self.mpr fun other inside => ?_
      have finished : ∀ entry ∈ row :: newer, entry.eventType.terminal = false := by
        intro entry member
        rw [started entry member]
        rfl
      simp only [started other inside, decide_true, Bool.true_and, AuditStore.unfinished,
        Bool.not_eq_true', List.any_eq_false, Bool.and_eq_true, decide_eq_true_eq, not_and]
      exact fun entry member _ => by simp [finished entry member]
    have count : newer.length = 1000 := by
      have lengths := congrArg List.length names
      simp only [List.length_map, List.length_cons, List.length_range] at lengths
      omega
    have short : AuditStore.clampLimit limit ≤ newer.reverse.length := by
      rw [List.length_reverse, count, AuditStore.clampLimit]
      omega
    rw [AuditStore.listIncompleteWrites, all, List.reverse_cons,
      List.take_append_of_le_length short] at listed
    have inside : row ∈ newer := List.mem_reverse.mp (List.mem_of_mem_take listed)
    have distinct : ((row :: newer).map AttemptRow.attemptId).Nodup := by
      rw [names]
      refine List.Nodup.map_on (fun m _ n _ same => ?_) List.nodup_range
      simpa using congrArg List.length same
    rw [List.map_cons, List.nodup_cons] at distinct
    exact distinct.1 (List.mem_map_of_mem inside)

theorem audit_history_kept_started :
    ∃ (l : Ledger) (store : AuditStore) (row : AttemptRow), Sessions .fresh l ∧
      l.disk.live = some (.database store) ∧ row ∈ store.listIncompleteWrites none := by
  obtain ⟨l, rows, sessions, live, archives, names, started⟩ := Sessions.starting ["one".toList]
  have kept := (sessions.intact Ledger.fresh_kept).1
  obtain ⟨row, rest, rfl⟩ : ∃ row rest, rows = row :: rest := by
    cases rows with
    | nil => simp at names
    | cons row rest => exact ⟨row, rest, rfl⟩
  obtain ⟨store, older, newer, found, split, listed⟩ := (audit_history_kept sessions).2.2 row
    (Ledger.pending_of_started kept live archives started List.mem_cons_self)
  refine ⟨l, store, row, sessions, found, listed none ?_⟩
  have short : store.incomplete.length ≤ 1 := by
    rw [live] at found
    cases found
    refine (List.length_filter_le _ _).trans ?_
    have lengths := congrArg List.length names
    simpa using lengths.le
  rw [split] at short
  simp only [List.length_append, List.length_cons] at short
  exact Nat.lt_of_le_of_lt (show newer.length ≤ 0 by omega) (by decide)

end SecondBrain
