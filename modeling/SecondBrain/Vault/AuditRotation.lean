import SecondBrain.Vault.Audit
import SecondBrain.Library.Program

set_option autoImplicit false

namespace SecondBrain

open FileSystem (IoError)

/-- A file of the audit history: a database, or a file without tables yet. -/
inductive AuditFile where
  | empty
  | database (store : AuditStore)
deriving DecidableEq

/-- The live store next to the archive directory. -/
structure AuditDisk where
  live : Option AuditFile
  archiveDir : Bool
  archives : List (Text × AuditFile)
deriving DecidableEq

def AuditDisk.archive (disk : AuditDisk) (name : Text) : Option AuditFile :=
  disk.archives.lookup name

/-- A row of either table. -/
inductive AuditRow where
  | write (row : WriteRow)
  | attempt (row : AttemptRow)
deriving DecidableEq

def AuditFile.rows : AuditFile → List AuditRow
  | .empty => []
  | .database store => store.writeAudit.map .write ++ store.writeAuditAttempts.map .attempt

/-- The disk, and every row that a transaction has committed so far. -/
structure Ledger where
  disk : AuditDisk
  committed : List AuditRow
deriving DecidableEq

def Ledger.fresh : Ledger := ⟨⟨none, false, []⟩, []⟩

/-- A reading of the clock, in UTC. -/
structure UtcTime where
  year : Nat
  month : Nat
  day : Nat
  hour : Nat
  minute : Nat
  second : Nat
  millisecond : Nat

def padded (width n : Nat) : Text :=
  List.leftpad width '0' (Nat.toDigits 10 n)

def archiveTimestamp (now : UtcTime) : Text :=
  padded 4 now.year ++ padded 2 now.month ++ padded 2 now.day ++ ['T'] ++ padded 2 now.hour ++
    padded 2 now.minute ++ padded 2 now.second ++ padded 3 now.millisecond ++ ['Z']

/-- What a server session records in the open store. -/
inductive AuditEvent where
  | started (id : Text) (input : AuditInput)
  | succeeded (id hash : Text)
  | failed (id message : Text)
  | write (input : AuditInput) (hash : Text)
  | completed (input : AuditInput) (attemptId : Option Text) (hash : Text)

def AuditEvent.record (event : AuditEvent) (store : AuditStore) (now : Text) :
    Except AuditError AuditStore :=
  match event with
  | .started id input => store.recordWriteStarted id input now
  | .succeeded id hash => store.recordWriteSucceeded id hash now
  | .failed id message => store.recordWriteFailed id message now
  | .write input hash => store.recordWrite input hash now
  | .completed input attemptId hash => store.recordWriteCompleted input attemptId hash now

/-- The steps of a session. `park` never returns. -/
inductive AuditOp where
  | tryExists
  | connect
  | countWrites
  | hasPending
  | createArchiveDir
  | now
  | uniqueId
  | reserve (name : Text)
  | renameLive (name : Text)
  | removeArchive (name : Text)
  | createTables
  | record (event : AuditEvent)
  | park

namespace AuditOp

abbrev Resp : AuditOp → Type
  | tryExists => Except IoError Bool
  | connect | createTables | record _ => Except AuditError Unit
  | countWrites => Except AuditError Nat
  | hasPending => Except AuditError Bool
  | createArchiveDir | reserve _ | renameLive _ | removeArchive _ => Except IoError Unit
  | now => UtcTime
  | uniqueId => Text
  | park => Empty

/-- The answer of a call that meets a fault and changes nothing. -/
def fault : (op : AuditOp) → Option (Resp op)
  | tryExists | createArchiveDir | reserve _ | renameLive _ | removeArchive _ => some (.error .other)
  | connect | countWrites | hasPending | createTables | record _ => some (.error .database)
  | now | uniqueId | park => none

end AuditOp

/-- What the calls of a session may do. `Connection::open` creates a missing file, and an
insert commits the rows it adds. -/
inductive AuditEffect : (op : AuditOp) → Ledger → op.Resp → Ledger → Prop where
  | tryExists (l : Ledger) : AuditEffect .tryExists l (.ok l.disk.live.isSome) l
  | connect (l : Ledger) :
      AuditEffect .connect l (.ok ()) { l with disk.live := some (l.disk.live.getD .empty) }
  | countWrites {l : Ledger} {store : AuditStore} (found : l.disk.live = some (.database store)) :
      AuditEffect .countWrites l (.ok store.writeAudit.length) l
  | hasPending {l : Ledger} {store : AuditStore} (found : l.disk.live = some (.database store)) :
      AuditEffect .hasPending l (.ok !store.incomplete.isEmpty) l
  | createArchiveDir (l : Ledger) :
      AuditEffect .createArchiveDir l (.ok ()) { l with disk.archiveDir := true }
  | now (l : Ledger) (time : UtcTime) : AuditEffect .now l time l
  | uniqueId (l : Ledger) (id : Text) : AuditEffect .uniqueId l id l
  | reserve {l : Ledger} {name : Text} (made : l.disk.archiveDir = true)
      (vacant : l.disk.archive name = none) :
      AuditEffect (.reserve name) l (.ok ())
        { l with disk.archives := l.disk.archives ++ [(name, .empty)] }
  | reserved {l : Ledger} {name : Text} {file : AuditFile} (taken : l.disk.archive name = some file) :
      AuditEffect (.reserve name) l (.error .alreadyExists) l
  | noDirectory {l : Ledger} {name : Text} (missing : l.disk.archiveDir = false) :
      AuditEffect (.reserve name) l (.error .notFound) l
  | renameLive {l : Ledger} {name : Text} {file : AuditFile} (found : l.disk.live = some file) :
      AuditEffect (.renameLive name) l (.ok ())
        { l with disk.live := none
                 disk.archives := l.disk.archives.eraseP (·.1 = name) ++ [(name, file)] }
  | noLive {l : Ledger} {name : Text} (missing : l.disk.live = none) :
      AuditEffect (.renameLive name) l (.error .notFound) l
  | removeArchive {l : Ledger} {name : Text} :
      AuditEffect (.removeArchive name) l (.ok ())
        { l with disk.archives := l.disk.archives.eraseP (·.1 = name) }
  | createTables {l : Ledger} {file : AuditFile} (found : l.disk.live = some file) :
      AuditEffect .createTables l (.ok ())
        { l with disk.live := some (match file with
          | .empty => .database .empty
          | .database store => .database store) }
  | record {l : Ledger} {event : AuditEvent} {store after : AuditStore} {now : Text}
      (found : l.disk.live = some (.database store)) (ran : event.record store now = .ok after) :
      AuditEffect (.record event) l (.ok ())
        { l with disk.live := some (.database after)
                 committed := l.committed ++ (AuditFile.database after).rows.diff
                   (AuditFile.database store).rows }
  | rejected {l : Ledger} {event : AuditEvent} {store : AuditStore} {now : Text} {error : AuditError}
      (found : l.disk.live = some (.database store)) (ran : event.record store now = .error error) :
      AuditEffect (.record event) l (.error error) l
  | fault {op : AuditOp} {l : Ledger} {answer : op.Resp} (fails : op.fault = some answer) :
      AuditEffect op l answer l

abbrev AuditProg (α : Type) : Type := Prog AuditOp AuditOp.Resp AuditError α

def AuditProg.io {α : Type} (answer : Except IoError α) : AuditProg α := .ofExcept .io answer

def AuditProg.database {α : Type} (answer : Except AuditError α) : AuditProg α := .ofExcept id answer

def AuditProg.call (op : AuditOp) : AuditProg op.Resp := .perform op

open AuditProg (call)

/-- The reservation loop of `archive_at`; `fuel` bounds the collisions of a run. -/
def reserveArchive (timestamp : Text) : (fuel : Nat) → (destination : Text) → AuditProg Text
  | 0, _ => do
    let never ← call .park
    nomatch never
  | fuel + 1, destination => do
    match ← call (.reserve destination) with
    | .ok () => .done destination
    | .error .alreadyExists =>
      let id ← call .uniqueId
      reserveArchive timestamp fuel
        ("write-audit.".toList ++ timestamp ++ ['.'] ++ id ++ ".sqlite".toList)
    | .error error => .fail (.io error)

def archiveAt (now : UtcTime) (fuel : Nat) : AuditProg Text := do
  let timestamp := archiveTimestamp now
  let destination ← reserveArchive timestamp fuel
    ("write-audit.".toList ++ timestamp ++ ".sqlite".toList)
  match ← call (.renameLive destination) with
  | .ok () => .done destination
  | .error error =>
    let _ ← call (.removeArchive destination)
    .fail (.io error)

/-- The blocking closure that decides whether the live store may be archived. -/
def canRotate (maxRows : Nat) : AuditProg Bool := do
  AuditProg.database (← call .connect)
  let count ← call .countWrites
  if (count.toOption.getD 0) ≤ maxRows then return false
  let pending ← AuditProg.database (← call .hasPending)
  return !pending

/-- Rotate before opening the live store when successful rows exceed retention. -/
def rotateWriteAuditIfNeeded (path : Text) (maxRows fuel : Nat) : AuditProg (Option Text) := do
  if maxRows = 0 || path = ":memory:".toList then return none
  let present ← AuditProg.io (← call .tryExists)
  if !present then return none
  if !(← canRotate maxRows) then return none
  AuditProg.io (← call .createArchiveDir)
  let now ← call .now
  some <$> archiveAt now fuel

/-- Open or initialize a durable audit database. -/
def openStore : AuditProg Unit := do
  AuditProg.database (← call .connect)
  AuditProg.database (← call .createTables)

/-- The writer ignores failures to record. -/
def recordAll : List AuditEvent → AuditProg Unit
  | [] => .done ()
  | event :: events => do
    let _ ← call (.record event)
    recordAll events

/-- A run of the server. -/
structure Session where
  auditPath : Text
  retentionMaxRows : Nat
  fuel : Nat
  events : List AuditEvent

def Session.program (session : Session) : AuditProg Unit := do
  let _ ← rotateWriteAuditIfNeeded session.auditPath session.retentionMaxRows session.fuel
  openStore
  recordAll session.events

/-- The ledgers that sessions leave, each of which may have stopped after any step. -/
inductive Sessions (start : Ledger) : Ledger → Prop where
  | start : Sessions start start
  | session {before after : Ledger} {rest : AuditProg Unit} (session : Session) :
      Sessions start before → Prog.Reach AuditEffect session.program before rest after →
        Sessions start after

end SecondBrain
