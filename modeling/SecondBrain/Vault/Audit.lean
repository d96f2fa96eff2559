import SecondBrain.Text
import SecondBrain.Library.FileSystem

set_option autoImplicit false

namespace SecondBrain

open FileSystem (IoError)

/-- Persistence failures; filesystem details are never exposed to clients. -/
inductive AuditError where
  | database
  | io (error : IoError)
deriving DecidableEq

/-- Provenance for a write attempt. The metadata is kept as its JSON text. -/
structure AuditInput where
  operation : Text
  path : Text
  baseSha256 : Option Text
  metadata : Text
deriving DecidableEq

inductive EventType where
  | started
  | succeeded
  | failed
deriving DecidableEq

def EventType.terminal : EventType → Bool
  | .started => false
  | .succeeded | .failed => true

/-- A row of the table `write_audit`. -/
structure WriteRow where
  id : Nat
  operation : Text
  path : Text
  baseSha256 : Option Text
  resultSha256 : Text
  metadataJson : Text
  createdAt : Text
deriving DecidableEq

/-- A row of the table `write_audit_attempts`. -/
structure AttemptRow where
  id : Nat
  attemptId : Text
  eventType : EventType
  operation : Option Text
  path : Option Text
  baseSha256 : Option Text
  resultSha256 : Option Text
  errorMessage : Option Text
  metadataJson : Text
  createdAt : Text
deriving DecidableEq

/-- The two tables. Both are append-only, so the next key of `AUTOINCREMENT` is the length
plus one. -/
structure AuditStore where
  writeAudit : List WriteRow
  writeAuditAttempts : List AttemptRow
deriving DecidableEq

def AuditStore.empty : AuditStore := ⟨[], []⟩

/-- The operations that the `CHECK` constraints accept. -/
def auditedOperations : List Text :=
  ["create_note".toList, "replace_note".toList, "update_frontmatter".toList,
    "replace_section_by_marker".toList, "delete_note".toList, "hard_delete_note".toList]

/-- The `CHECK` constraints of `write_audit_attempts`. -/
def AttemptRow.checked (row : AttemptRow) : Bool :=
  row.operation.all (· ∈ auditedOperations) &&
    match row.eventType with
    | .started => row.operation.isSome && row.path.isSome
    | .succeeded => row.resultSha256.isSome
    | .failed => row.errorMessage.isSome

namespace AuditStore

variable (store : AuditStore)

def insertAttempt (row : AttemptRow) : Except AuditError AuditStore :=
  let row := { row with id := store.writeAuditAttempts.length + 1 }
  if row.checked then
    .ok { store with writeAuditAttempts := store.writeAuditAttempts ++ [row] }
  else .error .database

def insertWrite (row : WriteRow) : Except AuditError AuditStore :=
  let row := { row with id := store.writeAudit.length + 1 }
  if row.operation ∈ auditedOperations then .ok { store with writeAudit := store.writeAudit ++ [row] }
  else .error .database

def startedRow (id : Text) (input : AuditInput) (now : Text) : AttemptRow where
  id := 0
  attemptId := id
  eventType := .started
  operation := some input.operation
  path := some input.path
  baseSha256 := input.baseSha256
  resultSha256 := none
  errorMessage := none
  metadataJson := input.metadata
  createdAt := now

def terminalRow (id : Text) (outcome : Except Text Text) (now : Text) : AttemptRow where
  id := 0
  attemptId := id
  eventType := if outcome.isOk then .succeeded else .failed
  operation := none
  path := none
  baseSha256 := none
  resultSha256 := outcome.toOption
  errorMessage := match outcome with | .ok _ => none | .error message => some message
  metadataJson := "{}".toList
  createdAt := now

def writeRow (input : AuditInput) (hash now : Text) : WriteRow where
  id := 0
  operation := input.operation
  path := input.path
  baseSha256 := input.baseSha256
  resultSha256 := hash
  metadataJson := input.metadata
  createdAt := now

/-- Persist a start event before a filesystem mutation, under a fresh id. -/
def recordWriteStarted (id : Text) (input : AuditInput) (now : Text) : Except AuditError AuditStore :=
  store.insertAttempt (startedRow id input now)

/-- Persist a terminal success independently from successful-write provenance. -/
def recordWriteSucceeded (id hash now : Text) : Except AuditError AuditStore :=
  store.insertAttempt (terminalRow id (.ok hash) now)

/-- Persist a failed attempt without creating a successful-write row. -/
def recordWriteFailed (id message now : Text) : Except AuditError AuditStore :=
  store.insertAttempt (terminalRow id (.error message) now)

/-- Persist hashes and metadata for a completed mutation. -/
def recordWrite (input : AuditInput) (hash now : Text) : Except AuditError AuditStore :=
  store.insertWrite (writeRow input hash now)

/-- Persist successful provenance and its optional terminal lifecycle event together. -/
def recordWriteCompleted (input : AuditInput) (attemptId : Option Text) (hash now : Text) :
    Except AuditError AuditStore := do
  let store ← match attemptId with
    | some id => store.insertAttempt (terminalRow id (.ok hash) now)
    | none => .ok store
  store.insertWrite (writeRow input hash now)

/-- No terminal event of the attempt is in the store. -/
def unfinished (attemptId : Text) : Bool :=
  !store.writeAuditAttempts.any fun row => row.attemptId = attemptId && row.eventType.terminal

/-- The start events without a terminal event, in the order of their ids. -/
def incomplete : List AttemptRow :=
  store.writeAuditAttempts.filter fun row =>
    row.eventType = .started && store.unfinished row.attemptId

def clampLimit (limit : Option Int) : Nat := (min (max (limit.getD 100) 1) 1000).toNat

/-- Return incomplete lifecycle starts, newest first, with a bounded limit. -/
def listIncompleteWrites (limit : Option Int) : List AttemptRow :=
  store.incomplete.reverse.take (clampLimit limit)

/-- Return successful writes, newest first, with a bounded limit. -/
def listRecentWrites (limit : Option Int) : List WriteRow :=
  store.writeAudit.reverse.take (clampLimit limit)

end AuditStore

end SecondBrain
