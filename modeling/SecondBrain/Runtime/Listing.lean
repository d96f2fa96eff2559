import SecondBrain.Runtime.ConflictScan

set_option autoImplicit false

/-! The listing of the vault, and the index that is built from it. -/

namespace SecondBrain

open FileSystem (IoError FsPath FsOp Name)
open Traversal (Visit)
open RuntimeProg (call ofVault walkDirs)

inductive EntryKind where
  | directory
  | file
deriving DecidableEq

structure FolderEntry where
  path : Text
  kind : EntryKind
deriving DecidableEq

namespace VaultReader

variable (reader : VaultReader)

def listEntry (root : FsPath) (recursive : Bool) (full : FsPath) :
    RuntimeProg VaultReaderError (Visit FolderEntry) := do
  let metadata ← (call (.vault (.fs (.symlinkMetadata full)))).bind (.ofExcept .io)
  match relativePath root full with
  | none => return .skip
  | some relative =>
    if reader.isIgnored relative then return .skip
    else if ← call (.vault (.isBlocked relative)) then return .skip
    else if metadata.isDir then return if recursive then .enter else .emit ⟨relative, .directory⟩
    else if !metadata.isSymlink && isMarkdownPath relative then return .emit ⟨relative, .file⟩
    else return .skip

/-- `entries.retain`: leave out what the policy blocks. -/
def retainOpen : List FolderEntry → RuntimeProg VaultReaderError (List FolderEntry)
  | [] => return []
  | entry :: entries => do
    if ← call (.vault (.isBlocked entry.path)) then retainOpen entries
    else
      let rest ← retainOpen entries
      return entry :: rest

/-- List a folder. Non-recursive yields immediate markdown files and subdirectories; recursive
yields all markdown files. Ignored, blocked and symlink entries are skipped. -/
def listFolder (input : Text) (recursive : Bool) (fuel : Nat) :
    RuntimeProg VaultReaderError (List FolderEntry) := do
  let normalized ← .ofExcept .path (normalizeVaultPath input)
  ofVault (refuseBlocked normalized)
  if reader.isIgnored normalized then .fail (.ignored normalized)
  else
    let start ← ofVault ((resolveExistingVaultPath reader.vaultRoot normalized).mapError .path)
    let root ← ofVault ((VaultProg.io (.canonicalize reader.vaultRoot)).mapError .io)
    ofVault (reader.refuseRelative (relativePath root start))
    let entries ← walkDirs .io (reader.listEntry root recursive) fuel [start] []
    let entries ← retainOpen entries
    return orderBy FolderEntry.path entries

end VaultReader

/-- The record that the index gets of a note. -/
def noteRecord (read : ReadNoteResult) : NoteRecord where
  path := read.path
  title := read.parsed.title
  content := read.content
  tags := read.parsed.tags
  aliases := read.parsed.aliases
  sourceId := read.parsed.sourceId
  sha256 := read.currentSha256
  outgoingLinks := read.parsed.outgoingLinks

section Rebuild

variable (reader : VaultReader)

def readNotes : List FolderEntry → RuntimeProg VaultReaderError (List NoteRecord)
  | [] => return []
  | entry :: entries => do
    let read ← ofVault (reader.readNote entry.path)
    let notes ← readNotes entries
    return noteRecord read :: notes

/-- The block that collects a snapshot and publishes it. -/
def refresh (fuel : Nat) : RuntimeProg RuntimeError Unit := do
  let files ← (reader.listFolder [] true fuel).mapError .read
  let notes ← (readNotes reader files).mapError .read
  let conflicts ← scanConflicts reader.vaultRoot fuel
  (call (.rebuildIndex notes conflicts)).bind (.ofExcept .index)

/-- Serialize snapshot collection and publication. -/
def coldRebuild (fuel : Nat) : RuntimeProg RuntimeError Unit := do
  call (.lock .indexRefresh)
  let result ← (refresh reader fuel).attempt
  call (.unlock .indexRefresh)
  .ofExcept id result

end Rebuild

end SecondBrain
