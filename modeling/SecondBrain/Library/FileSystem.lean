import Mathlib.Data.List.Basic
import Mathlib.Logic.Function.Basic

set_option autoImplicit false

/-! A file system with directories, regular files and symbolic links. Directories look names
up through `fold`, so that a file system may keep the spelling of a name and still find it
under another one. A hard link copies its source: content is only ever written through the
handle of a file that was just created, before anything links to it. -/

namespace FileSystem

/-- One component of a path. -/
abbrev Name := List Char

/-- An absolute path, as its components. -/
abbrev FsPath := List Name

inductive IoError where
  | notFound
  | alreadyExists
  | other
deriving DecidableEq

/-- What a file holds: UTF-8 text, given by its characters, or bytes that are not UTF-8. -/
inductive Content where
  | utf8 (text : List Char)
  | binary (bytes : List UInt8)
deriving DecidableEq

inductive Node where
  | dir (searchable : Bool)
  | file (content : Content)
  | symlink (absolute : Bool) (target : List Name)
deriving DecidableEq

/-- A directory entry, under the spelling it was made with. -/
structure Entry where
  name : Name
  node : Node
  mode : Nat
  modified : Nat
deriving DecidableEq

def Node.isDir : Node → Bool
  | .dir _ => true
  | .file _ | .symlink .. => false

def Node.isSymlink : Node → Bool
  | .symlink .. => true
  | .dir _ | .file _ => false

/-- The names that every directory has without an entry. -/
def special (name : Name) : Bool := name = ['.'] || name = ['.', '.']

def isDirAt (entries : List Name → Option Entry) (key : List Name) : Bool :=
  (entries key).any (·.node.isDir)

/-- The entries by their folded paths. Every entry but the root lies in a directory. -/
structure Tree (fold : Name → Name) where
  entries : List Name → Option Entry
  root : (entries []).map Entry.node = some (.dir true)
  parents : ∀ key name, (entries (key ++ [name])).isSome → isDirAt entries key
  spelled : ∀ key name entry, entries (key ++ [name]) = some entry →
    fold entry.name = name ∧ special entry.name = false

/-- What `stat` tells. -/
structure Metadata where
  isSymlink : Bool
  isDir : Bool
  mode : Nat
  modified : Nat
deriving DecidableEq

def Entry.metadata (entry : Entry) : Metadata :=
  ⟨entry.node.isSymlink, entry.node.isDir, entry.mode, entry.modified⟩

namespace Tree

variable {fold : Name → Name} (t : Tree fold)

/-- Whether a name may be bound in the directory `key`: it does not name a directory there. -/
def Free (key : List Name) (name : Name) : Prop :=
  isDirAt t.entries key ∧ ¬ isDirAt t.entries (key ++ [fold name]) ∧ special name = false

instance (key : List Name) (name : Name) : Decidable (t.Free key name) :=
  inferInstanceAs (Decidable (_ ∧ _))

/-- The tree that holds the root only. -/
def bare (fold : Name → Name) : Tree fold where
  entries key := if key = [] then some ⟨[], .dir true, 0o755, 0⟩ else none
  root := rfl
  parents key name child := by simp at child
  spelled key name entry bound := by simp at bound

/-- Bind a name in the directory `key`, if it is free. -/
def put (key : List Name) (entry : Entry) : Tree fold :=
  if free : t.Free key entry.name then
    { entries := Function.update t.entries (key ++ [fold entry.name]) (some entry)
      root := by rw [Function.update_of_ne (by simp)]; exact t.root
      parents := by
        intro parent name child
        by_cases same : parent ++ [name] = key ++ [fold entry.name]
        · obtain ⟨rfl, -⟩ := List.append_inj' same rfl
          rw [isDirAt, Function.update_of_ne (by simp)]
          exact free.1
        · rw [Function.update_of_ne same] at child
          have directory := t.parents parent name child
          rw [isDirAt, Function.update_of_ne]
          · exact directory
          · rintro rfl
            exact free.2.1 directory
      spelled := by
        intro parent name found bound
        by_cases same : parent ++ [name] = key ++ [fold entry.name]
        · rw [same, Function.update_self, Option.some.injEq] at bound
          rw [← bound]
          exact ⟨(List.cons.inj (List.append_inj' same rfl).2).1.symm, free.2.2⟩
        · rw [Function.update_of_ne same] at bound
          exact t.spelled parent name found bound }
  else t

/-- Drop a name from the directory `key`, unless it is a directory. -/
def erase (key : List Name) (name : Name) : Tree fold :=
  if plain : ¬ isDirAt t.entries (key ++ [name]) then
    { entries := Function.update t.entries (key ++ [name]) none
      root := by rw [Function.update_of_ne (by simp)]; exact t.root
      parents := by
        intro parent child present
        by_cases same : parent ++ [child] = key ++ [name]
        · simp [same] at present
        · rw [Function.update_of_ne same] at present
          have directory := t.parents parent child present
          rw [isDirAt, Function.update_of_ne]
          · exact directory
          · rintro rfl
            exact plain directory
      spelled := by
        intro parent child found bound
        by_cases same : parent ++ [child] = key ++ [name]
        · simp [same] at bound
        · rw [Function.update_of_ne same] at bound
          exact t.spelled parent child found bound }
  else t

/-- One component looked up. -/
inductive Found where
  | entry (spelled : Name)
  | link (absolute : Bool) (target : List Name)

/-- Search the directory at `dir`. -/
def search (dir : FsPath) : Except IoError Unit :=
  match t.entries (dir.map fold) with
  | none => .error .notFound
  | some entry => if entry.node = .dir true then .ok () else .error .other

def lookup (dir : FsPath) (name : Name) : Except IoError Found := do
  t.search dir
  match t.entries (dir.map fold ++ [fold name]) with
  | none => .error .notFound
  | some ⟨_, .symlink absolute target, _, _⟩ => .ok (.link absolute target)
  | some entry => .ok (.entry entry.name)

/-- Follow `rest` from the directory `dir`, going on with `jump` at a symbolic link. -/
def follow (jump : FsPath → List Name → Except IoError FsPath) (dir : FsPath) :
    (rest : List Name) → Except IoError FsPath
  | [] => .ok dir
  | name :: rest =>
    if special name then
      match t.search dir with
      | .error error => .error error
      | .ok () => follow jump (if name = ['.'] then dir else dir.dropLast) rest
    else
      match t.lookup dir name with
      | .error error => .error error
      | .ok (.entry spelled) => follow jump (dir ++ [spelled]) rest
      | .ok (.link absolute target) => jump (if absolute then [] else dir) (target ++ rest)

/-- Follow `rest` from the directory `dir`, through at most `links` symbolic links. The
result names the file by the spellings that the directories keep. -/
def walk : (links : Nat) → (dir : FsPath) → (rest : List Name) → Except IoError FsPath
  | 0 => t.follow fun _ _ => .error .other
  | links + 1 => t.follow (walk links)

/-- The number of symbolic links after which the lookup of a path gives up. -/
def maxLinks : Nat := 40

def canonicalize (path : FsPath) : Except IoError FsPath := t.walk maxLinks [] path

/-- Where the last component of a path is or would be, not following it: the canonical
directory and the name. -/
def locate (path : FsPath) : Except IoError (FsPath × Name) :=
  match path.getLast? with
  | none => .error .other
  | some name => do
    let dir ← t.walk maxLinks [] path.dropLast
    t.search dir
    if special name then .error .other else .ok (dir, name)

def entryAt (place : FsPath × Name) : Option Entry :=
  t.entries (place.1.map fold ++ [fold place.2])

def symlinkMetadata (path : FsPath) : Except IoError Metadata := do
  let place ← t.locate path
  match t.entryAt place with
  | none => .error .notFound
  | some entry => .ok entry.metadata

/-- The entry that a path leads to. -/
def resolve (path : FsPath) : Except IoError Entry := do
  let target ← t.canonicalize path
  match t.entries (target.map fold) with
  | none => .error .notFound
  | some entry => .ok entry

def metadata (path : FsPath) : Except IoError Metadata := do
  let entry ← t.resolve path
  .ok entry.metadata

def tryExists (path : FsPath) : Except IoError Bool :=
  match t.resolve path with
  | .ok _ => .ok true
  | .error .notFound => .ok false
  | .error error => .error error

def readToString (path : FsPath) : Except IoError (List Char) := do
  let entry ← t.resolve path
  match entry.node with
  | .file (.utf8 text) => .ok text
  | .file (.binary _) | .dir _ | .symlink .. => .error .other

/-- Make a new entry at the end of a path. -/
def createEntry (path : FsPath) (node : Node) (mode now : Nat) :
    Except IoError (FsPath × Tree fold) := do
  let place ← t.locate path
  match t.entryAt place with
  | some _ => .error .alreadyExists
  | none => .ok (place.1 ++ [place.2], t.put (place.1.map fold) ⟨place.2, node, mode, now⟩)

def createDir (path : FsPath) (mode now : Nat) : Except IoError (Tree fold) :=
  (t.createEntry path (.dir true) mode now).map Prod.snd

/-- Create an empty file for writing. The handle is the place of the file. -/
def openNew (path : FsPath) (mode now : Nat) : Except IoError (FsPath × Tree fold) :=
  t.createEntry path (.file (.utf8 [])) mode now

/-- Change the file behind a handle. A handle whose file is gone changes nothing. -/
def modify (file : FsPath) (change : Entry → Entry) : Tree fold :=
  match t.entries (file.map fold) with
  | some entry =>
    match entry.node with
    | .file _ => t.put (file.map fold).dropLast { change entry with name := entry.name }
    | .dir _ | .symlink .. => t
  | none => t

def writeAll (file : FsPath) (content : Content) (now : Nat) : Tree fold :=
  t.modify file fun entry => { entry with node := .file content, modified := now }

def setPermissions (file : FsPath) (mode : Nat) : Tree fold :=
  t.modify file fun entry => { entry with mode := mode }

def hardLink (source target : FsPath) : Except IoError (Tree fold) := do
  let place ← t.locate source
  match t.entryAt place with
  | none => .error .notFound
  | some entry =>
    if entry.node.isDir then .error .other
    else
      let place ← t.locate target
      match t.entryAt place with
      | some _ => .error .alreadyExists
      | none => .ok (t.put (place.1.map fold) { entry with name := place.2 })

/-- Move a file over whatever file is at the target, which keeps its spelling. -/
def rename (source target : FsPath) : Except IoError (Tree fold) := do
  let place ← t.locate source
  match t.entryAt place with
  | none => .error .notFound
  | some entry =>
    if entry.node.isDir then .error .other
    else
      let goal ← t.locate target
      let removed := t.erase (place.1.map fold) (fold place.2)
      match t.entryAt goal with
      | none => .ok (removed.put (goal.1.map fold) { entry with name := goal.2 })
      | some old =>
        if old.node.isDir then .error .other
        else .ok (removed.put (goal.1.map fold) { entry with name := old.name })

def removeFile (path : FsPath) : Except IoError (Tree fold) := do
  let place ← t.locate path
  match t.entryAt place with
  | none => .error .notFound
  | some entry =>
    if entry.node.isDir then .error .other
    else .ok (t.erase (place.1.map fold) (fold place.2))

end Tree

/-- The calls of the file system. -/
inductive FsOp where
  | canonicalize (path : FsPath)
  | tryExists (path : FsPath)
  | symlinkMetadata (path : FsPath)
  | metadata (path : FsPath)
  | readToString (path : FsPath)
  | createDir (path : FsPath)
  | openNew (path : FsPath) (mode : Nat)
  | writeAll (file : FsPath) (text : List Char)
  | setPermissions (file : FsPath) (mode : Nat)
  | syncAll (file : FsPath)
  | hardLink (source target : FsPath)
  | rename (source target : FsPath)
  | removeFile (path : FsPath)

namespace FsOp

/-- What a call returns when it does not fail. -/
abbrev Result : FsOp → Type
  | canonicalize _ | openNew .. => FsPath
  | tryExists _ => Bool
  | symlinkMetadata _ | metadata _ => Metadata
  | readToString _ => List Char
  | createDir _ | writeAll .. | setPermissions .. | syncAll _ | hardLink .. | rename .. |
    removeFile _ => Unit

variable {fold : Name → Name}

def defaultDirMode : Nat := 0o755

/-- A changed tree as an answer, or an error and the old tree. -/
def answer {α : Type} (t : Tree fold) : Except IoError (α × Tree fold) → Except IoError α × Tree fold
  | .ok (value, changed) => (.ok value, changed)
  | .error error => (.error error, t)

/-- What a call does that meets no fault. -/
def perform (t : Tree fold) (now : Nat) : (op : FsOp) → Except IoError op.Result × Tree fold
  | canonicalize path => (t.canonicalize path, t)
  | tryExists path => (t.tryExists path, t)
  | symlinkMetadata path => (t.symlinkMetadata path, t)
  | metadata path => (t.metadata path, t)
  | readToString path => (t.readToString path, t)
  | createDir path => answer t ((t.createDir path defaultDirMode now).map fun changed => ((), changed))
  | openNew path mode => answer t (t.openNew path mode now)
  | writeAll file text => (.ok (), t.writeAll file (.utf8 text) now)
  | setPermissions file mode => (.ok (), t.setPermissions file mode)
  | syncAll _ => (.ok (), t)
  | hardLink source target => answer t ((t.hardLink source target).map fun changed => ((), changed))
  | rename source target => answer t ((t.rename source target).map fun changed => ((), changed))
  | removeFile path => answer t ((t.removeFile path).map fun changed => ((), changed))

/-- What a call may do that may meet a fault: it succeeds, or it fails and leaves the tree as
it was, except that an interrupted write leaves any content behind its handle. -/
inductive Faulty (t : Tree fold) (now : Nat) :
    (op : FsOp) → Except IoError op.Result → Tree fold → Prop where
  | exact (op : FsOp) : Faulty t now op (perform t now op).1 (perform t now op).2
  | fault (op : FsOp) : Faulty t now op (.error .other) t
  | torn (file : FsPath) (text : List Char) (left : Content) :
      Faulty t now (.writeAll file text) (.error .other) (t.writeAll file left now)

end FsOp

end FileSystem
