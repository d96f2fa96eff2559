import SecondBrain.Framework.MetadataConfinement
import SecondBrain.Runtime.Tools

set_option autoImplicit false

/-! Which calls the tools make: reading changes no file, and only a refresh publishes the index. -/

namespace SecondBrain

open SecondBrain.Json (Value)
open Dates (PrimitiveDateTime parseIso)
open FileSystem (FsPath FsOp Name)
open Traversal (Visit)
open Prog (Within)
open RuntimeProg (call ofVault io guarded visitAll walkDirs)

/-- The calls of a tool apart from its refresh. -/
inductive Works : RuntimeOp → Prop where
  | vault (op : VaultOp) : Works (.vault op)
  | readDir (path : FsPath) : Works (.readDir path)
  | lock : Works (.lock .registry)
  | unlock : Works (.unlock .registry)
  | searchIndex (query : Text) (filters : SearchFilters) : Works (.searchIndex query filters)
  | findBySourceId (sourceId : Text) : Works (.findBySourceId sourceId)

/-- The calls of the vault that change no file and take no lock. -/
def Views (op : VaultOp) : Prop := Reads op ∨ op = .park

/-- The calls that change neither a file nor the index and take no lock. -/
inductive Peeks : RuntimeOp → Prop where
  | vault {op : VaultOp} (views : Views op) : Peeks (.vault op)
  | readDir (path : FsPath) : Peeks (.readDir path)
  | searchIndex (query : Text) (filters : SearchFilters) : Peeks (.searchIndex query filters)
  | findBySourceId (sourceId : Text) : Peeks (.findBySourceId sourceId)

theorem Peeks.works {op : RuntimeOp} (peeks : Peeks op) : Works op := by
  cases peeks with
  | vault => exact .vault _
  | readDir path => exact .readDir path
  | searchIndex query filters => exact .searchIndex query filters
  | findBySourceId sourceId => exact .findBySourceId sourceId

theorem Looks.views {op : VaultOp} (looks : Looks op) : Views op := .inl (.inl looks)

variable {ε δ α β : Type}

theorem call_works {op : RuntimeOp} (works : Works op) : (call op : RuntimeProg ε op.Resp).Within Works :=
  ⟨works, fun _ => trivial⟩

theorem ofVault_works (p : VaultProg ε α) : (ofVault p).Within Works := by
  induction p with
  | done value => trivial
  | fail error => trivial
  | call op next ih => exact ⟨.vault op, ih⟩

theorem guarded_works {p : RuntimeProg ε α} (within : p.Within Works) : (guarded .registry p).Within Works :=
  (call_works .lock).bind fun _ => within.attempt.bind fun _ => (call_works .unlock).bind fun _ => Within.ofExcept ..

theorem call_peeks {op : RuntimeOp} {convert : δ → ε} {next : op.Resp → Except δ α} (peeks : Peeks op) :
    ((call op).bind fun answer => (.ofExcept convert (next answer) : RuntimeProg ε α)).Within Peeks :=
  ⟨peeks, fun _ => Within.ofExcept ..⟩

theorem asks_peeks {op : VaultOp} (looks : Looks op) : (call (.vault op) : RuntimeProg ε op.Resp).Within Peeks :=
  ⟨.vault looks.views, fun _ => trivial⟩

theorem ofVault_peeks {p : VaultProg ε α} (views : p.Within Views) : (ofVault p).Within Peeks := by
  induction p with
  | done value => trivial
  | fail error => trivial
  | call op next ih => exact ⟨.vault views.1, fun answer => ih answer (views.2 answer)⟩

theorem looks_views {p : VaultProg ε α} (looks : p.Within Looks) : p.Within Views :=
  looks.mono fun _ => Looks.views

section Collecting

theorem visitAll_peeks {visit : FsPath → RuntimeProg ε (Visit β)} (visits : ∀ path, (visit path).Within Peeks)
    (dir : FsPath) (names : List Name) (state : List FsPath × List β) :
    (visitAll visit dir names state).Within Peeks := by
  induction names generalizing state with
  | nil => trivial
  | cons name names ih =>
    refine (visits _).bind fun seen => ?_
    cases seen with
    | skip => exact ih _
    | enter => exact ih _
    | emit value => exact ih _

theorem walkDirs_peeks {unread : FileSystem.IoError → ε} {visit : FsPath → RuntimeProg ε (Visit β)}
    (visits : ∀ path, (visit path).Within Peeks) (fuel : Nat) (stack : List FsPath) (out : List β) :
    (walkDirs unread visit fuel stack out).Within Peeks := by
  induction fuel generalizing stack out with
  | zero => exact ⟨.vault (.inr rfl), fun never => never.elim⟩
  | succ fuel ih =>
    cases stack with
    | nil => trivial
    | cons dir stack =>
      refine (call_peeks (.readDir dir)).bind fun names => ?_
      exact (visitAll_peeks visits dir names _).bind fun state => ih _ _

variable (reader : VaultReader)

theorem listEntry_peeks (root : FsPath) (recursive : Bool) (full : FsPath) :
    (reader.listEntry root recursive full).Within Peeks := by
  refine (call_peeks (.vault (Looks.symlinkMetadata full).views)).bind fun metadata => ?_
  cases VaultReader.relativePath root full with
  | none => trivial
  | some relative =>
    dsimp only
    split
    · trivial
    · refine (asks_peeks (.isBlocked relative)).bind fun blocked => ?_
      split
      · trivial
      · split
        · trivial
        · split <;> trivial

theorem retainOpen_peeks (entries : List FolderEntry) : (VaultReader.retainOpen entries).Within Peeks := by
  induction entries with
  | nil => trivial
  | cons entry entries ih =>
    refine (asks_peeks (.isBlocked entry.path)).bind fun blocked => ?_
    split
    · exact ih
    · exact ih.bind fun _ => trivial

theorem listFolder_peeks (input : Text) (recursive : Bool) (fuel : Nat) :
    (reader.listFolder input recursive fuel).Within Peeks := by
  have looks {α : Type} {p : VaultProg VaultReaderError α} (within : p.Within Looks) : (ofVault p).Within Peeks :=
    ofVault_peeks (looks_views within)
  refine (Within.ofExcept ..).bind fun normalized => (looks (refuseBlocked_looks normalized)).bind fun _ => ?_
  split
  · trivial
  · refine (looks (resolveExistingVaultPath_looks _ _).mapError).bind fun start => ?_
    refine (looks (io_looks (by constructor)).mapError).bind fun root => ?_
    refine (looks (refuseRelative_looks reader _)).bind fun _ => ?_
    refine (walkDirs_peeks (listEntry_peeks reader root recursive) fuel _ _).bind fun entries => ?_
    exact (retainOpen_peeks entries).bind fun _ => trivial

theorem readNote_views (input : Text) : (reader.readNote input).Within Views := by
  have checks (path : Text) : (VaultReader.refuseBlocked path).Within Views := looks_views (refuseBlocked_looks path)
  unfold VaultReader.readNote
  simp only [Prog.bind_eq]
  refine (Within.ofExcept ..).bind fun normalized => (checks normalized).bind fun _ => ?_
  split
  · trivial
  split
  · trivial
  refine (looks_views (resolveExistingVaultPath_looks _ normalized).mapError).bind fun resolved => ?_
  refine (looks_views (io_looks (by constructor)).mapError).bind fun root => ?_
  refine (looks_views (refuseRelative_looks reader _)).bind fun _ => ?_
  refine Within.bind (Within.mapError ?_) fun content => (checks normalized).bind fun _ => ?_
  · exact ⟨.inl (.inr ⟨resolved, rfl⟩), fun _ => Within.ofExcept ..⟩
  · cases VaultReader.relativePath root resolved with
    | none => trivial
    | some relative => exact (checks relative).bind fun _ => trivial

theorem readNotes_peeks (entries : List FolderEntry) : (readNotes reader entries).Within Peeks := by
  induction entries with
  | nil => trivial
  | cons entry entries ih =>
    exact (ofVault_peeks (readNote_views reader entry.path)).bind fun _ => ih.bind fun _ => trivial

theorem scanEntry_peeks (vaultRoot full : FsPath) : (scanEntry vaultRoot full).Within Peeks := by
  unfold scanEntry
  cases VaultReader.relativePath vaultRoot full with
  | none => trivial
  | some relative =>
    refine (asks_peeks (.isBlocked relative)).bind fun blocked => ?_
    split
    · trivial
    · refine (call_peeks (.vault (Looks.symlinkMetadata full).views)).bind fun metadata => ?_
      split
      · trivial
      · split
        · cases canonicalConflictPath relative <;> trivial
        · trivial

/-- The part of a refresh that reads the vault. -/
def collect (fuel : Nat) : RuntimeProg RuntimeError (List NoteRecord × List ConflictPair) := do
  let files ← (reader.listFolder [] true fuel).mapError .read
  let notes ← (readNotes reader files).mapError .read
  let conflicts ← scanConflicts reader.vaultRoot fuel
  return (notes, conflicts)

theorem refresh_eq (fuel : Nat) : refresh reader fuel =
    (collect reader fuel).bind fun found => (call (.rebuildIndex found.1 found.2)).bind (.ofExcept .index) := by
  unfold refresh collect
  simp only [Prog.bind_eq, Prog.bind_assoc, Prog.pure_eq, Prog.done_bind]

theorem collect_peeks (fuel : Nat) : (collect reader fuel).Within Peeks := by
  refine (listFolder_peeks reader [] true fuel).mapError.bind fun files => ?_
  refine (readNotes_peeks reader files).mapError.bind fun notes => ?_
  exact (walkDirs_peeks (scanEntry_peeks _) fuel _ _).bind fun _ => trivial

theorem collect_works (fuel : Nat) : (collect reader fuel).Within Works :=
  (collect_peeks reader fuel).mono fun _ => Peeks.works

end Collecting

namespace SchemaFramework

variable (service : SchemaFramework) (fuel : Nat)

theorem registrations_views : service.registrations.Within Views := by
  have reads {α : Type} {p : ToolProg α} (within : p.Within Reads) : p.Within Views := within.mono fun _ => .inl
  unfold registrations
  refine (reads (service.readOptionalText_reads _)).bind fun found => ?_
  cases found with
  | none => trivial
  | some source =>
    dsimp only
    cases service.json.fromStr source with
    | none => trivial
    | some parsed =>
      dsimp only
      cases (parsed.get "overlays".toList).bind Value.asArray with
      | none => trivial
      | some overlays =>
        refine Within.bind ?_ fun _ => trivial
        induction overlays with
        | nil => trivial
        | cons entry entries ih =>
          refine Within.bind ?_ fun _ => ih.bind fun _ => trivial
          unfold readRegistration
          cases entry.asObject with
          | none => trivial
          | some entry =>
            refine (Within.ofExcept ..).bind fun name => (Within.ofExcept ..).bind fun path => ?_
            refine (looks_views (service.checkPath_looks path)).bind fun path => ?_
            exact (Within.ofExcept ..).bind fun _ => trivial

theorem readSchema_views (path : Text) : (service.readSchema path).Within Views := by
  unfold readSchema readText
  refine Within.bind (Within.bind ((service.readOptionalText_reads path).mono fun _ => .inl) fun found => ?_)
    fun _ => Within.ofExcept ..
  cases found <;> trivial

theorem compose_views : service.compose.Within Views := by
  refine (service.readSchema_views _).bind fun base => service.registrations_views.bind fun entries => ?_
  refine Within.bind ?_ fun _ => Within.ofExcept ..
  induction entries with
  | nil => trivial
  | cons entry entries ih =>
    exact (Within.ofExcept ..).bind fun path => (service.readSchema_views path).bind fun _ => ih.bind fun _ => trivial

theorem reload_views : service.reload.Within Views := by
  refine service.registrations_views.bind fun entries => Within.bind ?_ fun _ => trivial
  induction entries with
  | nil => trivial
  | cons entry entries ih =>
    exact (Within.ofExcept ..).bind fun path => (service.readSchema_views path).attempt.bind fun _ =>
      ih.bind fun _ => trivial

theorem recordTypes_views : service.recordTypes.Within Views := service.compose_views.bind fun _ => trivial

theorem parseDate_views (raw : Option Text) : (service.parseDate raw).Within Views := by
  have asks : (VaultProg.call .now : ToolProg VaultOp.now.Resp).Within Views := ⟨Looks.now.views, fun _ => True.intro⟩
  have parks : (VaultProg.call .park : ToolProg Empty).Within Views := ⟨.inr rfl, fun never => never.elim⟩
  unfold parseDate
  cases raw with
  | none =>
    refine Within.bind asks fun now => ?_
    generalize PrimitiveDateTime.ofUnixNanos (now : Nat) = date
    cases date with
    | some date => exact True.intro
    | none => exact parks.bind fun never => never.elim
  | some raw =>
    dsimp only
    generalize parseIso raw service.zone = date
    cases date with
    | some date => exact True.intro
    | none => exact True.intro

theorem readTemplate_views (definition : Value) : (service.readTemplate definition).Within Views := by
  unfold readTemplate
  split
  · trivial
  · refine (readNote_views _ _).attempt.bind fun answer => ?_
    cases answer with
    | ok note => trivial
    | error error =>
      dsimp only
      split <;> trivial

theorem searchFolders_peeks (query : Text) (folders : List Text) (maps : List (Text × SearchResult)) :
    (searchFolders query folders maps).Within Peeks := by
  induction folders generalizing maps with
  | nil => trivial
  | cons folder folders ih => exact (call_peeks (.searchIndex ..)).bind fun _ => ih _

theorem findCapture_peeks (strategy : Text) (source : Option Text) : (findCapture strategy source).Within Peeks := by
  unfold findCapture
  split
  · cases source with
    | none => trivial
    | some source => exact call_peeks (.findBySourceId source)
  · trivial

theorem capture_works (name : Text) (args : Arguments) : (service.capture fuel name args).Within Works := by
  unfold capture
  refine (Within.ofExcept ..).bind fun content => (Within.ofExcept ..).bind fun client => ?_
  refine (Within.ofExcept ..).bind fun source => (Within.ofExcept ..).bind fun captureType => ?_
  refine (Within.ofExcept ..).bind fun title => (Within.ofExcept ..).bind fun date => ?_
  refine (ofVault_works _).bind fun date => (Within.ofExcept ..).bind fun strategy => ?_
  dsimp only
  split
  · trivial
  · refine (ofVault_works _).bind fun schema => ((findCapture_peeks _ source).mono fun _ => Peeks.works).bind fun path => ?_
    cases path with
    | none => exact ofVault_works _
    | some path => exact ofVault_works _

theorem register_works (args : Arguments) : (service.register args fuel).Within Works := by
  unfold register
  refine (Within.ofExcept ..).bind fun name => (Within.ofExcept ..).bind fun path => ?_
  refine (ofVault_works _).bind fun path => (ofVault_works _).bind fun found => (ofVault_works _).bind fun _ => ?_
  exact (Within.ofExcept ..).bind fun priority => (guarded_works (ofVault_works _)).bind fun _ => trivial

theorem unregister_works (args : Arguments) : (service.unregister args fuel).Within Works :=
  (Within.ofExcept ..).bind fun _ => (guarded_works (ofVault_works _)).bind fun _ => trivial

theorem init_works (args : Arguments) : (service.init args fuel).Within Works := by
  unfold init
  refine (Within.ofExcept ..).bind fun framework => (Within.ofExcept ..).bind fun source => ?_
  refine (Within.ofExcept ..).bind fun path => (Within.ofExcept ..).bind fun mode => ?_
  dsimp only
  split
  · trivial
  · exact (guarded_works (ofVault_works _)).bind fun _ => trivial

theorem findMaps_peeks (args : Arguments) : (service.findMaps args).Within Peeks :=
  (Within.ofExcept ..).bind fun _ => (ofVault_peeks service.compose_views).bind fun _ =>
    (searchFolders_peeks _ _ _).bind fun _ => trivial

theorem dispatch_works (name : Text) (args : Arguments) : (service.dispatch fuel name args).Within Works := by
  have done {α : Type} {p : FrameworkProg α} (works : p.Within Works) (reply : α → FrameworkReply) :
      (p.bind fun value => .done (reply value)).Within Works := works.bind fun _ => trivial
  unfold dispatch
  refine .ite (service.init_works fuel args) (.ite (service.register_works fuel args) ?_)
  refine .ite (service.unregister_works fuel args) (.ite (done (ofVault_works _) .registered) ?_)
  refine .ite (ofVault_works _) (.ite (done (ofVault_works _) .composed) ?_)
  refine .ite (done (ofVault_works _) .recordTypes) (.ite (done ((service.findMaps_peeks args).mono fun _ => Peeks.works) .maps) ?_)
  refine .ite (done (ofVault_works _) .written) (.ite (done (service.capture_works fuel name args) .written) ?_)
  exact .ite (done (ofVault_works _) .note) trivial

end SchemaFramework

end SecondBrain
