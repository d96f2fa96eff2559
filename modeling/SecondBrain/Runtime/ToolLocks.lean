import SecondBrain.Library.LockOrder
import SecondBrain.Runtime.ToolCalls
import SecondBrain.Vault.WriterLocks

set_option autoImplicit false

/-! Which locks the tools take, and in which order. -/

namespace SecondBrain

open FileSystem (FsPath FsOp Name)
open LockTable (Hold)
open Prog (Within)
open RuntimeProg (call ofVault guarded)

variable {ε α β : Type}

section VaultLocks

/-- The locks of the writer, of which a task holds one at a time. -/
def vaultOrder : LockOrder VaultOp Nat where
  takes
    | .lockOwned lock => some lock
    | _ => none
  gives
    | .dropGuard lock => some lock
    | _ => none
  rank _ := 0

/-- A program of the vault that gives back the locks it takes, one after another. -/
structure Tidy (p : VaultProg ε α) : Prop where
  balanced : vaultOrder.Balanced [] p

theorem Unlocked.free {op : VaultOp} (unlocked : Unlocked op) : vaultOrder.Free op := by
  cases op <;> first | exact ⟨rfl, rfl⟩ | exact unlocked.elim

theorem Views.unlocked {op : VaultOp} (views : Views op) : Unlocked op := by
  rcases views with (looks | ⟨path, rfl⟩) | rfl
  · exact looks.unlocked
  · trivial
  · trivial

theorem tidy_of_unlocked {p : VaultProg ε α} (unlocked : p.Within Unlocked) : Tidy p :=
  ⟨LockOrder.balanced_of_within (unlocked.mono fun _ => Unlocked.free) []⟩

theorem tidy_of_views {p : VaultProg ε α} (views : p.Within Views) : Tidy p :=
  tidy_of_unlocked (views.mono fun _ => Views.unlocked)

/-- The lock that a task has entered. -/
def entered : Hold Text → List Nat
  | .away | .waiting .. => []
  | .holding _ lock => [lock]

theorem Disciplined.ordered {hold : Hold Text} {p : VaultProg ε α} (disciplined : Disciplined hold p) :
    vaultOrder.Ordered [] (entered hold) p := by
  induction p generalizing hold with
  | done value =>
    obtain rfl : hold = .away := disciplined
    exact rfl
  | fail error =>
    obtain rfl : hold = .away := disciplined
    exact rfl
  | call op next ih =>
    obtain ⟨permitted, rest⟩ := disciplined
    have later (answer : op.Resp) := ih answer (rest answer)
    have free (unlocked : Unlocked op) : vaultOrder.Ordered [] (entered hold) (.call op next) := by
      refine (LockOrder.ordered_free unlocked.free).mpr fun answer => ?_
      have here := later answer
      rwa [unlocked.holdAfter] at here
    cases hold with
    | away =>
      cases op with
      | lockFor identity => exact (LockOrder.ordered_free ⟨rfl, rfl⟩).mpr later
      | lockOwned lock => rcases permitted with looks | never <;> contradiction
      | dropGuard lock => rcases permitted with looks | never <;> contradiction
      | _ => exact free trivial
    | waiting identity lock =>
      cases op with
      | lockOwned asked =>
        obtain rfl : asked = lock := permitted
        exact (LockOrder.ordered_take rfl).mpr ⟨nofun, later⟩
      | _ => exact permitted.elim
    | holding identity lock =>
      cases op with
      | dropGuard given =>
        obtain rfl : given = lock := permitted
        exact (LockOrder.ordered_give rfl rfl).mpr ⟨[], rfl, later⟩
      | lockFor _ => exact permitted.elim
      | lockOwned _ => exact permitted.elim
      | _ => exact free trivial

theorem Tidy.bind {p : VaultProg ε α} {f : α → VaultProg ε β} (first : Tidy p) (rest : ∀ value, Tidy (f value)) :
    Tidy (p.bind f) :=
  ⟨first.balanced.bind fun value => (rest value).balanced⟩

theorem Tidy.attempt_bind {δ : Type} {p : VaultProg ε α} {f : Except ε α → VaultProg δ β} (first : Tidy p)
    (rest : ∀ result, Tidy (f result)) : Tidy ((p.attempt : VaultProg δ (Except ε α)).bind f) :=
  ⟨first.balanced.attempt_bind fun result => (rest result).balanced⟩

theorem tidy_done (value : α) : Tidy (.done value : VaultProg ε α) := ⟨rfl⟩

theorem tidy_fail (error : ε) : Tidy (.fail error : VaultProg ε α) := ⟨rfl⟩

theorem Tidy.ite {c : Prop} [Decidable c] {p q : VaultProg ε α} (left : Tidy p) (right : Tidy q) :
    Tidy (if c then p else q) := by
  split
  · exact left
  · exact right

theorem Tidy.argument {δ : Type} {convert : δ → ε} {answer : Except δ α} {f : α → VaultProg ε β}
    (rest : ∀ value, Tidy (f value)) : Tidy ((Prog.ofExcept convert answer).bind f) :=
  Tidy.bind ⟨LockOrder.balanced_ofExcept [] convert answer⟩ rest

theorem mutate_tidy (writer : VaultWriter) (path : Text) (base : Option Text) (mutation : Mutation) (fuel : Nat) :
    Tidy ((writer.mutate path base mutation fuel).mapError DispatchError.write) :=
  ⟨(mutate_disciplined writer path base mutation fuel).ordered.mapError⟩

namespace Framework

variable (framework : Framework)

theorem refuseLinks_unlocked (walked rest : List Name) : (refuseLinks walked rest).Within Unlocked := by
  induction rest generalizing walked with
  | nil => trivial
  | cons name rest ih =>
    refine (fs_unlocked _).bind fun answer => ?_
    match answer with
    | .ok metadata =>
      dsimp only
      split
      · trivial
      · exact ih _
    | .error .notFound => exact ih _
    | .error .alreadyExists => trivial
    | .error .other => trivial

theorem toolIo_unlocked (op : FsOp) (message : Text) : (ToolProg.io op message).Within Unlocked :=
  (fs_unlocked op).bind fun _ => Within.ofExcept ..

theorem checkPath_unlocked (path : Text) : (framework.checkPath path).Within Unlocked :=
  (framework.checkPath_looks path).mono fun _ => Looks.unlocked

theorem canonical_unlocked (path : Text) :
    ((canonicalVaultPathForWrite framework.root path).mapError pathError).Within Unlocked :=
  ((canonicalVaultPathForWrite_looks _ _).mono fun _ => Looks.unlocked).mapError

theorem publishMetadata_unlocked (path normalized source canonical : Text) (target temporary : FsPath)
    (existed overwrite : Bool) :
    (framework.publishMetadata path normalized source canonical target temporary existed overwrite).Within Unlocked := by
  unfold publishMetadata
  refine (toolIo_unlocked _ _).bind fun file => (toolIo_unlocked _ _).bind fun _ => (toolIo_unlocked _ _).bind fun _ => ?_
  refine (framework.checkPath_unlocked _).bind fun _ => (framework.canonical_unlocked _).bind fun current => ?_
  refine (framework.checkPath_unlocked _).bind fun _ => (framework.checkPath_unlocked _).bind fun _ => ?_
  split
  · trivial
  split
  · exact (toolIo_unlocked _ _).bind fun _ => trivial
  · refine (fs_unlocked _).bind fun answer => ?_
    match answer with
    | .ok () => trivial
    | .error .alreadyExists => trivial
    | .error .notFound => trivial
    | .error .other => trivial

theorem removeTemporary_unlocked (temporary : FsPath) (result : Except DispatchError Bool) :
    (removeTemporary temporary result).Within Unlocked := by
  refine (fs_unlocked _).bind fun answer => ?_
  match answer, result with
  | .ok (), result => exact Within.ofExcept ..
  | .error .notFound, result => exact Within.ofExcept ..
  | .error .alreadyExists, .ok _ => trivial
  | .error .alreadyExists, .error _ => trivial
  | .error .other, .ok _ => trivial
  | .error .other, .error _ => trivial

theorem writeMarkdownSchema_tidy (path source : Text) (overwrite : Bool) (fuel : Nat) :
    Tidy (framework.writeMarkdownSchema path source overwrite fuel) := by
  unfold writeMarkdownSchema
  cases overwrite with
  | false =>
    have created : Tidy ((framework.writer.createNote path source none fuel).mapError DispatchError.write) := mutate_tidy ..
    exact created.bind fun _ => tidy_done _
  | true =>
    refine Tidy.bind (tidy_of_views ((framework.readOptionalText_reads path).mono fun _ => .inl)) fun current => ?_
    cases current with
    | some content => exact Tidy.bind (mutate_tidy ..) fun _ => tidy_done _
    | none => exact Tidy.bind (mutate_tidy ..) fun _ => tidy_done _

theorem writeMetadata_tidy (path source : Text) (overwrite : Bool) (fuel : Nat) :
    Tidy (framework.writeMetadata path source overwrite fuel) := by
  unfold writeMetadata
  refine Tidy.bind (tidy_of_unlocked (framework.checkPath_unlocked path)) fun normalized => ?_
  split
  · exact framework.writeMarkdownSchema_tidy normalized source overwrite fuel
  split
  · exact tidy_fail _
  refine Tidy.bind (tidy_of_unlocked (framework.canonical_unlocked _)) fun found => ?_
  refine Tidy.bind (tidy_of_unlocked (framework.checkPath_unlocked _)) fun _ => ?_
  refine Tidy.bind (tidy_of_unlocked (refuseLinks_unlocked _ _)) fun _ => ?_
  refine Tidy.bind (tidy_of_unlocked (toolIo_unlocked _ _)) fun existed => ?_
  split
  · exact tidy_fail _
  split
  · exact tidy_fail _
  refine tidy_of_unlocked (Within.bind (Within.mapError ((createDirAll_makes _).mono ?_)) fun _ => ?_)
  · rintro op (looks | ⟨path, rfl⟩)
    · exact looks.unlocked
    · trivial
  · refine Within.bind ⟨trivial, fun _ => trivial⟩ fun id => ?_
    exact (framework.publishMetadata_unlocked ..).attempt.bind fun _ => removeTemporary_unlocked _ _

end Framework

section Notes

variable (reader : VaultReader) (writer : VaultWriter) (fuel : Nat)

theorem readNote_tidy {δ : Type} (convert : VaultReaderError → δ) (path : Text) :
    Tidy ((reader.readNote path).mapError convert) :=
  tidy_of_views (readNote_views reader path).mapError

theorem read_tidy (path : Text) : Tidy (Daily.read reader path) := readNote_tidy reader readError path

theorem get_tidy (date : Text) : Tidy (Daily.get reader writer fuel date) := by
  unfold Daily.get
  generalize Daily.path date = place
  generalize Daily.template = original
  refine Tidy.attempt_bind (tidy_of_views (readNote_views reader _)) fun answer => ?_
  cases answer with
  | ok note => exact tidy_done note
  | error error =>
    dsimp only
    split
    · exact (read_tidy reader _).bind fun template => Tidy.bind (mutate_tidy ..) fun _ => read_tidy reader _
    · exact tidy_fail _

theorem append_tidy (date : Text) (args : Arguments) : Tidy (Daily.append reader writer fuel date args) := by
  unfold Daily.append
  generalize Daily.path date = place
  refine Tidy.argument fun content => Tidy.argument fun base => Tidy.argument fun section' => ?_
  refine (read_tidy reader _).bind fun note => Tidy.argument fun entry => Tidy.argument fun content => ?_
  exact Tidy.bind (mutate_tidy ..) fun _ => read_tidy reader _

theorem repair_tidy (date : Text) (args : Arguments) : Tidy (Daily.repair reader writer fuel date args) := by
  unfold Daily.repair
  generalize Daily.path date = place
  generalize Daily.template = original
  refine Tidy.argument fun base => (read_tidy reader _).bind fun note => (read_tidy reader _).bind fun template => ?_
  cases Daily.repairedText note.content template.content with
  | none => exact tidy_done note
  | some repaired => exact Tidy.bind (mutate_tidy ..) fun _ => read_tidy reader _

theorem daily_tidy (name date : Text) (args : Arguments) : Tidy (Daily.daily reader writer fuel name date args) := by
  have unknown : Tidy (Prog.fail (.unknownTool name) : ToolProg ReadNoteResult) := tidy_fail _
  unfold Daily.daily
  refine Tidy.ite (get_tidy reader writer fuel date) (Tidy.ite (append_tidy reader writer fuel date args) ?_)
  exact Tidy.ite (repair_tidy reader writer fuel date args) unknown

end Notes

namespace SchemaFramework

variable (service : SchemaFramework) (fuel : Nat)

theorem createRecord_tidy (args : Arguments) : Tidy (service.createRecord fuel args) := by
  unfold createRecord
  refine Tidy.argument fun kind => Tidy.argument fun title => Tidy.argument fun date => ?_
  refine (tidy_of_views (service.parseDate_views date)).bind fun date => Tidy.argument fun body => ?_
  refine (tidy_of_views service.compose_views).bind fun schema => ?_
  split
  · exact tidy_fail _
  · refine (tidy_of_views (service.readTemplate_views _)).bind fun template => Tidy.argument fun fields => ?_
    exact mutate_tidy ..

theorem writeNote_tidy (name : Text) (args : Arguments) : Tidy (service.writeNote fuel name args) := by
  unfold writeNote
  refine Tidy.argument fun path => ?_
  refine Tidy.ite (Tidy.argument fun content => Tidy.argument fun fields => mutate_tidy ..) ?_
  refine Tidy.ite (Tidy.argument fun content => Tidy.argument fun base => Tidy.argument fun fields => mutate_tidy ..) ?_
  refine Tidy.ite (Tidy.argument fun patch => ?_) ?_
  · cases patch with
    | none => exact tidy_fail _
    | some patch => exact Tidy.argument fun base => mutate_tidy ..
  refine Tidy.ite (Tidy.argument fun marker => Tidy.argument fun content => Tidy.argument fun base => mutate_tidy ..) ?_
  refine Tidy.ite (Tidy.argument fun base => mutate_tidy ..) ?_
  exact Tidy.ite (Tidy.argument fun base => mutate_tidy ..) (tidy_fail _)

end SchemaFramework

end VaultLocks

section ToolLocks

/-- The locks of the runtime and those of the writer, in the order in which they are taken. -/
def toolOrder : LockOrder RuntimeOp (Mutex ⊕ Nat) where
  takes
    | .lock mutex => some (.inl mutex)
    | .vault (.lockOwned lock) => some (.inr lock)
    | _ => none
  gives
    | .unlock mutex => some (.inl mutex)
    | .vault (.dropGuard lock) => some (.inr lock)
    | _ => none
  rank
    | .inl .frameworkMutation => 0
    | .inl .indexRefresh | .inl .registry => 1
    | .inr _ => 2

/-- With the locks `held` the program takes more in the order only, and gives back what it takes. -/
structure InOrder (held : List (Mutex ⊕ Nat)) (p : RuntimeProg ε α) : Prop where
  balanced : toolOrder.Balanced held p

variable {held : List (Mutex ⊕ Nat)}

theorem InOrder.bind {p : RuntimeProg ε α} {f : α → RuntimeProg ε β} (first : InOrder held p)
    (rest : ∀ value, InOrder held (f value)) : InOrder held (p.bind f) :=
  ⟨first.balanced.bind fun value => (rest value).balanced⟩

theorem InOrder.attempt_bind {δ : Type} {p : RuntimeProg ε α} {f : Except ε α → RuntimeProg δ β} (first : InOrder held p)
    (rest : ∀ result, InOrder held (f result)) : InOrder held ((p.attempt : RuntimeProg δ (Except ε α)).bind f) :=
  ⟨first.balanced.attempt_bind fun result => (rest result).balanced⟩

theorem InOrder.ite {c : Prop} [Decidable c] {p q : RuntimeProg ε α} (left : InOrder held p) (right : InOrder held q) :
    InOrder held (if c then p else q) := by
  split
  · exact left
  · exact right

theorem inOrder_done (value : α) : InOrder held (.done value : RuntimeProg ε α) := ⟨rfl⟩

theorem inOrder_fail (error : ε) : InOrder held (.fail error : RuntimeProg ε α) := ⟨rfl⟩

theorem inOrder_ofExcept {δ : Type} (convert : δ → ε) (answer : Except δ α) :
    InOrder held (.ofExcept convert answer : RuntimeProg ε α) :=
  ⟨LockOrder.balanced_ofExcept held convert answer⟩

theorem InOrder.argument {δ : Type} {convert : δ → ε} {answer : Except δ α} {f : α → RuntimeProg ε β}
    (rest : ∀ value, InOrder held (f value)) : InOrder held ((Prog.ofExcept convert answer).bind f) :=
  (inOrder_ofExcept convert answer).bind rest

theorem Peeks.free {op : RuntimeOp} (peeks : Peeks op) : toolOrder.Free op := by
  cases peeks with
  | vault views =>
    have unlocked := views.unlocked
    rename_i op
    cases op <;> first | exact ⟨rfl, rfl⟩ | exact unlocked.elim
  | _ => exact ⟨rfl, rfl⟩

theorem inOrder_of_peeks {p : RuntimeProg ε α} (peeks : p.Within Peeks) : InOrder held p :=
  ⟨LockOrder.balanced_of_within (peeks.mono fun _ => Peeks.free) held⟩

/-- Vault code in the runtime takes the locks of the writer above all others. -/
theorem ofVault_ordered {base inner : List Nat} {p : VaultProg ε α} (ordered : vaultOrder.Ordered base inner p)
    (below : ∀ other ∈ held, toolOrder.rank other < 2) :
    toolOrder.Ordered (base.map .inr ++ held) (inner.map .inr ++ held) (ofVault p) := by
  induction p generalizing inner with
  | done value =>
    obtain rfl : inner = base := ordered
    exact rfl
  | fail error =>
    obtain rfl : inner = base := ordered
    exact rfl
  | call op next ih =>
    have free (free : vaultOrder.Free op) (free' : toolOrder.Free (.vault op)) :
        toolOrder.Ordered (base.map .inr ++ held) (inner.map .inr ++ held) (ofVault (Prog.call op next)) :=
      (LockOrder.ordered_free free').mpr fun answer => ih answer ((LockOrder.ordered_free free).mp ordered answer)
    cases op with
    | lockOwned lock =>
      obtain ⟨first, rest⟩ := (LockOrder.ordered_take rfl).mp ordered
      refine (LockOrder.ordered_take rfl).mpr ⟨fun other inside => ?_, fun answer => ih answer (rest answer)⟩
      rcases List.mem_append.mp inside with own | outer
      · obtain ⟨number, here, rfl⟩ := List.mem_map.mp own
        exact absurd (first number here) (Nat.lt_irrefl 0)
      · exact below other outer
    | dropGuard lock =>
      obtain ⟨rest, rfl, later⟩ := (LockOrder.ordered_give rfl rfl).mp ordered
      exact (LockOrder.ordered_give rfl rfl).mpr ⟨rest.map .inr ++ held, rfl, fun answer => ih answer (later answer)⟩
    | _ => exact free ⟨rfl, rfl⟩ ⟨rfl, rfl⟩

theorem Tidy.inOrder {p : VaultProg ε α} (tidy : Tidy p) (below : ∀ other ∈ held, toolOrder.rank other < 2) :
    InOrder held (ofVault p) :=
  ⟨ofVault_ordered tidy.balanced below⟩

/-- The work under one of the inner mutexes. -/
theorem inOrder_guarded {mutex : Mutex} {p : RuntimeProg ε α} (below : toolOrder.Below held (.inl mutex))
    (work : InOrder (.inl mutex :: held) p) : InOrder held (guarded mutex p) :=
  ⟨LockOrder.balanced_guarded rfl ⟨rfl, rfl⟩ below work.balanced fun result => LockOrder.balanced_ofExcept held id result⟩

/-- The locks from which the runtime may take one of its inner mutexes. -/
def Low (held : List (Mutex ⊕ Nat)) : Prop := ∀ other ∈ held, toolOrder.rank other < 1

theorem Low.writer (low : Low held) : ∀ other ∈ held, toolOrder.rank other < 2 :=
  fun other inside => (low other inside).trans (by decide)

theorem Low.inner (low : Low held) {mutex : Mutex} (inner : mutex ≠ .frameworkMutation) :
    toolOrder.Below held (.inl mutex) ∧ ∀ other ∈ .inl mutex :: held, toolOrder.rank other < 2 := by
  have rank : toolOrder.rank (.inl mutex) = 1 := by
    cases mutex with
    | frameworkMutation => exact absurd rfl inner
    | indexRefresh => rfl
    | registry => rfl
  refine ⟨fun other inside => rank ▸ low other inside, fun other inside => ?_⟩
  rcases List.mem_cons.mp inside with rfl | inside
  · rw [rank]
    decide
  · exact low.writer other inside

theorem coldRebuild_inOrder (low : Low held) (reader : VaultReader) (fuel : Nat) :
    InOrder held (coldRebuild reader fuel) := by
  refine inOrder_guarded (low.inner (by decide)).1 ?_
  rw [refresh_eq]
  refine (inOrder_of_peeks (collect_peeks reader fuel)).bind fun found => ?_
  exact ⟨(LockOrder.ordered_free ⟨rfl, rfl⟩).mpr fun answer => LockOrder.balanced_ofExcept _ _ answer⟩

namespace SchemaFramework

variable (service : SchemaFramework) (fuel : Nat)

theorem registry_inOrder (low : Low held) {p : ToolProg α} (tidy : Tidy p) :
    InOrder held (guarded .registry (ofVault p)) :=
  inOrder_guarded (low.inner (by decide)).1 (tidy.inOrder (low.inner (by decide)).2)

theorem saveRegistrations_tidy (entries : List Registration) : Tidy (service.saveRegistrations entries fuel) :=
  (service.writeMetadata_tidy ..).bind fun _ => tidy_done ()

theorem init_inOrder (low : Low held) (args : Arguments) : InOrder held (service.init args fuel) := by
  unfold init
  refine InOrder.argument fun framework => InOrder.argument fun source => InOrder.argument fun path => ?_
  refine InOrder.argument fun mode => InOrder.ite (inOrder_fail _) ?_
  exact (registry_inOrder low (service.writeMetadata_tidy ..)).bind fun _ => inOrder_done _

theorem register_inOrder (low : Low held) (args : Arguments) : InOrder held (service.register args fuel) := by
  have checks (path : Text) : InOrder held (ofVault (service.checkPath path)) :=
    (tidy_of_unlocked (service.checkPath_unlocked path)).inOrder low.writer
  unfold register
  refine InOrder.argument fun name => InOrder.argument fun path => (checks path).bind fun path => ?_
  refine ((tidy_of_unlocked (service.canonical_unlocked path)).inOrder low.writer).bind fun found => ?_
  refine (checks found.1).bind fun _ => InOrder.argument fun priority => ?_
  refine (registry_inOrder low ?_).bind fun _ => inOrder_done _
  exact (tidy_of_views service.registrations_views).bind fun entries =>
    (service.saveRegistrations_tidy fuel _).bind fun _ => tidy_done _

theorem unregister_inOrder (low : Low held) (args : Arguments) : InOrder held (service.unregister args fuel) := by
  unfold unregister
  refine InOrder.argument fun name => (registry_inOrder low ?_).bind fun _ => inOrder_done _
  unfold removeRegistration
  refine (tidy_of_views service.registrations_views).bind fun entries => ?_
  exact Tidy.ite ((service.saveRegistrations_tidy fuel _).bind fun _ => tidy_done _) (tidy_done _)

theorem capture_inOrder (low : Low held) (name : Text) (args : Arguments) :
    InOrder held (service.capture fuel name args) := by
  unfold capture
  refine InOrder.argument fun content => InOrder.argument fun client => InOrder.argument fun source => ?_
  refine InOrder.argument fun captureType => InOrder.argument fun title => InOrder.argument fun date => ?_
  refine ((tidy_of_views (service.parseDate_views date)).inOrder low.writer).bind fun date => ?_
  refine InOrder.argument fun strategy => InOrder.ite (inOrder_fail _) ?_
  refine ((tidy_of_views service.compose_views).inOrder low.writer).bind fun schema => ?_
  refine (inOrder_of_peeks (findCapture_peeks _ source)).bind fun path => ?_
  cases path with
  | some path =>
    refine Tidy.inOrder ?_ low.writer
    exact (readNote_tidy ..).bind fun current => Tidy.argument fun metadata => mutate_tidy ..
  | none =>
    refine Tidy.inOrder ?_ low.writer
    unfold createCapture
    split
    · exact tidy_fail _
    · exact service.createRecord_tidy fuel _

theorem findMaps_inOrder (low : Low held) (args : Arguments) : InOrder held (service.findMaps args) := by
  unfold findMaps
  refine InOrder.argument fun topic => ((tidy_of_views service.compose_views).inOrder low.writer).bind fun schema => ?_
  exact (inOrder_of_peeks (searchFolders_peeks _ _ _)).bind fun _ => inOrder_done _

theorem dailyTool_tidy (name : Text) (args : Arguments) : Tidy (service.daily fuel name args) := by
  unfold daily
  refine Tidy.argument fun date => (tidy_of_views (service.parseDate_views date)).bind fun date => ?_
  exact daily_tidy service.reader service.writer fuel name _ args

theorem dispatch_inOrder (low : Low held) (name : Text) (args : Arguments) :
    InOrder held (service.dispatch fuel name args) := by
  have done {α : Type} {p : ToolProg α} (tidy : Tidy p) (reply : α → FrameworkReply) :
      InOrder held ((ofVault p).bind fun value => .done (reply value)) :=
    (tidy.inOrder low.writer).bind fun _ => inOrder_done _
  unfold dispatch
  refine .ite (service.init_inOrder fuel low args) (.ite (service.register_inOrder fuel low args) ?_)
  refine .ite (service.unregister_inOrder fuel low args) (.ite (done (tidy_of_views service.registrations_views) _) ?_)
  refine .ite ((tidy_of_views service.reload_views).inOrder low.writer) ?_
  refine .ite (done (tidy_of_views service.compose_views) _) (.ite (done (tidy_of_views service.recordTypes_views) _) ?_)
  refine .ite ((service.findMaps_inOrder low args).bind fun _ => inOrder_done _) ?_
  refine .ite (done (service.createRecord_tidy fuel args) _) ?_
  refine .ite ((service.capture_inOrder fuel low name args).bind fun _ => inOrder_done _) ?_
  exact .ite (done (service.dailyTool_tidy fuel name args) _) (inOrder_fail _)

theorem refreshAfter_inOrder (low : Low held) (reply : ToolReply) : InOrder held (service.refreshAfter fuel reply) :=
  (coldRebuild_inOrder low service.reader fuel).attempt_bind fun _ => inOrder_done _

end SchemaFramework

/-- A tool takes its locks in order, and gives them all back. -/
theorem program_inOrder (service : SchemaFramework) (fuel : Nat) (toolCall : ToolCall) :
    InOrder [] (toolCall.program service fuel) := by
  have low : Low [] := nofun
  cases toolCall with
  | write name args =>
    exact ((service.writeNote_tidy fuel name args).inOrder low.writer).bind fun _ => service.refreshAfter_inOrder fuel low _
  | framework name args =>
    refine InOrder.ite ?_ ((service.dispatch_inOrder fuel low name args).bind fun _ => inOrder_done _)
    have outer : Low [.inl .frameworkMutation] := fun other inside => by
      rw [List.mem_singleton.mp inside]
      decide
    refine inOrder_guarded nofun ?_
    exact (service.dispatch_inOrder fuel outer name args).bind fun _ => service.refreshAfter_inOrder fuel outer _

end ToolLocks

end SecondBrain
