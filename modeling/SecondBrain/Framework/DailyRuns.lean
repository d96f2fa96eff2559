import SecondBrain.Framework.DailyRepair
import SecondBrain.Vault.Footprint
import SecondBrain.Vault.WriterRuns

set_option autoImplicit false

/-! Edits of daily notes beside other writes, and the versions they are made of. -/

namespace SecondBrain

open FileSystem (Name Tree)
open Prog (Notes Returns notes_done notes_ofExcept)

namespace Daily

inductive Reply where
  | note (note : ReadNoteResult)
  | written (result : WriteResult)

/-- A call of a daily tool or of a write tool. The lock that the daily tools also take among
each other only rules out some of the runs. -/
inductive Task where
  | append (date : Text) (args : Arguments)
  | repair (date : Text) (args : Arguments)
  | write (call : VaultWriter.WriteCall)

section Notes

variable (reader : VaultReader) (writer : VaultWriter) (fuel : Nat)

def Task.program : Task → ToolProg Reply
  | append date args => do return .note (← Daily.append reader writer fuel date args)
  | repair date args => do return .note (← Daily.repair reader writer fuel date args)
  | write call => do return .written (← (writer.run call fuel).mapError .write)

/-- What an append has done: it read a version, made the section of it, and the writer put
that into the version that has the hash named. -/
def Appended (args : Arguments) (footprints : List Footprint) : Prop :=
  ∃ base content section' entry version replaced current text last,
    string args "base_sha256".toList = .ok base ∧ string args "content".toList = .ok content ∧
    optionalString args "section".toList = .ok section' ∧
    writableSection (section'.getD "daily-log".toList) = .ok entry ∧
    appendedSection version entry.marker content = .ok replaced ∧ writer.sha256 current = base ∧
    replaceMarker current entry.marker replaced = .ok text ∧
    footprints = [.read version, .read current, .wrote text, .moved, .read last]

/-- What a repair has done. -/
def Repaired (args : Arguments) (footprints : List Footprint) : Prop :=
  ∃ base version template, string args "base_sha256".toList = .ok base ∧
    (repairedText version template = none ∧ footprints = [.read version, .read template] ∨
      ∃ current text last, repairedText version template = some text ∧ writer.sha256 current = base ∧
        footprints = [.read version, .read template, .read current, .wrote text, .moved, .read last])

theorem read_notes (path : Text) (past : List Footprint) :
    Notes footprint (Adds past fun note => [.read (ReadNoteResult.content note)]) (read reader path) past :=
  Returns.mapError (readNote_notes reader path past)

theorem append_notes (date : Text) (args : Arguments) :
    Notes footprint (Returns fun _ => Appended writer args) (Daily.append reader writer fuel date args) [] := by
  unfold Daily.append
  simp only [Prog.bind_eq]
  refine notes_ofExcept (fun content hasContent => ?_) fun _ => .error
  refine notes_ofExcept (fun base hasBase => ?_) fun _ => .error
  refine notes_ofExcept (fun section' hasSection => ?_) fun _ => .error
  refine (read_notes reader (path date) []).bind (fun version after added => ?_) fun _ _ _ => .error
  obtain rfl := added version rfl
  refine notes_ofExcept (fun entry found => ?_) fun _ => .error
  refine notes_ofExcept (fun replaced made => ?_) fun _ => .error
  have rewrites : (Mutation.marker entry.marker replaced).Rewrites := trivial
  have mutated := mutate_notes writer (path date) (some base) rewrites fuel ([] ++ [.read version.content])
  refine (Returns.mapError mutated).bind (fun value after rewritten => ?_) fun _ _ _ => .error
  obtain ⟨current, text, rfl, same, next⟩ := rewritten value rfl
  refine (read_notes reader (path date) _).weaken fun result after added note told => ?_
  obtain rfl := added note told
  exact ⟨base, content, section', entry, version.content, replaced, current, text, note.content, hasBase, hasContent,
    hasSection, found, made, Option.some.inj same, next, by simp⟩

theorem repair_notes (date : Text) (args : Arguments) :
    Notes footprint (Returns fun _ => Repaired writer args) (Daily.repair reader writer fuel date args) [] := by
  unfold Daily.repair
  simp only [Prog.bind_eq]
  refine notes_ofExcept (fun base hasBase => ?_) fun _ => .error
  refine (read_notes reader (path date) []).bind (fun version after added => ?_) fun _ _ _ => .error
  obtain rfl := added version rfl
  refine (read_notes reader template _).bind (fun template after added => ?_) fun _ _ _ => .error
  obtain rfl := added template rfl
  cases made : repairedText version.content template.content with
  | none =>
    exact notes_done.mpr (.ok ⟨base, version.content, template.content, hasBase, .inl ⟨made, by simp⟩⟩)
  | some repaired =>
    have rewrites : (Mutation.replace repaired none).Rewrites := trivial
    have mutated := mutate_notes writer (path date) (some base) rewrites fuel
      ([] ++ [.read version.content] ++ [.read template.content])
    refine (Returns.mapError mutated).bind (fun value after rewritten => ?_) fun _ _ _ => .error
    obtain ⟨current, text, rfl, same, next⟩ := rewritten value rfl
    refine (read_notes reader (path date) _).weaken fun result after added note told => ?_
    obtain rfl := added note told
    cases next
    exact ⟨base, version.content, template.content, hasBase,
      .inr ⟨current, repaired, note.content, made, Option.some.inj same, by simp⟩⟩

end Notes

section Runs

variable {writer : VaultWriter} {args : Arguments} {footprints : List Footprint}

theorem published_iff (front : List Footprint) {current last text text' : Text}
    (quiet : ∀ footprint ∈ front, ∃ text, footprint = .read text) :
    Published (front ++ [.read current, .wrote text, .moved, .read last]) text' ↔ text' = text := by
  induction front with
  | nil => simp [Published, List.infix_cons_iff]
  | cons first front ih =>
    rw [List.forall_mem_cons] at quiet
    obtain ⟨⟨read, rfl⟩, quiet⟩ := quiet
    rw [← ih quiet, Published, Published, List.cons_append, List.infix_cons_iff]
    exact or_iff_right (by simp)

/-- The first text that was read has the hash that the call names. -/
def Named (writer : VaultWriter) (args : Arguments) (footprints : List Footprint) : Prop :=
  ∃ base version rest, string args "base_sha256".toList = .ok base ∧ footprints = .read version :: rest ∧
    writer.sha256 version = base

/-- What was published is the version named with the content added in the section. -/
def AddsContent (writer : VaultWriter) (args : Arguments) (footprints : List Footprint) : Prop :=
  ∀ text, Published footprints text → ∃ base content section' entry version,
    string args "base_sha256".toList = .ok base ∧ string args "content".toList = .ok content ∧
    optionalString args "section".toList = .ok section' ∧
    writableSection (section'.getD "daily-log".toList) = .ok entry ∧
    writer.sha256 version = base ∧ appendText entry.marker version content = some text

/-- What was published is the version named followed by the missing blocks. -/
def AddsBlocks (writer : VaultWriter) (args : Arguments) (footprints : List Footprint) : Prop :=
  ∀ text, Published footprints text → ∃ base version template, string args "base_sha256".toList = .ok base ∧
    writer.sha256 version = base ∧ .read template ∈ footprints ∧ repairedText version template = some text

theorem Appended.published (appended : Appended writer args footprints) : ∃ text, Published footprints text := by
  obtain ⟨_, _, _, _, version, _, current, text, last, -, -, -, -, -, -, -, rfl⟩ := appended
  exact ⟨text, (published_iff [.read version] (by simp)).mpr rfl⟩

theorem Appended.respects (injective : Function.Injective writer.sha256) (appended : Appended writer args footprints)
    (named : Named writer args footprints) : AddsContent writer args footprints := by
  obtain ⟨base, content, section', entry, version, replaced, current, text, last, hasBase, hasContent, hasSection,
    found, made, same, next, rfl⟩ := appended
  obtain ⟨base', version', rest, hasBase', shape, same'⟩ := named
  obtain rfl : base = base' := Except.ok.inj (hasBase.symm.trans hasBase')
  obtain rfl : version' = version := by
    injection shape with first
    injection first with first
    exact first.symm
  obtain rfl := injective (same'.trans same.symm)
  intro text' published
  obtain rfl := (published_iff [.read version'] (by simp)).mp published
  refine ⟨base, content, section', entry, version', hasBase, hasContent, hasSection, found, same', ?_⟩
  rw [appendText, made]
  simp only [Except.bind, next, Except.toOption]

theorem Repaired.respects (repaired : Repaired writer args footprints)
    (named : Named writer args footprints) : AddsBlocks writer args footprints := by
  obtain ⟨base, version, template, hasBase, ⟨-, rfl⟩ | ⟨current, text, last, made, same, rfl⟩⟩ := repaired
  · intro text published
    simp [Published, List.infix_cons_iff] at published
  · obtain ⟨base', version', rest, hasBase', shape, same'⟩ := named
    obtain rfl : version' = version := by
      injection shape with first
      injection first with first
      exact first.symm
    intro text' published
    obtain rfl := (published_iff [.read version', .read template] (by simp)).mp published
    exact ⟨base', version', template, hasBase', same', by simp, made⟩

variable {fold : Name → Name} {setting : Setting fold} {I : Type} [DecidableEq I] {task : I → Nat}
  {reader : VaultReader} {fuel : Nat}

/-- In every run, an append or a repair that read the version it names publishes that version
with its own change and nothing else. -/
theorem edits_respect_version (injective : Function.Injective writer.sha256) {threads : I → Task}
    {start w : World fold} {current : I → ToolProg Reply} {notes : I → List Footprint}
    (pool : Pool (noting footprint fun i => VaultEffect setting (task i))
      (fun i => (threads i).program reader writer fuel) (start, fun _ => []) current (w, notes))
    {i : I} {reply : Reply} (finished : current i = .done reply) :
    (∀ date args, threads i = .append date args → (∃ text, Published (notes i) text) ∧
      (Named writer args (notes i) → AddsContent writer args (notes i))) ∧
    ∀ date args, threads i = .repair date args → Named writer args (notes i) →
      AddsBlocks writer args (notes i) := by
  have reach := pool.noting_reach i
  dsimp only at reach
  rw [finished] at reach
  constructor
  · intro date args isAppend
    rw [isAppend] at reach
    have appended : Notes footprint (Returns fun _ => Appended writer args)
        ((Task.append date args).program reader writer fuel) [] :=
      (append_notes reader writer fuel date args).bind (fun note after here => notes_done.mpr (.ok (here note rfl)))
        fun _ _ _ => .error
    have here := appended.reach reach reply rfl
    exact ⟨here.published, here.respects injective⟩
  · intro date args isRepair
    rw [isRepair] at reach
    have repaired : Notes footprint (Returns fun _ => Repaired writer args)
        ((Task.repair date args).program reader writer fuel) [] :=
      (repair_notes reader writer fuel date args).bind (fun note after here => notes_done.mpr (.ok (here note rfl)))
        fun _ _ _ => .error
    exact (repaired.reach reach reply rfl).respects

end Runs

/-- A vault with the daily note of one day. -/
def dailyVault (content : Text) : World id where
  tree := ((((Tree.bare id).put [] ⟨"v".toList, .dir true, 0, 0⟩).put ["v".toList] ⟨"Calendar".toList, .dir true, 0, 0⟩).put
    ["v".toList, "Calendar".toList] ⟨"Days".toList, .dir true, 0, 0⟩).put
      ["v".toList, "Calendar".toList, "Days".toList] ⟨"d.md".toList, .file (.utf8 content), 0o644, 0⟩
  locks := .empty
  audit := .empty
  checks := []
  drawn := []

def plainReader : VaultReader := ⟨["v".toList], [], plainCodecs, id⟩

def versionA : Text := dailyLog "\n- a\n".toList

def versionB : Text := dailyLog "\n- b\n".toList

def replaceDaily (base content : Text) : Task :=
  .write ⟨path "d".toList, some base, .replace content none, by simp⟩

def appendToA : Arguments :=
  [("content".toList, .string "- c".toList), ("base_sha256".toList, .string versionA)]

/-- The note goes from the first version to the second and back, and the append, which names
the first, reads in between. -/
def backAndForth : Fin 3 → Task
  | 0 => .append "d".toList appendToA
  | 1 => replaceDaily versionA versionB
  | 2 => replaceDaily versionB versionA

/-- The calls run as a schedule says, on a note that holds the first version. -/
def backAndForthRun (schedule : List (Fin 3 × Nat)) :=
  Pool.exec footprint (fun i : Fin 3 => (plainScript fun _ => false).run i.val) schedule
    (fun i => (backAndForth i).program plainReader plainWriter 3) (dailyVault versionA, fun _ => [])

/-- What is computed of a schedule is true of a run. -/
theorem backAndForth_pool {schedule : List (Fin 3 × Nat)} {footprints : List Footprint}
    (ran : (backAndForthRun schedule).map (fun ran => ((ran.1 0).isDone, ran.2.2 0)) = some (true, footprints)) :
    ∃ current w notes reply, Pool (noting footprint fun i : Fin 3 => VaultEffect plainSetting i.val)
      (fun i => (backAndForth i).program plainReader plainWriter 3) (dailyVault versionA, fun _ => []) current
        (w, notes) ∧ current 0 = .done reply ∧ notes 0 = footprints := by
  obtain ⟨⟨current, w, notes⟩, computed, same⟩ := Option.map_eq_some_iff.mp ran
  obtain ⟨finished, same⟩ := Prod.mk.inj same
  obtain ⟨reply, finished⟩ := Prog.isDone_iff.mp finished
  refine ⟨current, w, notes, reply, Pool.exec_pool (fun i op w answer t told => ?_) .start computed, finished, same⟩
  exact Script.run_effect rfl (fun _ => trivial) (fun _ _ _ => trivial) op w answer t told

/-- The append on its own. -/
theorem edits_respect_version_alone : ∃ notes : Fin 3 → List Footprint,
    (∃ text, Published (notes 0) text) ∧ AddsContent plainWriter appendToA (notes 0) := by
  have ran : (backAndForthRun [(0, 1000)]).map (fun ran => ((ran.1 0).isDone, ran.2.2 0)) =
      some (true, [.read versionA, .read versionA, .wrote (dailyLog "\n- a\n- c\n".toList), .moved,
        .read (dailyLog "\n- a\n- c\n".toList)]) := by decide +kernel
  obtain ⟨current, w, notes, reply, pool, finished, same⟩ := backAndForth_pool ran
  have respects := (edits_respect_version Function.injective_id pool finished).1 "d".toList appendToA rfl
  exact ⟨notes, respects.1, respects.2 ⟨versionA, versionA, _, rfl, same, rfl⟩⟩

/-- The append names the first version and publishes the second one with its content. -/
theorem append_takes_other_version :
    ∃ current w notes reply, Pool (noting footprint fun i : Fin 3 => VaultEffect plainSetting i.val)
      (fun i => (backAndForth i).program plainReader plainWriter 3) (dailyVault versionA, fun _ => []) current
        (w, notes) ∧ current 0 = .done reply ∧ ¬ AddsContent plainWriter appendToA (notes 0) := by
  have ran : (backAndForthRun [(1, 1000), (0, 8), (2, 1000), (0, 1000)]).map
      (fun ran => ((ran.1 0).isDone, ran.2.2 0)) =
      some (true, [.read versionB, .read versionA, .wrote (dailyLog "\n- b\n- c\n".toList), .moved,
        .read (dailyLog "\n- b\n- c\n".toList)]) := by decide +kernel
  obtain ⟨current, w, notes, reply, pool, finished, same⟩ := backAndForth_pool ran
  refine ⟨current, w, notes, reply, pool, finished, fun adds => ?_⟩
  have published : Published (notes 0) (dailyLog "\n- b\n- c\n".toList) := by
    rw [same]
    exact ⟨[.read versionB, .read versionA], [.read (dailyLog "\n- b\n- c\n".toList)], rfl⟩
  obtain ⟨base, content, section', entry, version, hasBase, hasContent, hasSection, found, named, made⟩ :=
    adds _ published
  have base' : string appendToA "base_sha256".toList = .ok versionA := by decide +kernel
  have content' : string appendToA "content".toList = .ok "- c".toList := by decide +kernel
  have section'' : optionalString appendToA "section".toList = .ok none := by decide +kernel
  obtain rfl := Except.ok.inj (base'.symm.trans hasBase)
  obtain rfl := Except.ok.inj (content'.symm.trans hasContent)
  obtain rfl := Except.ok.inj (section''.symm.trans hasSection)
  have marker : (writableSection ((none : Option Text).getD "daily-log".toList)).map Section.marker =
      .ok logEntry.marker := by decide +kernel
  rw [found] at marker
  have marker : entry.marker = logEntry.marker := Except.ok.inj marker
  obtain rfl : version = versionA := named
  have other : appendText logEntry.marker versionA "- c".toList = some (dailyLog "\n- a\n- c\n".toList) := by
    decide +kernel
  rw [marker, other] at made
  exact absurd made (by decide +kernel)

end Daily

end SecondBrain
