import SecondBrain.Runtime.Walks
import SecondBrain.Vault.Conflicts
import SecondBrain.Vault.IndexPrivacy
import SecondBrain.Vault.WriterSecrecy

set_option autoImplicit false

/-! The scan of the vault for conflict files, and the notes that it puts into quarantine. -/

namespace SecondBrain

open FileSystem (IoError FsPath FsOp Tree Name)
open Traversal (Visit Entered Traversed)
open Protocol
open RuntimeProg (call io walkDirs)

variable {fold : Name → Name}

/-- What the scan does with an entry. Private subtrees are left out before they are looked at. -/
def scanEntry (vaultRoot full : FsPath) : RuntimeProg RuntimeError (Visit ConflictPair) := do
  match VaultReader.relativePath vaultRoot full with
  | none => return .skip
  | some relative =>
    if ← call (.vault (.isBlocked relative)) then return .skip
    else
      let metadata ← io (.symlinkMetadata full)
      if metadata.isDir then return .enter
      else if isMarkdownPath relative then
        match canonicalConflictPath relative with
        | some canonical => return .emit ⟨canonical, relative⟩
        | none => return .skip
      else return .skip

def scanConflicts (vaultRoot : FsPath) (fuel : Nat) : RuntimeProg RuntimeError (List ConflictPair) :=
  walkDirs .io (scanEntry vaultRoot) fuel [vaultRoot] []

/-- The pair that the scan makes of a file. -/
def conflictPair (_ : FileSystem.Metadata) (relative : Text) : Option ConflictPair :=
  if isMarkdownPath relative then (canonicalConflictPath relative).map (⟨·, relative⟩) else none

section Scan

variable {engine : IndexEngine} {setting : Setting fold} {task : Nat} {t : Tree fold} {vaultRoot : FsPath}
  {blocked : Text → Bool} {w : RuntimeWorld fold}

theorem scanEntry_safe (standing : ∀ policy, setting.policy policy → policy = blocked) {names : List Name}
    (still : w.vault.tree = t) : (alone engine setting task).Safe
      (StillTold t (· = Tree.look t vaultRoot (!blocked ·) conflictPair (vaultRoot ++ names)))
      (scanEntry vaultRoot (vaultRoot ++ names)) w := by
  unfold scanEntry
  rw [relativePath_append, Tree.look, relativePath_append]
  refine sequential_call.mpr fun answer after effect => ⟨trivial, ?_⟩
  cases effect with
  | vault effect =>
  cases effect with
  | isBlocked _ inForce =>
  obtain rfl := standing _ inForce
  rename_i policy
  cases verdict : policy (relativeText names) with
  | true =>
    refine sequential_done.mpr ⟨still, ?_⟩
    rintro _ ⟨⟩
    cases t.symlinkMetadata (vaultRoot ++ names) <;> simp [verdict]
  | false =>
    refine sequential_call.mpr fun answer after effect => ⟨trivial, ?_⟩
    cases effect with
    | vault effect =>
    obtain ⟨rfl, told⟩ := effect.reads rfl
    cases answer with
    | error error => exact sequential_fail.mpr ⟨still, fun _ never => by cases never⟩
    | ok metadata =>
      have found : t.symlinkMetadata (vaultRoot ++ names) = .ok metadata := by
        rcases told with told | told
        · rw [← still]
          exact told.symm
        · cases told
      rw [found]
      simp only [Prog.ofExcept_ok, Prog.done_bind, Prog.pure_eq, verdict, Bool.not_false, Bool.not_true,
        Bool.false_eq_true, if_false, conflictPair]
      have gives {visit : Visit ConflictPair} {after : RuntimeWorld fold} (still : after.vault.tree = t) :
          (alone engine setting task).Safe (StillTold t (· = visit)) (.done visit : RuntimeProg RuntimeError _)
            after :=
        sequential_done.mpr ⟨still, fun _ same => (Except.ok.inj same).symm⟩
      cases metadata.isDir with
      | true => exact gives still
      | false =>
        cases isMarkdownPath (relativeText names) with
        | false => exact gives still
        | true => cases canonicalConflictPath (relativeText names) <;> exact gives still

/-- A file that the scan comes to and takes for a note. -/
def Scanned (t : Tree fold) (blocked : Text → Bool) (vaultRoot : FsPath) (names : List Name) : Prop :=
  names ≠ [] ∧ Tree.Visited t vaultRoot (!blocked ·) names ∧ isMarkdownPath (relativeText names) = true ∧
    ∃ metadata, t.symlinkMetadata (vaultRoot ++ names) = .ok metadata ∧ metadata.isDir = false

/-- What a scan gives of a vault that stands still. -/
theorem scanConflicts_safe (standing : ∀ policy, setting.policy policy → policy = blocked) (fuel : Nat)
    (still : w.vault.tree = t) : (alone engine setting task).Safe (StillTold t fun pairs => ∀ pair, pair ∈ pairs ↔
      ∃ names, Scanned t blocked vaultRoot names ∧ pair.conflict = relativeText names ∧
        canonicalConflictPath pair.conflict = some pair.canonical) (scanConflicts vaultRoot fuel) w := by
  have visits (dir : FsPath) (name : Name)
      (entered : Entered (Tree.Child t) (Tree.look t vaultRoot (!blocked ·) conflictPair) vaultRoot dir)
      (_ : t.InDir dir name) (w : RuntimeWorld fold) (still : w.vault.tree = t) :
      (alone engine setting task).Safe
        (StillTold t (· = Tree.look t vaultRoot (!blocked ·) conflictPair (dir ++ [name])))
        (scanEntry vaultRoot (dir ++ [name])) w := by
    obtain ⟨names, rfl, -⟩ := entered_iff.mp entered
    rw [List.append_assoc]
    exact scanEntry_safe standing still
  refine (walkDirs_safe visits fuel (.start _ _ vaultRoot) (.start _ vaultRoot) still).weaken ?_
  rintro result after ⟨still, told⟩
  refine ⟨still, fun pairs same pair => ?_⟩
  rw [(told pairs same).1.mem, emitted_iff]
  constructor
  · rintro ⟨names, some', visited, metadata, there, plain, given⟩
    unfold conflictPair at given
    split at given
    · rename_i markdown
      obtain ⟨canonical, found, rfl⟩ := Option.map_eq_some_iff.mp given
      exact ⟨names, ⟨some', visited, markdown, metadata, there, plain⟩, rfl, found⟩
    · cases given
  · rintro ⟨names, ⟨some', visited, markdown, metadata, there, plain⟩, same, found⟩
    refine ⟨names, some', visited, metadata, there, plain, ?_⟩
    rw [same] at found
    rw [conflictPair, if_pos markdown, found, Option.map_some, ← same]

/-- The pair of a conflict file that is in the vault, and of its sibling. -/
def Filed (t : Tree fold) (blocked : Text → Bool) (vaultRoot : FsPath) (pair : ConflictPair) : Prop :=
  ConflictOf pair.conflict pair.canonical ∧
    ∃ names, Scanned t blocked vaultRoot names ∧ pair.conflict = ['/'].intercalate names

/-- The note has a conflict file in its own directory. -/
def InConflict (t : Tree fold) (blocked : Text → Bool) (vaultRoot : FsPath) (path : Text) : Prop :=
  ∃ conflict, Filed t blocked vaultRoot ⟨path, conflict⟩

/-- The policy check of the writer can answer that the path is in quarantine. -/
def VaultWriter.Quarantines (writer : VaultWriter) (setting : Setting fold) (path : Text) : Prop :=
  ∃ task w message after, Prog.Reach (VaultEffect setting task) (writer.checkPolicy path) w
    (.fail (.new .pathQuarantined message)) after

/-- No file that the scan takes for a conflict file lies below a directory that is named like one,
and its text is the path of a file, as it is when no name has a backslash. -/
def PlainlyNamed (t : Tree fold) (blocked : Text → Bool) (vaultRoot : FsPath) : Prop :=
  ∀ names, Scanned t blocked vaultRoot names → Marked (relativeText names) →
    ¬ Stray (relativeText names) ∧
      ∃ same, Scanned t blocked vaultRoot same ∧ relativeText names = ['/'].intercalate same

theorem quarantines_only {writer : VaultWriter} {path : Text} (reports : writer.Quarantines setting path) :
    path ∈ writer.options.quarantinedPaths ∨ (canonicalConflictPath path).isSome := by
  obtain ⟨task, w, message, after, reach⟩ := reports
  have checks : (sequential (VaultEffect setting task) fun _ _ => True).Safe
      (fun result _ => ∀ message, result = .error (.new .pathQuarantined message) →
        path ∈ writer.options.quarantinedPaths ∨ (canonicalConflictPath path).isSome)
      (writer.checkPolicy path) w := by
    unfold VaultWriter.checkPolicy
    refine sequential_call.mpr fun answer after effect => ⟨trivial, ?_⟩
    cases answer with
    | true => exact sequential_fail.mpr nofun
    | false =>
      simp only [Bool.or_eq_true, decide_eq_true_eq]
      split
      · rename_i hit
        exact sequential_fail.mpr fun _ _ => hit
      · exact sequential_done.mpr nofun
  exact sequential_fail.mp (checks.run reach) message rfl

/-- The detection is right about a path, a completed scan of a vault that stands still pairs only
siblings, and the writer that is given its canonical paths reports only notes with a conflict file
in their own directory and conflict files, just when neither the path nor a file that the scan
takes for a conflict file lies below a directory that is named like one. -/
theorem conflict_detection (standing : ∀ policy, setting.policy policy → policy = blocked) {fuel : Nat}
    {pairs : List ConflictPair} {after : RuntimeWorld fold}
    (completed : Prog.Reach (RuntimeEffect engine setting task) (scanConflicts vaultRoot fuel) w (.done pairs) after)
    (path : Text) :
    (Detected path ∧ (∀ pair ∈ pairs, Filed w.vault.tree blocked vaultRoot pair) ∧
      ∀ writer : VaultWriter, writer.options.quarantinedPaths = pairs.map ConflictPair.canonical →
        writer.Quarantines setting path →
          InConflict w.vault.tree blocked vaultRoot path ∨ ∃ canonical, ConflictOf path canonical) ↔
      ¬ Stray path ∧ PlainlyNamed w.vault.tree blocked vaultRoot := by
  have told := (sequential_done.mp ((scanConflicts_safe standing fuel rfl).run completed)).2 pairs rfl
  have files : (∀ pair ∈ pairs, Filed w.vault.tree blocked vaultRoot pair) ↔
      PlainlyNamed w.vault.tree blocked vaultRoot := by
    constructor
    · intro filed names scanned conflict
      obtain ⟨canonical, found⟩ := marked_iff.mp conflict
      obtain ⟨real, same⟩ := filed ⟨canonical, relativeText names⟩ ((told _).mpr ⟨names, scanned, rfl, found⟩)
      refine ⟨fun stray => ?_, same⟩
      obtain ⟨other, found', none'⟩ := stray.canonical
      rw [found, Option.some.injEq] at found'
      exact none' (found' ▸ real)
    · intro named pair inside
      obtain ⟨names, scanned, same, found⟩ := (told pair).mp inside
      rw [same] at found
      obtain ⟨plain, kept⟩ := named names scanned (marked_iff.mpr ⟨_, found⟩)
      rw [← same] at found plain kept
      exact ⟨conflictOf_of_canonical plain found, kept⟩
  rw [files, detected_iff]
  refine ⟨fun ⟨plain, named, _⟩ => ⟨plain, named⟩, fun ⟨plain, named⟩ => ⟨plain, named, fun writer quarantined reports => ?_⟩⟩
  rcases quarantines_only reports with listed | conflict
  · rw [quarantined, List.mem_map] at listed
    obtain ⟨⟨canonical, conflict⟩, inside, rfl⟩ := listed
    exact .inl ⟨conflict, files.mpr named _ inside⟩
  · obtain ⟨canonical, found⟩ := Option.isSome_iff_exists.mp conflict
    exact .inr ⟨canonical, conflictOf_of_canonical plain found⟩

end Scan

/-- A note below a directory that is named like a conflict file puts another note into quarantine. -/
theorem stray_note_detected : let path := "a.sync-conflict-x/b.md".toList
    canonicalConflictPath path = some "a.md".toList ∧ ∀ canonical, ¬ ConflictOf path canonical := by
  refine ⟨by decide +kernel, fun canonical conflict => ?_⟩
  have stray : Stray "a.sync-conflict-x/b.md".toList :=
    ⟨"a".toList, "x/b".toList, by decide, by decide, by decide⟩
  obtain ⟨other, found, none'⟩ := stray.canonical
  rw [conflict.canonical, Option.some.injEq] at found
  exact none' (found ▸ conflict)

def conflictName : Name := "a.sync-conflict-x.md".toList

/-- A vault with one file in it, a conflict file. -/
def conflictVault : RuntimeWorld id :=
  ⟨secretVault (some ⟨conflictName, .file (.utf8 []), 0, 0⟩), fun _ => none, .empty⟩

theorem conflictVault_among :
    conflictVault.vault.tree.Among [["v".toList, conflictName], ["v".toList], []] :=
  (FileSystem.Tree.bare_among.put [] ⟨"v".toList, .dir true, 0, 0⟩).put ["v".toList]
    ⟨conflictName, .file (.utf8 []), 0, 0⟩

theorem conflictVault_listing : conflictVault.vault.tree.Listing ["v".toList] [conflictName] :=
  FileSystem.Tree.listDir_listing conflictVault_among (by decide) (by decide +kernel)

/-- The policy stands still and blocks nothing. -/
def openSetting : Setting id := ⟨False, fun policy => policy = fun _ => false, fun _ _ => True⟩

def openScript : Script id := ⟨fun _ => false, fun _ => [], fun _ _ => false⟩

theorem openScript_sound (op : RuntimeOp) (w : RuntimeWorld id) (answer : op.Resp) (after : RuntimeWorld id)
    (ran : openScript.runtime plainEngine 0 op w = some (answer, after)) :
    RuntimeEffect plainEngine openSetting 0 op w answer after :=
  Script.runtime_sound rfl (fun _ => trivial) (fun _ _ never => absurd never Bool.false_ne_true) op w answer after ran

theorem conflictVault_scanned : ∃ after, Prog.Reach (RuntimeEffect plainEngine openSetting 0)
    (scanConflicts ["v".toList] 2) conflictVault (.done [⟨"a.md".toList, conflictName⟩]) after := by
  have first : Prog.Reach (RuntimeEffect plainEngine openSetting 0) (scanConflicts ["v".toList] 2) conflictVault _ _ :=
    .step .start (.readDir conflictVault_listing)
  obtain ⟨after, ran⟩ : ∃ after, ((RuntimeProg.visitAll (scanEntry ["v".toList]) ["v".toList] [conflictName]
      ([], [])).bind fun state => walkDirs RuntimeError.io (scanEntry ["v".toList]) 1 state.1 state.2).exec
      (openScript.runtime plainEngine 0) conflictVault = some (.ok [⟨"a.md".toList, conflictName⟩], after) :=
    ⟨_, rfl⟩
  exact ⟨after, first.trans (Prog.exec_reach openScript_sound ran)⟩

theorem conflict_detection_conflictVault : let pair := (⟨"a.md".toList, conflictName⟩ : ConflictPair)
    (Detected conflictName ∧ (∀ found ∈ [pair], Filed conflictVault.vault.tree (fun _ => false) ["v".toList] found) ∧
      ∀ writer : VaultWriter, writer.options.quarantinedPaths = [pair].map ConflictPair.canonical →
        writer.Quarantines openSetting conflictName →
          InConflict conflictVault.vault.tree (fun _ => false) ["v".toList] conflictName ∨
            ∃ canonical, ConflictOf conflictName canonical) ↔
      ¬ Stray conflictName ∧ PlainlyNamed conflictVault.vault.tree (fun _ => false) ["v".toList] := by
  obtain ⟨after, completed⟩ := conflictVault_scanned
  exact conflict_detection (fun _ same => same) completed conflictName

end SecondBrain
