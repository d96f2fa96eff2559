import SecondBrain.Vault.Trash

set_option autoImplicit false

/-! Which notes can be deleted into the trash. -/

namespace SecondBrain

open FileSystem (IoError FsPath FsOp Tree Name Entry)

variable {fold : Name → Name} {setting : Setting fold} {task : Nat} {w : World fold} {writer : VaultWriter}
  {real : FsPath} {path text : Text}

/-- Nothing but its length stands against the deletion of a note: no call fails and no cooldown
runs, the ids are unique and new in the trash, the note is there and passes the guard, and no
blocked, quarantined or linked place and no file is in the way under the trash root. -/
structure VaultWriter.Deletable (writer : VaultWriter) (setting : Setting fold) (task : Nat) (w : World fold)
    (real : FsPath) (path text : Text) : Prop where
  exact : ¬ setting.faults
  asked : ∃ policy, setting.policy policy
  unlocked : ∀ lock, w.locks.holder lock = none
  noCooldown : writer.options.cooldownSeconds = 0
  configured : ∃ raw, RawDeletes.validate raw = .ok writer.options.trashPath
  rooted : w.tree.canonicalize writer.options.vaultRoot = .ok real
  named : path ≠ []
  readable : w.tree.readToString (writer.options.vaultRoot ++ components path) = .ok text
  accepts : (writer.guard path).Total (VaultEffect setting task) (fun result _ => ∃ absolute, result = .ok absolute) w
  ids : ∀ v, (∃ id, setting.fresh v id) ∧ ∀ id, setting.fresh v id → IsUniqueId id ∧
    w.tree.entries ((real ++ writer.stampedPlace path id).map fold) = none
  welcomes : ∀ target, writer.InTrash path setting target → writer.Welcomes setting w.tree real target

/-- The deletion succeeds: the note is under the trash root, where nothing was before, it is no
longer at its path, and every other file is as it was. -/
def VaultWriter.Deletes (writer : VaultWriter) (t : Tree fold) (real : FsPath) (path text : Text)
    (result : Except VaultWriteError WriteResult) (after : World fold) : Prop :=
  ∃ deleted, result = .ok ⟨path, some deleted, some (writer.sha256 text), writer.sha256 text⟩ ∧
    components writer.options.trashPath <+: components deleted ∧
    Tree.Moved t after.tree ((real ++ components path).map fold) ((real ++ components deleted).map fold) text

/-- What a deletion comes to. -/
structure DeletedOrNot (writer : VaultWriter) (t : Tree fold) (real : FsPath) (path text : Text)
    (result : Except VaultWriteError WriteResult) (after : World fold) : Prop where
  deleted : writer.FitsTrash path t real → writer.Deletes t real path text result after
  refused : ¬ writer.FitsTrash path t real → ∃ error, result = .error error

theorem VaultWriter.Deletable.movable (deletable : writer.Deletable setting task w real path text)
    (normal : Normalized path) : writer.Movable setting w.tree real path text := by
  have admits := guard_admits deletable.exact deletable.asked deletable.rooted normal deletable.named
    deletable.readable deletable.accepts
  refine ⟨deletable.rooted, admits, ?_⟩
  have readable := deletable.readable
  unfold FileSystem.Tree.readToString at readable
  rw [FileSystem.Tree.resolve_way deletable.rooted normal.proper admits.way] at readable
  cases bound : w.tree.entries ((real ++ components path).map fold) with
  | none =>
    rw [bound] at readable
    cases readable
  | some entry =>
    rw [bound] at readable
    simp only [bind, Except.bind] at readable
    split at readable
    · rename_i node
      cases readable
      exact FileSystem.Tree.content_of_file bound node
    all_goals cases readable

/-- The note is read as a whole. -/
theorem readBase_total (exact : ¬ setting.faults) (noCooldown : writer.options.cooldownSeconds = 0)
    (movable : writer.Movable setting w.tree real path text) {absolute : FsPath} (leads : Leads fold real path absolute) :
    (writer.readBase path (some (writer.sha256 text)) absolute).Total (VaultEffect setting task) (Told w (.ok text)) w := by
  have here : w.tree.canonicalize [] = .ok [] := rfl
  have way := movable.admits.way
  rw [← leads.key] at way
  have finds := FileSystem.Tree.resolve_way here leads.proper way
  obtain ⟨entry, bound, node⟩ := FileSystem.Tree.content_some.mp movable.holds
  rw [← leads.key] at bound
  simp only [List.nil_append, bound] at finds
  have stat : w.tree.metadata absolute = .ok entry.metadata := by
    unfold FileSystem.Tree.metadata
    simp only [finds, bind, Except.bind]
  have reads : w.tree.readToString absolute = .ok text := by
    unfold FileSystem.Tree.readToString
    simp only [finds, node, bind, Except.bind]
  unfold VaultWriter.readBase VaultWriter.existingMetadata
  refine reads_total exact rfl ?_
  rw [show FsOp.ask w.tree (.metadata absolute) = w.tree.metadata absolute from rfl, stat]
  simp only [VaultWriter.checkCooldown, noCooldown, Nat.lt_irrefl, gt_iff_lt, if_false, Prog.pure_eq, Prog.bind_eq,
    Prog.done_bind]
  refine reads_total exact rfl ?_
  rw [show FsOp.ask w.tree (.readToString absolute) = w.tree.readToString absolute from rfl, reads]
  simp only [Prog.ofExcept_ok, Prog.done_bind, if_true]
  exact ⟨rfl, rfl⟩

theorem apply_delete_total (deletable : writer.Deletable setting task w real path text) (normal : Normalized path)
    {v : World fold} (still : v.tree = w.tree) (fuel : Nat) :
    (writer.apply path (some (writer.sha256 text)) .delete (fuel + 2)).Total (VaultEffect setting task)
      (DeletedOrNot writer w.tree real path text) v := by
  obtain ⟨raw, configured⟩ := deletable.configured
  obtain ⟨trash, trashNamed⟩ := RawDeletes.validate_ok configured
  have movable := deletable.movable normal
  rw [← still] at movable ⊢
  unfold VaultWriter.apply
  simp only [Prog.bind_eq]
  refine Gives.bind (guard_passes deletable.exact deletable.asked movable.rooted normal deletable.named movable.admits)
    fun absolute u still' leads => ?_
  rw [← still'] at movable ⊢
  refine (readBase_total deletable.exact deletable.noCooldown movable leads).bind ?_
    (by rintro _ _ ⟨never, _⟩; cases never)
  rintro _ _ ⟨same, rfl⟩
  cases same
  have same := still'.trans still
  refine (moveToTrash_total deletable.exact deletable.asked trash trashNamed normal deletable.named leads movable
    (by rw [same]; exact deletable.ids) (by rw [same]; exact deletable.welcomes) fuel).bind ?_ ?_
  · rintro place after ⟨moved, refused⟩
    refine ⟨fun fits => ?_, fun unfit => ?_⟩
    · obtain ⟨deleted, same, inside, there⟩ := moved fits
      cases same
      exact ⟨place, rfl, inside, there⟩
    · obtain ⟨error, never⟩ := refused unfit
      cases never
  · rintro error after ⟨moved, -⟩
    refine ⟨fun fits => ?_, fun _ => ⟨error, rfl⟩⟩
    obtain ⟨deleted, never, -⟩ := moved fits
    cases never

theorem deleteNote_total (deletable : writer.Deletable setting task w real path text) {input : Text}
    (normalized : normalizeVaultPath input = .ok path) (fuel : Nat) :
    (writer.deleteNote input (writer.sha256 text) (fuel + 2)).Total (VaultEffect setting task)
      (DeletedOrNot writer w.tree real path text) w := by
  have normal := normalizeVaultPath_ok normalized
  obtain ⟨names, found, -, -⟩ :=
    Tree.canonicalVaultPath_way deletable.rooted normal (deletable.movable normal).admits.way
  unfold VaultWriter.deleteNote VaultWriter.mutate
  rw [normalized]
  simp only [Prog.ofExcept_ok, Prog.bind_eq, Prog.done_bind, if_neg deletable.named]
  refine (lockPath_total deletable.exact deletable.unlocked (fuel + 1) found).bind ?_
    (by rintro _ _ ⟨⟨_, never⟩, _⟩; cases never)
  rintro lock u ⟨-, still⟩
  have applied : (writer.auditedApply path (some (writer.sha256 text)) .delete (fuel + 2)).Total
      (VaultEffect setting task) (fun result after => ∃ inner, result = .ok inner ∧
        DeletedOrNot writer w.tree real path text inner after) u := by
    unfold VaultWriter.auditedApply
    refine (auditStart_still _).bind ?_ (by rintro _ _ ⟨⟨_, never⟩, _⟩; cases never)
    rintro attempt v ⟨-, still'⟩
    refine (apply_delete_total deletable normal (still'.trans still) fuel).attempt_bind ?_
    rintro result x outcome
    refine (auditEnd_still _ attempt result).bind ?_ (by rintro _ _ ⟨never, _⟩; cases never)
    rintro _ y ⟨-, last⟩
    refine ⟨result, rfl, fun fits => ?_, outcome.refused⟩
    obtain ⟨deleted, ran, inside, moved⟩ := outcome.deleted fits
    exact ⟨deleted, ran, inside, by rwa [last]⟩
  refine applied.bind ?_ (by rintro _ _ ⟨_, never, _⟩; cases never)
  rintro result x ⟨_, ⟨⟩, outcome⟩
  refine ⟨⟨_, _, .dropGuard _ lock⟩, fun _ after effect => ?_⟩
  cases effect with
  | dropGuard =>
    cases result with
    | ok value => exact ⟨outcome.deleted, outcome.refused⟩
    | error error => exact ⟨outcome.deleted, outcome.refused⟩

theorem not_deleted_of_unfit (deletable : writer.Deletable setting task w real path text) {input : Text}
    (normalized : normalizeVaultPath input = .ok path) (fuel : Nat) (unfit : ¬ writer.FitsTrash path w.tree real) :
    ¬ (writer.deleteNote input (writer.sha256 text) (fuel + 2)).Total (VaultEffect setting task)
      (writer.Deletes w.tree real path text) w := by
  intro deletes
  obtain ⟨result, after, ⟨deleted, same, -⟩, outcome⟩ := deletes.meet (deleteNote_total deletable normalized fuel)
  obtain ⟨error, never⟩ := outcome.refused unfit
  rw [same] at never
  cases never

/-- A note that nothing else stands against is deleted just when its path in the trash, and under
an id where that place is taken, stays within the length of a path. -/
theorem deletion_succeeds_iff (deletable : writer.Deletable setting task w real path text) {input : Text}
    (normalized : normalizeVaultPath input = .ok path) (fuel : Nat) :
    (writer.deleteNote input (writer.sha256 text) (fuel + 2)).Total (VaultEffect setting task)
      (writer.Deletes w.tree real path text) w ↔ writer.FitsTrash path w.tree real := by
  constructor
  · intro deletes
    by_contra unfit
    exact not_deleted_of_unfit deletable normalized fuel unfit deletes
  · exact fun fits => (deleteNote_total deletable normalized fuel).weaken fun result after outcome =>
      outcome.deleted fits

section Lone

def loneNote : Text := "a.md".toList

/-- A vault at the root of the file system, with one note in it. -/
def loneVault : World id where
  tree := (Tree.bare id).put [] ⟨loneNote, .file (.utf8 "hello".toList), 0, 0⟩
  locks := .empty
  audit := .empty
  checks := []
  drawn := []

def loneId : Text := List.replicate 36 'a'

/-- Nothing fails, nothing is denied, and there is one id. -/
def loneSetting : Setting id := ⟨False, fun policy => policy = fun _ => false, fun _ id => id = loneId⟩

def trashingWriter (trashPath : Text) : VaultWriter := ⟨⟨[], 0, [], trashPath⟩, false, plainCodecs, id⟩

theorem loneVault_entries {key : List Name} {entry : Entry} (bound : loneVault.tree.entries key = some entry) :
    key = [] ∧ entry.node = .dir true ∨ key = [loneNote] ∧ entry.node = .file (.utf8 "hello".toList) := by
  have entries : loneVault.tree.entries = Function.update (Tree.bare id).entries [loneNote]
      (some ⟨loneNote, .file (.utf8 "hello".toList), 0, 0⟩) :=
    FileSystem.Tree.put_entries _ (by decide)
  rw [entries] at bound
  by_cases here : key = [loneNote]
  · subst here
    rw [Function.update_self] at bound
    cases bound
    exact .inr ⟨rfl, rfl⟩
  · rw [Function.update_of_ne here] at bound
    simp only [Tree.bare] at bound
    split at bound
    · rename_i root
      cases bound
      exact .inl ⟨root, rfl⟩
    · cases bound

/-- The lone note can be deleted, as far as anything but the length goes. -/
theorem loneNote_deletable {trashPath : Text} (first : Text) (rest : List Name)
    (configured : RawDeletes.validate (some trashPath) = .ok trashPath)
    (split : components trashPath = first :: rest) (apart : first ≠ loneNote)
    (places : ∀ place ∈ [(trashingWriter trashPath).firstPlace loneNote,
      (trashingWriter trashPath).stampedPlace loneNote loneId], canonicalConflictPath (relativeText place) = none) :
    (trashingWriter trashPath).Deletable loneSetting 0 loneVault [] loneNote "hello".toList := by
  obtain ⟨trash, -⟩ := RawDeletes.validate_ok configured
  have normal : Normalized loneNote := normalizeVaultPath_ok (show normalizeVaultPath loneNote = .ok loneNote by decide +kernel)
  have opens {path : Text} (plain : canonicalConflictPath path = none) :
      (trashingWriter trashPath).Opens loneSetting path :=
    ⟨by rintro _ rfl; rfl, by simp [trashingWriter], plain⟩
  have unique : IsUniqueId loneId := ⟨List.length_replicate, fun c inside => .inr (List.eq_of_mem_replicate inside ▸ by decide)⟩
  have missing (more : List Name) : loneVault.tree.entries (first :: more) = none := by
    cases bound : loneVault.tree.entries (first :: more) with
    | none => rfl
    | some entry =>
      rcases loneVault_entries bound with ⟨never, -⟩ | ⟨same, -⟩
      · cases never
      · exact absurd (List.cons.inj same).1 apart
  have clear (more : List Name) : loneVault.tree.Clear (first :: more) := by
    intro before inside entry bound
    rcases loneVault_entries bound with ⟨-, node⟩ | ⟨rfl, -⟩
    · exact node
    · exact absurd (List.cons_prefix_cons.mp inside).1.symm apart
  have stamped : (trashingWriter trashPath).stampedPlace loneNote loneId = first :: (rest ++ [stampedName loneNote loneId]) := by
    rw [VaultWriter.stampedPlace, show (trashingWriter trashPath).options.trashPath = trashPath from rfl, split]
    rfl
  have whole : (trashingWriter trashPath).firstPlace loneNote = first :: (rest ++ [loneNote]) := by
    rw [VaultWriter.firstPlace, show (trashingWriter trashPath).options.trashPath = trashPath from rfl, split]
    rfl
  have admits : (trashingWriter trashPath).Admits loneSetting loneVault.tree [] loneNote := by
    refine ⟨⟨fun before inside entry bound => ?_, fun entry bound => ?_⟩, opens (by decide +kernel), ?_⟩
    · rcases loneVault_entries bound with ⟨-, node⟩ | ⟨rfl, -⟩
      · exact node
      · exact absurd (List.prefix_nil.mp inside) (by simp)
    · rcases loneVault_entries bound with ⟨-, node⟩ | ⟨-, node⟩
      · rw [node]
        rfl
      · rw [node]
        rfl
    · intro identity absolute told
      have same : Tree.canonicalVaultPath loneVault.tree [] loneNote = .ok (loneNote, [loneNote]) := by decide +kernel
      cases told.symm.trans same
      exact opens (by decide +kernel)
  have readable : loneVault.tree.readToString ([] ++ components loneNote) = .ok "hello".toList := by decide +kernel
  refine ⟨id, ⟨_, rfl⟩, fun _ => rfl, rfl, ⟨_, configured⟩, rfl, by decide, readable, ?_, ?_, ?_⟩
  · refine (guard_passes id ⟨_, rfl⟩ rfl normal (by decide) admits).weaken ?_
    rintro _ _ ⟨-, absolute, rfl, -⟩
    exact ⟨absolute, rfl⟩
  · refine fun v => ⟨⟨_, rfl⟩, ?_⟩
    rintro _ rfl
    refine ⟨unique, ?_⟩
    rw [stamped]
    exact missing _
  · have welcomes {place : List Name} (listed : place ∈ [(trashingWriter trashPath).firstPlace loneNote,
        (trashingWriter trashPath).stampedPlace loneNote loneId]) {more : List Name} (leads : place = first :: more)
        (same : components (['/'].intercalate place) = place) :
        (trashingWriter trashPath).Welcomes loneSetting loneVault.tree [] (['/'].intercalate place) := by
      refine ⟨?_, fun names folded => ?_⟩
      · rw [same, leads]
        exact (clear _).way
      · rw [same, List.map_id, List.map_id] at folded
        rw [folded]
        exact opens (places place listed)
    rintro target (rfl | ⟨_, _, rfl, rfl⟩)
    · exact welcomes (by simp) whole (VaultWriter.components_firstPlace trash normal)
    · exact welcomes (by simp) stamped
        (VaultWriter.components_stampedPlace trash normal (by decide) unique)

theorem deletion_succeeds_lone :
    ((trashingWriter ".trash".toList).deleteNote loneNote "hello".toList 2).Total (VaultEffect loneSetting 0)
        ((trashingWriter ".trash".toList).Deletes loneVault.tree [] loneNote "hello".toList) loneVault ↔
      (trashingWriter ".trash".toList).FitsTrash loneNote loneVault.tree [] :=
  deletion_succeeds_iff (loneNote_deletable ".trash".toList [] (by decide +kernel) (by decide +kernel) (by decide)
    (by decide +kernel)) (by decide +kernel) 0

/-- A trash path of 1023 bytes, in four components. -/
def deepTrash : Text := ['/'].intercalate (List.replicate 4 (List.replicate 255 't'))

/-- Below a trash path that is accepted no note may fit. -/
theorem deep_trash_refuses :
    (trashingWriter deepTrash).Deletable loneSetting 0 loneVault [] loneNote "hello".toList ∧
      ¬ ((trashingWriter deepTrash).deleteNote loneNote "hello".toList 2).Total (VaultEffect loneSetting 0)
        ((trashingWriter deepTrash).Deletes loneVault.tree [] loneNote "hello".toList) loneVault := by
  have deletable : (trashingWriter deepTrash).Deletable loneSetting 0 loneVault [] loneNote "hello".toList :=
    loneNote_deletable (List.replicate 255 't') (List.replicate 3 (List.replicate 255 't'))
      (by decide +kernel) (by decide +kernel) (by decide +kernel) (by decide +kernel)
  refine ⟨deletable, not_deleted_of_unfit deletable (by decide +kernel) 0 ?_⟩
  exact fun fits => absurd fits.1 (by decide +kernel)

end Lone

end SecondBrain
