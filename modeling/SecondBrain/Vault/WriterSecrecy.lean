import SecondBrain.Vault.FrontmatterEncoding
import SecondBrain.Vault.Resolution

set_option autoImplicit false

/-! What a call of the writer on a denied path tells about the files. -/

namespace SecondBrain

open FileSystem (IoError FsPath FsOp Tree Name)

variable {fold : Name → Name}

section Standing

variable {t : Tree fold} {vaultRoot : FsPath} {path : Text}

/-- The path of a note can be resolved: its longest prefix that exists leads to a place in the
vault, and every longer prefix is simply absent. It fails where a component is a regular file
and others follow, where one cannot be searched, and where a link leads outside or in a
circle. -/
def Tree.Resolves (t : Tree fold) (vaultRoot : FsPath) (path : Text) : Prop :=
  ∃ real front rest existing, t.canonicalize vaultRoot = .ok real ∧ components path = front ++ rest ∧
    t.canonicalize (vaultRoot ++ front) = .ok existing ∧ real <+: existing ∧
    ∀ missing, missing ≠ [] → missing <+: rest →
      t.canonicalize (vaultRoot ++ (front ++ missing)) = .error .notFound

/-- Where the search for an existing prefix ends. -/
theorem Tree.nearest_split {real : FsPath} (rooted : t.canonicalize vaultRoot = .ok real)
    (names suffix : List Name) {existing : FsPath} {rest : List Name}
    (found : Tree.nearest t (vaultRoot ++ names).reverse suffix = .ok (existing, rest)) :
    ∃ front back, names = front ++ back ∧ t.canonicalize (vaultRoot ++ front) = .ok existing ∧
      ∀ missing, missing ≠ [] → missing <+: back →
        t.canonicalize (vaultRoot ++ (front ++ missing)) = .error .notFound := by
  induction names using List.reverseRecOn generalizing suffix with
  | nil =>
    rw [List.append_nil, Tree.nearest_found rooted] at found
    cases found
    exact ⟨[], [], rfl, by rwa [List.append_nil], fun missing some' only =>
      absurd (List.prefix_nil.mp only) some'⟩
  | append_singleton names name ih =>
    have split : (vaultRoot ++ (names ++ [name])).reverse = name :: (vaultRoot ++ names).reverse := by simp
    cases told : t.canonicalize (vaultRoot ++ (names ++ [name])) with
    | ok here =>
      rw [Tree.nearest_found told] at found
      cases found
      exact ⟨names ++ [name], [], (List.append_nil _).symm, told, fun missing some' only =>
        absurd (List.prefix_nil.mp only) some'⟩
    | error error =>
      rw [split, Tree.nearest, ← split, List.reverse_reverse, told] at found
      cases error with
      | notFound =>
        dsimp only at found
        split at found
        · cases found
        · obtain ⟨front, back, rfl, here, absent⟩ := ih _ found
          refine ⟨front, back ++ [name], List.append_assoc _ _ _, here, fun missing some' part => ?_⟩
          rcases List.prefix_concat_iff.mp part with rfl | part
          · rw [← List.append_assoc front]
            exact told
          · exact absent missing some' part
      | alreadyExists => cases found
      | other => cases found

theorem Tree.canonicalVaultPath_resolves (normal : Normalized path) :
    (∃ found, Tree.canonicalVaultPath t vaultRoot path = .ok found) ↔ Tree.Resolves t vaultRoot path := by
  constructor
  · rintro ⟨found, ran⟩
    unfold Tree.canonicalVaultPath at ran
    rw [normal.resolve] at ran
    cases rooted : t.canonicalize vaultRoot with
    | error error => simp [rooted, Except.mapError, bind, Except.bind] at ran
    | ok real =>
      simp only [rooted, Except.mapError, bind, Except.bind] at ran
      cases near : Tree.nearest t (vaultRoot ++ components path).reverse [] with
      | error error =>
        rw [near] at ran
        cases ran
      | ok place =>
        obtain ⟨existing, rest⟩ := place
        simp only [near] at ran
        split at ran
        · rename_i inside
          obtain ⟨front, back, split, here, absent⟩ := Tree.nearest_split rooted _ _ near
          exact ⟨real, front, back, existing, rooted, split, here,
            List.isPrefixOf_iff_prefix.mp inside, absent⟩
        · cases ran
  · rintro ⟨real, front, rest, existing, rooted, split, here, inside, absent⟩
    have near : Tree.nearest t (vaultRoot ++ components path).reverse [] = .ok (existing, rest) := by
      rw [split]
      cases rest with
      | nil =>
        rw [List.append_nil]
        exact Tree.nearest_found here []
      | cons next more =>
        have proper : ∀ name ∈ next :: more, FileSystem.special name = false := fun name member =>
          normal.proper name (split ▸ List.mem_append_right _ member)
        have gone : t.canonicalize ((vaultRoot ++ front) ++ [next]) = .error .notFound := by
          rw [List.append_assoc]
          exact absent [next] (by simp) (by simp)
        rw [← List.append_assoc, Tree.nearest_missing gone more [] proper, List.append_nil]
        exact Tree.nearest_found here _
    exact ⟨_, Tree.canonicalVaultPath_eq vaultRoot normal rooted inside near⟩

end Standing

section Exact

variable {setting : Setting fold} {task : Nat} {w : World fold} {ε α : Type}

/-- Without faults a reading call answers what the tree says. -/
theorem VaultEffect.exact {op : FsOp} {after : World fold} {answer : Except IoError op.Result}
    (exact : ¬ setting.faults) (effect : VaultEffect setting task (.fs op) w answer after)
    (reads : op.reads = true) : answer = FsOp.ask w.tree op ∧ after = w := by
  refine ⟨?_, (effect.reads reads).1⟩
  cases effect with
  | fs _ _ now =>
    cases op with
    | canonicalize path => rfl
    | tryExists path => rfl
    | symlinkMetadata path => rfl
    | metadata path => rfl
    | readToString path => rfl
    | _ => simp [FsOp.reads] at reads
  | fault allowed fails => exact absurd allowed exact

/-- What a program answers that looks only. -/
def Told (w : World fold) (told : Except ε α) (result : Except ε α) (after : World fold) : Prop :=
  result = told ∧ after = w

theorem reads_total {op : FsOp} {next : Except IoError op.Result → VaultProg ε α}
    {post : Except ε α → World fold → Prop} (exact : ¬ setting.faults) (reads : op.reads = true)
    (rest : (next (FsOp.ask w.tree op)).Total (VaultEffect setting task) post w) :
    (Prog.call (VaultOp.fs op) next).Total (VaultEffect setting task) post w := by
  have effect : VaultEffect setting task (.fs op) w (FsOp.ask w.tree op) w := by
    have ran : VaultEffect setting task (.fs op) w (FsOp.ask w.tree op)
        { w with tree := (FsOp.perform w.tree 0 op).2 } := .fs op w 0
    rwa [(ran.reads reads).1] at ran
  exact Prog.Total.answer effect (fun answer after effect => effect.exact exact reads) rest

theorem existingPrefix_total (exact : ¬ setting.faults) (reversed suffix : List Name) :
    (existingPrefix reversed suffix).Total (VaultEffect setting task)
      (Told w (Tree.nearest w.tree reversed suffix)) w := by
  induction reversed generalizing suffix with
  | nil =>
    unfold existingPrefix Tree.nearest
    refine reads_total exact rfl ?_
    rw [show FsOp.ask w.tree (.canonicalize []) = w.tree.canonicalize [] from rfl]
    cases w.tree.canonicalize [] with
    | ok existing => exact ⟨rfl, rfl⟩
    | error error => exact ⟨rfl, rfl⟩
  | cons name parent ih =>
    unfold existingPrefix Tree.nearest
    refine reads_total exact rfl ?_
    rw [show FsOp.ask w.tree (.canonicalize (name :: parent).reverse) =
      w.tree.canonicalize (name :: parent).reverse from rfl]
    cases w.tree.canonicalize (name :: parent).reverse with
    | ok existing => exact ⟨rfl, rfl⟩
    | error error =>
      cases error with
      | notFound =>
        dsimp only [Prog.done_bind]
        split
        · exact ⟨rfl, rfl⟩
        · exact ih _
      | alreadyExists => exact ⟨rfl, rfl⟩
      | other => exact ⟨rfl, rfl⟩

theorem canonicalVaultPathForWrite_total (exact : ¬ setting.faults) (vaultRoot : FsPath) (path : Text) :
    (canonicalVaultPathForWrite vaultRoot path).Total (VaultEffect setting task)
      (Told w (Tree.canonicalVaultPath w.tree vaultRoot path)) w := by
  unfold canonicalVaultPathForWrite Tree.canonicalVaultPath
  rw [VaultProg.io_mapError]
  refine reads_total exact rfl ?_
  rw [show FsOp.ask w.tree (.canonicalize vaultRoot) = w.tree.canonicalize vaultRoot from rfl]
  cases w.tree.canonicalize vaultRoot with
  | error error => exact ⟨rfl, rfl⟩
  | ok real =>
    cases resolveVaultPath vaultRoot path with
    | error error => exact ⟨rfl, rfl⟩
    | ok candidate =>
      have near : (existingPrefix candidate.reverse []).Total (VaultEffect setting task)
          (Told w (Tree.nearest w.tree candidate.reverse [])) w := existingPrefix_total exact _ _
      cases found : Tree.nearest w.tree candidate.reverse [] with
      | error error =>
        rw [found] at near
        refine near.bind (by rintro _ _ ⟨never, _⟩; cases never) ?_
        rintro _ _ ⟨same, rfl⟩
        cases same
        exact ⟨by simp only [Except.mapError, bind, Except.bind, found], rfl⟩
      | ok place =>
        rw [found] at near
        refine near.bind ?_ (by rintro _ _ ⟨never, _⟩; cases never)
        rintro _ _ ⟨same, rfl⟩
        cases same
        simp only [Except.mapError, bind, Except.bind, found]
        split
        · exact ⟨rfl, rfl⟩
        · exact ⟨rfl, rfl⟩

/-- The error of a path that the policy blocks, with no file changed. -/
def Refused (w : World fold) (result : Except VaultWriteError α) (after : World fold) : Prop :=
  result = .error (.new .pathBlocked "Vault path is blocked".toList) ∧ after.tree = w.tree

/-- The policy blocks the path, whenever it is asked. -/
structure Denies (setting : Setting fold) (path : Text) : Prop where
  answers : ∃ policy, setting.policy policy
  blocks : ∀ policy, setting.policy policy → policy path = true

variable {writer : VaultWriter} {path : Text}

theorem guard_refused (denies : Denies setting path) :
    (writer.guard path).Total (VaultEffect setting task) (Refused w) w := by
  unfold VaultWriter.guard VaultWriter.checkPolicy
  obtain ⟨policy, inForce⟩ := denies.answers
  refine ⟨⟨_, _, .isBlocked path inForce⟩, fun answer after effect => ?_⟩
  cases effect with
  | isBlocked _ inForce =>
    rw [denies.blocks _ inForce]
    exact ⟨rfl, rfl⟩

theorem apply_refused (denies : Denies setting path) (base : Option Text) (mutation : Mutation) (fuel : Nat) :
    (writer.apply path base mutation fuel).Total (VaultEffect setting task) (Refused w) w := by
  unfold VaultWriter.apply
  refine (guard_refused denies).bind (by rintro _ _ ⟨never, _⟩; cases never) ?_
  rintro error after ⟨same, still⟩
  cases same
  exact ⟨rfl, still⟩

theorem auditStart_still (input : AuditInput) : (writer.auditStart input).Total (VaultEffect setting task)
    (fun result after => (∃ attempt, result = .ok attempt) ∧ after.tree = w.tree) w := by
  unfold VaultWriter.auditStart
  split
  · refine ⟨⟨_, _, .notStarted .database⟩, fun answer after effect => ?_⟩
    cases effect with
    | started => exact ⟨⟨_, rfl⟩, rfl⟩
    | notStarted error => exact ⟨⟨_, rfl⟩, rfl⟩
  · exact ⟨⟨_, rfl⟩, rfl⟩

theorem auditEnd_still (input : AuditInput) (attempt : Option Text) (outcome : Except VaultWriteError WriteResult) :
    (writer.auditEnd input attempt outcome).Total (VaultEffect setting task)
      (fun result after => result = .ok () ∧ after.tree = w.tree) w := by
  unfold VaultWriter.auditEnd
  split
  · cases outcome with
    | ok value =>
      refine ⟨⟨_, _, .notCompleted .database⟩, fun answer after effect => ?_⟩
      cases effect with
      | completed => exact ⟨rfl, rfl⟩
      | notCompleted error => exact ⟨rfl, rfl⟩
    | error error =>
      cases attempt with
      | none => exact ⟨rfl, rfl⟩
      | some id =>
        refine ⟨⟨_, _, .notFailed .database⟩, fun answer after effect => ?_⟩
        cases effect with
        | failed => exact ⟨rfl, rfl⟩
        | notFailed error => exact ⟨rfl, rfl⟩
  · exact ⟨rfl, rfl⟩

/-- Without other tasks the lock is got at the first try. -/
theorem lockPath_total (exact : ¬ setting.faults) (free : ∀ lock, w.locks.holder lock = none)
    {identity : Text} {resolved : FsPath} (fuel : Nat)
    (found : Tree.canonicalVaultPath w.tree writer.options.vaultRoot path = .ok (identity, resolved)) :
    (writer.lockPath path (fuel + 1)).Total (VaultEffect setting task)
      (fun result after => (∃ lock, result = .ok lock) ∧ after.tree = w.tree) w := by
  have resolves {v : World fold} (same : v.tree = w.tree) :
      (canonicalVaultPathForWrite writer.options.vaultRoot path).Total (VaultEffect setting task)
        (Told v (.ok (identity, resolved))) v := by
    rw [← found, ← same]
    exact canonicalVaultPathForWrite_total exact _ _
  unfold VaultWriter.lockPath
  have first : ((canonicalVaultPathForWrite writer.options.vaultRoot path).mapError
      VaultWriteError.ofPath).Total (VaultEffect setting task) (Told w (.ok (identity, resolved))) w := by
    refine Prog.Total.mapError ((resolves rfl).weaken ?_)
    rintro result _ ⟨same, rfl⟩
    exact ⟨by rw [same]; rfl, rfl⟩
  refine first.bind ?_ (by rintro _ _ ⟨never, _⟩; cases never)
  rintro _ w ⟨same, rfl⟩
  cases same
  refine ⟨⟨_, _, .lockFor _ identity⟩, fun lock after effect => ?_⟩
  cases effect with
  | lockFor =>
    have open' (lock : Nat) : (w.locks.lookup task identity).2.holder lock = none := by
      rw [LockTable.lookup_holder]
      exact free lock
    have got (lock : Nat) : ∃ locks, (w.locks.lookup task identity).2.acquire task lock = some locks := by
      unfold LockTable.acquire
      rw [open' lock]
      exact ⟨_, rfl⟩
    obtain ⟨locks, acquired⟩ := got (w.locks.lookup task identity).1
    refine ⟨⟨_, _, .lockOwned acquired⟩, fun _ after effect => ?_⟩
    cases effect with
    | lockOwned taken =>
      rename_i locks
      have same : ({ w with locks := locks } : World fold).tree = w.tree := rfl
      change Prog.Total _ _ ((Prog.attempt _).bind _) { w with locks := locks }
      refine (resolves same).attempt_bind ?_
      rintro _ _ ⟨rfl, rfl⟩
      dsimp only
      rw [if_pos rfl]
      exact ⟨⟨_, rfl⟩, rfl⟩

theorem run_refused (exact : ¬ setting.faults) (denies : Denies setting path)
    (free : ∀ lock, w.locks.holder lock = none) (named : path ≠ []) (fuel : Nat) {base : Option Text}
    {mutation : Mutation} {input : Text} (normalized : normalizeVaultPath input = .ok path)
    (resolves : Tree.Resolves w.tree writer.options.vaultRoot path) :
    (writer.mutate input base mutation (fuel + 1)).Total (VaultEffect setting task) (Refused w) w := by
  obtain ⟨⟨identity, resolved⟩, found⟩ :=
    (Tree.canonicalVaultPath_resolves (normalizeVaultPath_ok normalized)).mpr resolves
  unfold VaultWriter.mutate
  rw [normalized]
  simp only [Prog.ofExcept_ok, Prog.bind_eq, Prog.done_bind, if_neg named]
  refine (lockPath_total exact free fuel found).bind ?_ (by rintro _ _ ⟨⟨_, never⟩, _⟩; cases never)
  rintro lock t ⟨-, still⟩
  have applied : (writer.auditedApply path base mutation (fuel + 1)).Total (VaultEffect setting task)
      (fun result after => ∃ inner, result = .ok inner ∧ Refused w inner after) t := by
    unfold VaultWriter.auditedApply
    refine (auditStart_still _).bind ?_ (by rintro _ _ ⟨⟨_, never⟩, _⟩; cases never)
    rintro attempt u ⟨-, still'⟩
    refine (apply_refused denies base mutation _).attempt_bind ?_
    rintro result v ⟨rfl, still''⟩
    refine (auditEnd_still _ attempt _).bind ?_ (by rintro _ _ ⟨never, _⟩; cases never)
    rintro _ x ⟨-, last⟩
    exact ⟨_, rfl, rfl, last.trans (still''.trans (still'.trans still))⟩
  refine applied.bind ?_ (by rintro _ _ ⟨_, never, _⟩; cases never)
  rintro result u ⟨_, ⟨⟩, rfl, still'⟩
  refine ⟨⟨_, _, .dropGuard _ lock⟩, fun _ after effect => ?_⟩
  cases effect with
  | dropGuard => exact ⟨rfl, still'⟩

/-- A path that does not resolve is answered with what is wrong about it. -/
theorem run_betrayed (exact : ¬ setting.faults) (named : path ≠ []) (fuel : Nat) {base : Option Text}
    {mutation : Mutation} {input : Text} (normalized : normalizeVaultPath input = .ok path)
    {error : VaultPathError}
    (lost : Tree.canonicalVaultPath w.tree writer.options.vaultRoot path = .error error) :
    (writer.mutate input base mutation (fuel + 1)).Total (VaultEffect setting task)
      (fun result _ => result = .error (.ofPath error)) w := by
  have first : ((canonicalVaultPathForWrite writer.options.vaultRoot path).mapError
      VaultWriteError.ofPath).Total (VaultEffect setting task) (Told w (.error (.ofPath error))) w := by
    refine Prog.Total.mapError ((canonicalVaultPathForWrite_total exact _ _).weaken ?_)
    rintro result _ ⟨same, rfl⟩
    exact ⟨by rw [same, lost]; rfl, rfl⟩
  have locks : (writer.lockPath path (fuel + 1)).Total (VaultEffect setting task)
      (fun result _ => result = .error (.ofPath error)) w := by
    unfold VaultWriter.lockPath
    refine first.bind (by rintro _ _ ⟨never, _⟩; cases never) ?_
    rintro _ _ ⟨same, -⟩
    cases same
    rfl
  unfold VaultWriter.mutate
  rw [normalized]
  simp only [Prog.ofExcept_ok, Prog.bind_eq, Prog.done_bind, if_neg named]
  refine locks.bind (by rintro _ _ never; cases never) ?_
  rintro _ _ same
  cases same
  rfl

/-- A call on a denied path is refused as such, whatever the files are like, just when the path
names a file and can be resolved before the policy is asked. -/
theorem run_refused_iff (exact : ¬ setting.faults) (denies : Denies setting path)
    (free : ∀ lock, w.locks.holder lock = none) (request : VaultWriter.WriteCall) (fuel : Nat)
    (normalized : normalizeVaultPath request.path = .ok path) :
    (writer.run request (fuel + 1)).Total (VaultEffect setting task) (Refused w) w ↔
      path ≠ [] ∧ Tree.Resolves w.tree writer.options.vaultRoot path := by
  constructor
  · intro total
    have named : path ≠ [] := by
      rintro rfl
      unfold VaultWriter.run VaultWriter.mutate at total
      rw [normalized] at total
      cases total.1
    refine ⟨named, (Tree.canonicalVaultPath_resolves (normalizeVaultPath_ok normalized)).mp ?_⟩
    cases told : Tree.canonicalVaultPath w.tree writer.options.vaultRoot path with
    | ok found => exact ⟨found, rfl⟩
    | error error =>
      obtain ⟨result, after, ⟨refused, -⟩, other⟩ :=
        total.meet (run_betrayed exact named fuel normalized told)
      rw [refused] at other
      cases other
  · rintro ⟨named, resolves⟩
    exact run_refused exact denies free named fuel normalized resolves

end Exact

def denySecret (path : Text) : Bool := "secret".toList.isPrefixOf path

/-- Nothing fails, and `secret` is denied. -/
def secretSetting : Setting id := ⟨False, fun policy => policy = denySecret, fun _ _ => True⟩

def secretWriter : VaultWriter := ⟨⟨["v".toList], 0, [], ".trash".toList⟩, true, plainCodecs, id⟩

/-- A vault with one entry in it, or none. -/
def secretVault (entry : Option FileSystem.Entry) : World id where
  tree :=
    let vault := (Tree.bare id).put [] ⟨"v".toList, .dir true, 0, 0⟩
    entry.elim vault fun entry => vault.put ["v".toList] entry
  locks := .empty
  audit := .empty
  checks := []
  drawn := []

def secretDeletion : VaultWriter.WriteCall :=
  ⟨"secret/x.md".toList, some "hello".toList, .delete, VaultWriter.delete_named⟩

/-- Whether `secret` is a directory or a regular file shows in the answer. -/
theorem denied_area_leaks :
    let script : Script id := ⟨denySecret, fun _ => [], fun _ _ => false⟩
    let answer entry := ((secretWriter.run secretDeletion 1).exec (script.run 0) (secretVault entry)).map (·.1)
    answer (some ⟨"secret".toList, .dir true, 0, 0⟩) =
        some (.error (.new .pathBlocked "Vault path is blocked".toList)) ∧
      answer none = some (.error (.new .pathBlocked "Vault path is blocked".toList)) ∧
      answer (some ⟨"secret".toList, .file (.utf8 []), 0, 0⟩) =
        some (.error (.ofPath (.io .other))) :=
  ⟨by decide +kernel, by decide +kernel, by decide +kernel⟩

theorem run_refused_iff_secret :
    (secretWriter.run secretDeletion 1).Total (VaultEffect secretSetting 0)
        (Refused (secretVault none)) (secretVault none) ↔
      secretDeletion.path ≠ [] ∧
        Tree.Resolves (secretVault none).tree ["v".toList] secretDeletion.path :=
  run_refused_iff id ⟨⟨_, rfl⟩, by rintro _ rfl; decide⟩ (fun _ => rfl) secretDeletion 0 (by decide +kernel)

end SecondBrain
